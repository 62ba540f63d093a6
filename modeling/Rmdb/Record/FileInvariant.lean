import Mathlib.Data.List.Find
import Mathlib.Tactic.Push
import Rmdb.Record.PageLayout
import Rmdb.Record.RecordMap

namespace Rmdb

open Lib

/-!
# The pages of a table file and the map they represent

What the pages of a file say, apart from where they are kept: `V n` are the bytes of page `n`.

* `contents` — the map from record ids to records;
* `FreeChain` — the chain of free pages that starts at `first_free_page_no`;
* `FileInv` — the invariant: every counter counts its bitmap, and the chain lists exactly the pages
  that are not full;
* `FileInv.newPage`, `FileInv.insert`, `FileInv.delete`, `FileInv.update` — the changes the operations
  make keep it, and change the map at one record id.
-/

/-- **The map the file represents.** -/
def contents (h : RmFileHdr) (V : Int → PageData) (rid : Rid) : Option (List UInt8) :=
  if 1 ≤ rid.pageNo ∧ rid.pageNo < h.numPages ∧ 0 ≤ rid.slotNo ∧
      rid.slotNo < h.numRecordsPerPage ∧ Bitmap.isSet (V rid.pageNo) rid.slotNo.toNat = true then
    some (PageData.getSlot h (V rid.pageNo) rid.slotNo.toNat)
  else none

/-- The chain of free pages from page `p` on. -/
def FreeChain (V : Int → PageData) : Int → List Int → Prop
  | p, [] => p = rmNoPage
  | p, n :: l => p = n ∧ n ≠ rmNoPage ∧ FreeChain V (V n).nextFreePageNo l

theorem FreeChain.congr {V V' : Int → PageData} {p : Int} {l : List Int} (h : FreeChain V p l)
    (hV : ∀ n ∈ l, (V' n).nextFreePageNo = (V n).nextFreePageNo) : FreeChain V' p l := by
  induction l generalizing p with
  | nil => exact h
  | cons n l ih =>
    obtain ⟨h1, h2, h3⟩ := h
    refine ⟨h1, h2, ?_⟩
    rw [hV n List.mem_cons_self]
    exact ih h3 fun k hk => hV k (List.mem_cons_of_mem _ hk)

/-- A chain that starts nowhere is empty. -/
theorem FreeChain.eq_nil {V : Int → PageData} {l : List Int} (h : FreeChain V rmNoPage l) :
    l = [] := by
  cases l with
  | nil => rfl
  | cons n l => exact absurd h.1.symm h.2.1

/-- A chain that starts somewhere has that page first. -/
theorem FreeChain.eq_cons {V : Int → PageData} {p : Int} {l : List Int} (h : FreeChain V p l)
    (hp : p ≠ rmNoPage) : ∃ l', l = p :: l' ∧ FreeChain V (V p).nextFreePageNo l' := by
  cases l with
  | nil => exact absurd h hp
  | cons n l =>
    obtain ⟨rfl, -, h3⟩ := h
    exact ⟨l, rfl, h3⟩

/-- **The invariant of the pages.** -/
structure FileInv (h : RmFileHdr) (V : Int → PageData) (chain : List Int) : Prop where
  fits : h.Fits
  one_le : 1 ≤ h.numPages
  count : ∀ n, 1 ≤ n → n < h.numPages →
    (V n).numRecords = Bitmap.count (V n) h.numRecordsPerPage
  isChain : FreeChain V h.firstFreePageNo chain
  nodup : chain.Nodup
  mem : ∀ n, n ∈ chain ↔
    1 ≤ n ∧ n < h.numPages ∧ (V n).numRecords < h.numRecordsPerPage

section

variable {h : RmFileHdr} {V : Int → PageData} {chain : List Int}

theorem RmFileHdr.Fits.slots_lt (hf : h.Fits) : h.numRecordsPerPage < 32768 := by
  have h1 := hf.bits
  have h2 := hf.page
  simp only [pageSize] at h2
  omega

/-- `num_records` lies between 0 and the number of slots. -/
theorem FileInv.numRecords_bounds (hi : FileInv h V chain) {n : Int} (h1 : 1 ≤ n)
    (h2 : n < h.numPages) : 0 ≤ (V n).numRecords ∧ (V n).numRecords ≤ h.numRecordsPerPage := by
  rw [hi.count n h1 h2]
  have := Bitmap.count_le (V n) h.numRecordsPerPage
  omega

/-- The counter of a page whose bits are those of `x` with one more set. -/
theorem count_insert {x y : PageData} {next : Int} {recs : Nat → List UInt8} {s : Nat}
    (hx : x.numRecords = Bitmap.count x h.numRecordsPerPage)
    (hy : PageData.View h y next (x.numRecords + 1) (Function.update (Bitmap.isSet x) s true) recs)
    (hs : s < h.numRecordsPerPage) (hfree : Bitmap.isSet x s = false) :
    y.numRecords = Bitmap.count y h.numRecordsPerPage := by
  have hflip : Bitmap.count y h.numRecordsPerPage = Bitmap.count x h.numRecordsPerPage + 1 := by
    refine Bitmap.count_flip hs hfree ?_ fun j hj hjs => ?_
    · rw [hy.bit s hs, Function.update_self]
    · rw [hy.bit j hj, Function.update_of_ne hjs]
  rw [hy.num, hx, hflip]
  rfl

/-- **A new page.** -/
theorem FileInv.newPage (hi : FileInv h V chain) (hfirst : h.firstFreePageNo = rmNoPage)
    (x : PageData) :
    FileInv { h with numPages := h.numPages + 1, firstFreePageNo := h.numPages }
      (Function.update V h.numPages (PageData.initPage h x)) [h.numPages] ∧
    contents { h with numPages := h.numPages + 1, firstFreePageNo := h.numPages }
      (Function.update V h.numPages (PageData.initPage h x)) = contents h V := by
  obtain ⟨recs, hv⟩ := PageData.initPage_spec hi.fits x
  have hnil : chain = [] := by
    have hc := hi.isChain
    rw [hfirst] at hc
    exact hc.eq_nil
  have h1 := hi.one_le
  -- the new page is empty and the only one of the list
  have hcount : (PageData.initPage h x).numRecords =
      Bitmap.count (PageData.initPage h x) h.numRecordsPerPage := by
    rw [hv.num]
    have hzero : Bitmap.count (PageData.initPage h x) h.numRecordsPerPage = 0 := by
      refine List.countP_eq_zero.mpr fun s hs => ?_
      rw [hv.bit s (List.mem_range.mp hs)]
      exact Bool.false_ne_true
    rw [hzero]
    rfl
  refine ⟨⟨⟨hi.fits.slots, hi.fits.bits, hi.fits.page⟩, by show 1 ≤ h.numPages + 1; omega,
    fun n hn1 hn2 => ?_, ⟨rfl, ?_, ?_⟩, List.pairwise_singleton _ _, fun n => ?_⟩, funext fun rid => ?_⟩
  · by_cases hn : n = h.numPages
    · rw [hn, Function.update_self]
      exact hcount
    · rw [Function.update_of_ne hn]
      have hlt : n < h.numPages + 1 := hn2
      exact hi.count n hn1 (by omega)
  · simp only [rmNoPage]
    omega
  · rw [Function.update_self]
    exact hv.next
  · rw [List.mem_singleton]
    -- this page or an older one
    by_cases hn : n = h.numPages
    · subst hn
      rw [Function.update_self, hv.num]
      have hslots := hi.fits.slots
      refine ⟨fun _ => ⟨h1, ?_, ?_⟩, fun _ => rfl⟩
      · show h.numPages < h.numPages + 1
        omega
      · show (0 : Int) < h.numRecordsPerPage
        omega
    · rw [Function.update_of_ne hn]
      have hmem := hi.mem n
      rw [hnil] at hmem
      refine ⟨fun heq => absurd heq hn, fun ⟨hn1, hn2, hn3⟩ => ?_⟩
      have hlt : n < h.numPages + 1 := hn2
      exact absurd (hmem.mpr ⟨hn1, by omega, hn3⟩) List.not_mem_nil
  · unfold contents
    by_cases hn : rid.pageNo = h.numPages
    · rw [hn, Function.update_self, if_neg, if_neg]
      · rintro ⟨-, hlt, -⟩
        omega
      · rintro ⟨-, -, hs0, hs1, hbit⟩
        have hs1' : rid.slotNo < h.numRecordsPerPage := hs1
        rw [hv.bit _ (by omega)] at hbit
        cases hbit
    · rw [Function.update_of_ne hn]
      refine if_congr (and_congr_right fun _ => and_congr_left fun _ => ?_) rfl rfl
      show rid.pageNo < h.numPages + 1 ↔ rid.pageNo < h.numPages
      omega

/-- What a change of one page does to the map. -/
theorem contents_update {x y : PageData} {n : Int} {s : Nat} {next num : Int} {b : Bool}
    {buf : List UInt8} (hn1 : 1 ≤ n) (hn2 : n < h.numPages) (hs : s < h.numRecordsPerPage)
    (hx : V n = x)
    (hy : PageData.View h y next num (Function.update (Bitmap.isSet x) s b)
      (Function.update (PageData.getSlot h x) s buf)) :
    contents h (Function.update V n y) =
      Function.update (contents h V) ⟨n, s⟩ (if b = true then some buf else none) := by
  funext rid
  unfold contents
  by_cases hn : rid.pageNo = n
  · rw [hn, Function.update_self]
    by_cases hrid : rid = ⟨n, s⟩
    · subst hrid
      rw [Function.update_self]
      simp only [Int.toNat_natCast]
      rw [hy.bit s hs, hy.record s hs, Function.update_self, Function.update_self]
      refine if_congr ?_ rfl rfl
      refine ⟨fun hc => hc.2.2.2.2, fun hb => ⟨hn1, hn2, by omega, by omega, hb⟩⟩
    · rw [Function.update_of_ne hrid]
      by_cases hslot : 0 ≤ rid.slotNo ∧ rid.slotNo < h.numRecordsPerPage
      · have hne : rid.slotNo.toNat ≠ s := by
          intro heq
          apply hrid
          obtain ⟨p, t⟩ := rid
          simp only at hn heq hslot
          rw [hn, ← heq, Int.toNat_of_nonneg hslot.1]
        have hlt : rid.slotNo.toNat < h.numRecordsPerPage := by omega
        rw [hy.bit _ hlt, hy.record _ hlt, Function.update_of_ne hne, Function.update_of_ne hne, hn,
          hx]
      · rw [if_neg (fun hc => hslot ⟨hc.2.2.1, hc.2.2.2.1⟩),
          if_neg (fun hc => hslot ⟨hc.2.2.1, hc.2.2.2.1⟩)]
  · have hrid : rid ≠ ⟨n, s⟩ := by
      rintro rfl
      exact hn rfl
    rw [Function.update_of_ne hn, Function.update_of_ne hrid]

/-- Where the next record goes. -/
def freeSlot (h : RmFileHdr) (x : PageData) : Nat := Bitmap.nextBit false x h.numRecordsPerPage (-1)

/-- **Inserting into the first free page.** -/
theorem FileInv.insert {n : Int} {l : List Int} (hi : FileInv h V (n :: l)) {buf : List UInt8}
    (hbuf : buf.length = h.recordSize) (lsn : Lsn) :
    let s := freeSlot h (V n)
    let y := (PageData.insertInto h (V n) s buf).setPageLsn lsn
    let full := y.numRecords = h.numRecordsPerPage
    s < h.numRecordsPerPage ∧ y.nextFreePageNo = (V n).nextFreePageNo ∧
    (full → FileInv { h with firstFreePageNo := (V n).nextFreePageNo } (Function.update V n y) l) ∧
    (¬ full → FileInv h (Function.update V n y) (n :: l)) ∧
    contents h (Function.update V n y) = Function.update (contents h V) ⟨n, s⟩ (some buf) := by
  intro s y full
  obtain ⟨hn1, hn2, hnum⟩ := (hi.mem n).mp List.mem_cons_self
  obtain ⟨hfirst, hne, hchain⟩ := hi.isChain
  have hcount := hi.count n hn1 hn2
  have hlt : Bitmap.count (V n) h.numRecordsPerPage < h.numRecordsPerPage := by omega
  obtain ⟨hs, hfree⟩ := Bitmap.nextBit_false (V n) hlt
  have hslots := hi.fits.slots_lt
  have hv : PageData.View h y (V n).nextFreePageNo ((V n).numRecords + 1)
      (Function.update (Bitmap.isSet (V n)) s true)
      (Function.update (PageData.getSlot h (V n)) s buf) :=
    PageData.View.setPageLsn hi.fits (PageData.insertInto_spec hi.fits
      (PageData.view_self h (V n)) hs hbuf ⟨by omega, by omega⟩) lsn
  have hcount' := count_insert hcount hv hs hfree
  have hnl : n ∉ l := (List.nodup_cons.mp hi.nodup).1
  have hVl : ∀ k ∈ l, Function.update V n y k = V k := by
    intro k hk
    refine Function.update_of_ne ?_ _ _
    rintro rfl
    exact hnl hk
  have hcounts : ∀ k, 1 ≤ k → k < h.numPages → (Function.update V n y k).numRecords =
      Bitmap.count (Function.update V n y k) h.numRecordsPerPage := by
    intro k hk1 hk2
    by_cases hk : k = n
    · rw [hk, Function.update_self]
      exact hcount'
    · rw [Function.update_of_ne hk]
      exact hi.count k hk1 hk2
  have hchain' : FreeChain (Function.update V n y) (V n).nextFreePageNo l :=
    hchain.congr fun k hk => by rw [hVl k hk]
  -- the pages other than `n` stay in the chain or out of it
  have hmem : ∀ k, k ≠ n → (k ∈ l ↔ 1 ≤ k ∧ k < h.numPages ∧
      (Function.update V n y k).numRecords < h.numRecordsPerPage) := by
    intro k hk
    rw [Function.update_of_ne hk, ← hi.mem k, List.mem_cons]
    exact ⟨Or.inr, fun hor => hor.resolve_left hk⟩
  have hy : y.numRecords = (V n).numRecords + 1 := hv.num
  refine ⟨hs, hv.next, fun hfull => ?_, fun hfull => ?_, ?_⟩
  · refine ⟨⟨hi.fits.slots, hi.fits.bits, hi.fits.page⟩, hi.one_le, hcounts, hchain',
      (List.nodup_cons.mp hi.nodup).2, fun k => ?_⟩
    by_cases hk : k = n
    · subst hk
      rw [Function.update_self]
      refine ⟨fun hkl => absurd hkl hnl, fun ⟨_, _, hlt'⟩ => ?_⟩
      have hlt'' : y.numRecords < h.numRecordsPerPage := hlt'
      rw [hfull] at hlt''
      omega
    · exact hmem k hk
  · refine ⟨hi.fits, hi.one_le, hcounts, ⟨hfirst, hne, ?_⟩, hi.nodup, fun k => ?_⟩
    · rw [Function.update_self, hv.next]
      exact hchain'
    · by_cases hk : k = n
      · subst hk
        rw [Function.update_self]
        refine ⟨fun _ => ⟨hn1, hn2, ?_⟩, fun _ => List.mem_cons_self⟩
        have hfull' : ¬ y.numRecords = h.numRecordsPerPage := hfull
        omega
      · rw [← hmem k hk, List.mem_cons]
        exact ⟨fun hor => hor.resolve_left hk, Or.inr⟩
  · exact contents_update hn1 hn2 hs rfl hv

/-- The records of the file are in its pages. -/
theorem contents_eq_some {rid : Rid} {buf : List UInt8} (hc : contents h V rid = some buf) :
    1 ≤ rid.pageNo ∧ rid.pageNo < h.numPages ∧ rid.slotNo = (rid.slotNo.toNat : Int) ∧
      rid.slotNo.toNat < h.numRecordsPerPage ∧
      Bitmap.isSet (V rid.pageNo) rid.slotNo.toNat = true ∧
      PageData.getSlot h (V rid.pageNo) rid.slotNo.toNat = buf := by
  unfold contents at hc
  split at hc
  · rename_i hcond
    obtain ⟨h1, h2, h3, h4, h5⟩ := hcond
    exact ⟨h1, h2, (Int.toNat_of_nonneg h3).symm, by omega, h5, Option.some.inj hc⟩
  · cases hc

/-- **Updating a record.** -/
theorem FileInv.update (hi : FileInv h V chain) {rid : Rid} {old buf : List UInt8}
    (hc : contents h V rid = some old) (hbuf : buf.length = h.recordSize) (lsn : Lsn) :
    let y := (PageData.setSlot h (V rid.pageNo) rid.slotNo.toNat buf).setPageLsn lsn
    FileInv h (Function.update V rid.pageNo y) chain ∧
    contents h (Function.update V rid.pageNo y) =
      Function.update (contents h V) rid (some buf) := by
  intro y
  obtain ⟨hn1, hn2, hs0, hs, hbit, -⟩ := contents_eq_some hc
  have hv := PageData.View.setPageLsn hi.fits (PageData.View.setSlot hi.fits
    (PageData.view_self h (V rid.pageNo)) hs hbuf) lsn
  have hVn : ∀ k, (Function.update V rid.pageNo y k).nextFreePageNo = (V k).nextFreePageNo ∧
      (Function.update V rid.pageNo y k).numRecords = (V k).numRecords := by
    intro k
    by_cases hk : k = rid.pageNo
    · subst hk
      rw [Function.update_self]
      exact ⟨hv.next, hv.num⟩
    · rw [Function.update_of_ne hk]
      exact ⟨rfl, rfl⟩
  refine ⟨⟨hi.fits, hi.one_le, fun k hk1 hk2 => ?_, hi.isChain.congr fun k _ => (hVn k).1, hi.nodup,
    fun k => by rw [(hVn k).2, hi.mem k]⟩, ?_⟩
  · rw [(hVn k).2, hi.count k hk1 hk2]
    by_cases hk : k = rid.pageNo
    · subst hk
      rw [Function.update_self, Bitmap.count_congr hv.bit]
    · rw [Function.update_of_ne hk]
  · -- the bit was set before
    have hv' : PageData.View h y (V rid.pageNo).nextFreePageNo (V rid.pageNo).numRecords
        (Function.update (Bitmap.isSet (V rid.pageNo)) rid.slotNo.toNat true)
        (Function.update (PageData.getSlot h (V rid.pageNo)) rid.slotNo.toNat buf) := by
      rw [← hbit, Function.update_eq_self]
      exact hv
    have hupd := contents_update hn1 hn2 hs rfl hv'
    rw [← hs0] at hupd
    exact hupd

/-- The page `delete_record` works on: a full one is first put at the head of the chain. -/
def linked (h : RmFileHdr) (x : PageData) : PageData :=
  if x.numRecords = h.numRecordsPerPage then x.setNextFreePageNo h.firstFreePageNo else x

/-- **Deleting a record.** -/
theorem FileInv.delete (hi : FileInv h V chain) {rid : Rid} {old : List UInt8}
    (hc : contents h V rid = some old) (hfree : Int32Range h.firstFreePageNo) (lsn : Lsn) :
    let x := V rid.pageNo
    let y := (PageData.deleteFrom (linked h x) rid.slotNo.toNat).setPageLsn lsn
    let full := x.numRecords = h.numRecordsPerPage
    (full → FileInv { h with firstFreePageNo := rid.pageNo } (Function.update V rid.pageNo y)
      (rid.pageNo :: chain)) ∧
    (¬ full → FileInv h (Function.update V rid.pageNo y) chain) ∧
    contents h (Function.update V rid.pageNo y) = Function.update (contents h V) rid none := by
  intro x y full
  obtain ⟨hn1, hn2, hs0, hs, hbit, hrec⟩ := contents_eq_some hc
  have hb : 0 ≤ x.numRecords ∧ x.numRecords ≤ h.numRecordsPerPage :=
    hi.numRecords_bounds hn1 hn2
  have hslots := hi.fits.slots_lt
  -- the page as the free list leaves it
  have hlink : PageData.View h (linked h x)
      (if full then h.firstFreePageNo else x.nextFreePageNo) x.numRecords (Bitmap.isSet x)
      (PageData.getSlot h x) := by
    unfold linked
    by_cases hfull : x.numRecords = h.numRecordsPerPage
    · rw [if_pos hfull, if_pos hfull]
      exact PageData.View.setNextFreePageNo hi.fits (PageData.view_self h x) hfree
    · rw [if_neg hfull, if_neg hfull]
      exact PageData.view_self h x
  have hv : PageData.View h y (if full then h.firstFreePageNo else x.nextFreePageNo)
      (x.numRecords - 1) (Function.update (Bitmap.isSet x) rid.slotNo.toNat false)
      (PageData.getSlot h x) :=
    PageData.View.setPageLsn hi.fits (PageData.deleteFrom_spec hi.fits hlink hs
      ⟨by omega, by omega⟩) lsn
  -- the bit that is cleared was set
  have hcount : y.numRecords = Bitmap.count y h.numRecordsPerPage := by
    have hflip := Bitmap.count_flip (x := y) (y := x) hs
      (by rw [hv.bit _ hs, Function.update_self]) hbit
      (fun j hj hjs => by rw [hv.bit j hj, Function.update_of_ne hjs])
    rw [hv.num, hi.count _ hn1 hn2, hflip]
    omega
  -- the other pages keep their counts
  have hcounts : ∀ k, 1 ≤ k → k < h.numPages → (Function.update V rid.pageNo y k).numRecords =
      Bitmap.count (Function.update V rid.pageNo y k) h.numRecordsPerPage := by
    intro k hk1 hk2
    by_cases hk : k = rid.pageNo
    · rw [hk, Function.update_self]
      exact hcount
    · rw [Function.update_of_ne hk]
      exact hi.count k hk1 hk2
  have hmem : ∀ k, k ≠ rid.pageNo → (k ∈ chain ↔ 1 ≤ k ∧ k < h.numPages ∧
      (Function.update V rid.pageNo y k).numRecords < h.numRecordsPerPage) := by
    intro k hk
    rw [Function.update_of_ne hk]
    exact hi.mem k
  have hself : (Function.update V rid.pageNo y rid.pageNo).numRecords < h.numRecordsPerPage := by
    rw [Function.update_self, hv.num]
    omega
  -- a page that was full joins the list; any other is in it already
  refine ⟨fun hfull => ?_, fun hfull => ?_, ?_⟩
  · have hnot : rid.pageNo ∉ chain := by
      intro hin
      obtain ⟨-, -, hlt⟩ := (hi.mem _).mp hin
      have heq : (V rid.pageNo).numRecords = h.numRecordsPerPage := hfull
      omega
    refine ⟨⟨hi.fits.slots, hi.fits.bits, hi.fits.page⟩, hi.one_le, hcounts, ⟨rfl, ?_, ?_⟩,
      List.nodup_cons.mpr ⟨hnot, hi.nodup⟩, fun k => ?_⟩
    · simp only [rmNoPage]
      omega
    · rw [Function.update_self, hv.next, if_pos hfull]
      refine hi.isChain.congr fun k hk => ?_
      rw [Function.update_of_ne]
      rintro rfl
      exact hnot hk
    · by_cases hk : k = rid.pageNo
      · subst hk
        exact ⟨fun _ => ⟨hn1, hn2, hself⟩, fun _ => List.mem_cons_self⟩
      · rw [List.mem_cons]
        exact ⟨fun hor => (hmem k hk).mp (hor.resolve_left hk), fun hc => Or.inr ((hmem k hk).mpr hc)⟩
  · refine ⟨hi.fits, hi.one_le, hcounts, hi.isChain.congr fun k _ => ?_, hi.nodup, fun k => ?_⟩
    · by_cases hk : k = rid.pageNo
      · rw [hk, Function.update_self, hv.next, if_neg hfull]
      · rw [Function.update_of_ne hk]
    · by_cases hk : k = rid.pageNo
      · subst hk
        refine ⟨fun _ => ⟨hn1, hn2, hself⟩, fun _ => (hi.mem _).mpr ⟨hn1, hn2, ?_⟩⟩
        have hne : ¬ x.numRecords = h.numRecordsPerPage := hfull
        show x.numRecords < h.numRecordsPerPage
        omega
      · exact hmem k hk
  · have hv' : PageData.View h y (if full then h.firstFreePageNo else x.nextFreePageNo)
        (x.numRecords - 1) (Function.update (Bitmap.isSet x) rid.slotNo.toNat false)
        (Function.update (PageData.getSlot h x) rid.slotNo.toNat old) := by
      rw [← hrec, Function.update_eq_self]
      exact hv
    have hupd := contents_update hn1 hn2 hs rfl hv'
    rw [← hs0] at hupd
    exact hupd

/-! ### The map -/

/-- The pages as a record map. -/
def recordMap (h : RmFileHdr) (V : Int → PageData) (chain : List Int) : RecordMap :=
  ⟨h.numRecordsPerPage, h.numPages, chain, contents h V⟩

theorem contents_isSome {n : Int} (h1 : 1 ≤ n) (h2 : n < h.numPages) {s : Nat}
    (hs : s < h.numRecordsPerPage) :
    (contents h V ⟨n, s⟩).isSome = Bitmap.isSet (V n) s := by
  unfold contents
  dsimp only
  rw [Int.toNat_natCast]
  by_cases hbit : Bitmap.isSet (V n) s = true
  · rw [if_pos ⟨h1, h2, by omega, by omega, hbit⟩, hbit]
    rfl
  · rw [if_neg fun hc => hbit hc.2.2.2.2]
    simpa using hbit

/-- A page is full when its counter says so. -/
theorem FileInv.isFull_iff (hi : FileInv h V chain) {n : Int} (h1 : 1 ≤ n) (h2 : n < h.numPages)
    (c : List Int) : (recordMap h V c).isFull n = true ↔ (V n).numRecords = h.numRecordsPerPage := by
  rw [hi.count n h1 h2, RecordMap.isFull, List.all_eq_true, Int.natCast_inj]
  have hcount : Bitmap.count (V n) h.numRecordsPerPage = h.numRecordsPerPage ↔
      ∀ s ∈ List.range h.numRecordsPerPage, Bitmap.isSet (V n) s = true := by
    rw [← List.countP_eq_length, List.length_range]
    rfl
  rw [hcount]
  refine forall_congr' fun s => imp_congr_right fun hs => ?_
  rw [show (recordMap h V c).records = contents h V from rfl,
    contents_isSome h1 h2 (List.mem_range.mp hs)]

/-- The bitmap search finds the lowest slot without a record. -/
theorem freeSlot_eq {n : Int} (h1 : 1 ≤ n) (h2 : n < h.numPages) (c : List Int) :
    (recordMap h V c).freeSlot n = freeSlot h (V n) := by
  unfold RecordMap.freeSlot freeSlot Bitmap.nextBit
  show ((List.range h.numRecordsPerPage).find? _).getD h.numRecordsPerPage = _
  congr 1
  refine List.find?_congr fun s hs => ?_
  have hlt : (-1 : Int) < s := by omega
  rw [show (recordMap h V c).records = contents h V from rfl, ← Option.not_isSome,
    contents_isSome h1 h2 (List.mem_range.mp hs)]
  simp [hlt]

/-- The invariant of the pages gives that of the map. -/
theorem FileInv.recordMap_inv (hi : FileInv h V chain) : (recordMap h V chain).Inv := by
  refine ⟨hi.fits.slots, hi.one_le, hi.nodup, fun n => ?_, fun rid hrid => ?_⟩
  · rw [show (recordMap h V chain).chain = chain from rfl, hi.mem n]
    refine and_congr_right fun h1 => and_congr_right fun h2 => ?_
    have hb := hi.numRecords_bounds h1 h2
    rw [← Bool.not_eq_true, hi.isFull_iff h1 h2]
    omega
  · obtain ⟨buf, hbuf⟩ := Option.ne_none_iff_exists'.mp hrid
    obtain ⟨h1, h2, h3, h4, -⟩ := contents_eq_some hbuf
    exact ⟨h1, h2, by omega, by show rid.slotNo < h.numRecordsPerPage; omega⟩

/-- What an insert into the map does to the records. -/
theorem FileInv.of_insert (hi : FileInv h V chain) {h' : RmFileHdr} {V' : Int → PageData}
    {chain' : List Int} {rid : Rid} {buf : List UInt8}
    (heq : (rid, recordMap h' V' chain') = (recordMap h V chain).insert buf) :
    contents h V rid = none ∧
      contents h' V' = Function.update (contents h V) rid (some buf) := by
  have hrid : rid = (recordMap h V chain).nextRid :=
    (congrArg Prod.fst heq).trans (RecordMap.insert_fst _ buf)
  have hrec : contents h' V' = ((recordMap h V chain).insert buf).2.records :=
    congrArg (fun p => p.2.records) heq
  rw [hrec, RecordMap.insert_records, hrid]
  exact ⟨hi.recordMap_inv.nextRid_none, rfl⟩

end

end Rmdb
