import Rmdb.Lib.Transition
import Rmdb.Record.PageFile

namespace Rmdb

open Lib DiskManager RmProgram

/-!
# Inserting a record at a given place (`RmFileHandle::insert_record(rid, buf)`)

The insert sets the bit and the counter of its page like the other one, but never takes a page it has
filled out of the chain of free pages.

* `FileInv.place` — when it keeps the invariant of the pages;
* `rmPages` — a record file and its operations in any order;
* `insertRecordAt_iff` — in every file whose inserts have kept the chain, exactly the inserts of this kind
  that do not fill a page keep it, too.
-/

section Pages

variable {h : RmFileHdr} {V V' : Int → PageData} {chain : List Int}

/-- There is one chain from a page. -/
theorem FreeChain.unique {p : Int} {l l' : List Int} (hl : FreeChain V p l) (hl' : FreeChain V p l') :
    l = l' := by
  induction l generalizing p l' with
  | nil =>
    rw [show p = rmNoPage from hl] at hl'
    exact hl'.eq_nil.symm
  | cons n l ih =>
    obtain ⟨rfl, hne, hrest⟩ := hl
    obtain ⟨l'', rfl, hrest'⟩ := hl'.eq_cons hne
    rw [ih hrest hrest']

/-- What the insert does to the page. -/
theorem PageData.placeInto_view (hf : h.Fits) (x : PageData) {s : Nat} (hs : s < h.numRecordsPerPage)
    {buf : List UInt8} (hbuf : buf.length = h.recordSize) (hr : Int32Range (x.numRecords + 1)) :
    PageData.View h (placeInto h x s buf) x.nextFreePageNo
      (if Bitmap.isSet x s = true then x.numRecords else x.numRecords + 1)
      (Function.update (Bitmap.isSet x) s true) (Function.update (PageData.getSlot h x) s buf) := by
  have hv := PageData.view_self h x
  unfold placeInto
  cases hbit : Bitmap.isSet x s with
  | true =>
    rw [if_pos rfl, if_pos rfl, ← hbit, Function.update_eq_self]
    exact hv.setSlot hf hs hbuf
  | false =>
    rw [if_neg Bool.false_ne_true, if_neg Bool.false_ne_true]
    have hb := PageData.bit_bounds hf hs
    have hset : PageData.View h (Bitmap.set x s) x.nextFreePageNo x.numRecords
        (Function.update (Bitmap.isSet x) s true) (PageData.getSlot h x) := by
      refine hv.patch_bitmap hf _ (Nat.le_add_right _ _) (by omega) fun t _ => ?_
      refine (Bitmap.isSet_set _ hb.2 t).trans ?_
      rw [Function.update_apply]
      by_cases hts : t = s
      · simp [hts]
      · simp [hts]
    rw [hset.num]
    exact (hset.setNumRecords hf hr).setSlot hf hs hbuf

/-- **Inserting at a given place.**  The record is there and no other has changed; the invariant is kept
    just if the place has had a record, or the page is not filled. -/
theorem FileInv.place (hi : FileInv h V chain) {n : Int} (h1 : 1 ≤ n) (h2 : n < h.numPages) {s : Nat}
    (hs : s < h.numRecordsPerPage) {buf : List UInt8} (hbuf : buf.length = h.recordSize) :
    contents h (Function.update V n (placeInto h (V n) s buf)) =
      Function.update (contents h V) ⟨n, s⟩ (some buf) ∧
    ((∃ chain', FileInv h (Function.update V n (placeInto h (V n) s buf)) chain') ↔
      Bitmap.isSet (V n) s = true ∨ (V n).numRecords + 1 < h.numRecordsPerPage) := by
  have hb := hi.numRecords_bounds h1 h2
  have hslots := hi.fits.slots_lt
  have hv := PageData.placeInto_view hi.fits (V n) hs hbuf ⟨by omega, by omega⟩
  generalize placeInto h (V n) s buf = y at hv
  refine ⟨contents_update h1 h2 hs rfl hv, ?_⟩
  have hnext : ∀ k, (Function.update V n y k).nextFreePageNo = (V k).nextFreePageNo := fun k => by
    by_cases hk : k = n
    · rw [hk, Function.update_self, hv.next]
    · rw [Function.update_of_ne hk]
  -- a page with a clear bit is in the chain
  have hfree : Bitmap.isSet (V n) s = false → (V n).numRecords < h.numRecordsPerPage := fun hclear => by
    have hlt : Bitmap.count (V n) h.numRecordsPerPage < h.numRecordsPerPage := by
      refine Nat.lt_of_le_of_ne (Bitmap.count_le _ _) fun heq => ?_
      have hall := (List.countP_eq_length (p := Bitmap.isSet (V n))).mp
        (heq.trans List.length_range.symm) s (List.mem_range.mpr hs)
      rw [hclear] at hall
      cases hall
    rw [hi.count n h1 h2]
    omega
  constructor
  · rintro ⟨chain', hi'⟩
    by_contra hno
    rw [not_or, Bool.not_eq_true] at hno
    obtain ⟨hclear, hfull⟩ := hno
    obtain rfl : chain = chain' := hi.isChain.unique
      (hi'.isChain.congr fun k _ => (hnext k).symm)
    have hlt := ((hi'.mem n).mp ((hi.mem n).mpr ⟨h1, h2, hfree hclear⟩)).2.2
    rw [Function.update_self, hv.num, if_neg (by simp [hclear])] at hlt
    exact hfull hlt
  · intro hcond
    have hnum : y.numRecords = Bitmap.count y h.numRecordsPerPage ∧
        (y.numRecords < h.numRecordsPerPage ↔ (V n).numRecords < h.numRecordsPerPage) := by
      cases hbit : Bitmap.isSet (V n) s with
      | true =>
        have hy : y.numRecords = (V n).numRecords := by
          rw [hv.num, if_pos hbit]
        refine ⟨?_, by rw [hy]⟩
        rw [hy, hi.count n h1 h2]
        refine congrArg Int.ofNat (Bitmap.count_congr fun j hj => ?_).symm
        rw [hv.bit j hj, ← hbit, Function.update_eq_self]
      | false =>
        have hv' := hv
        rw [if_neg (by simp [hbit])] at hv'
        have := hfree hbit
        refine ⟨count_insert (hi.count n h1 h2) hv' hs hbit, ?_⟩
        rw [hv'.num]
        rw [hbit] at hcond
        simp only [Bool.false_eq_true, false_or] at hcond
        omega
    refine ⟨chain, hi.fits, hi.one_le, fun k hk1 hk2 => ?_, hi.isChain.congr fun k _ => hnext k, hi.nodup,
      fun k => ?_⟩
    · by_cases hk : k = n
      · rw [hk, Function.update_self]
        exact hnum.1
      · rw [Function.update_of_ne hk]
        exact hi.count k hk1 hk2
    · rw [hi.mem k]
      by_cases hk : k = n
      · rw [hk, Function.update_self, hnum.2]
      · rw [Function.update_of_ne hk]

/-- The page at the head of the chain has a free slot. -/
theorem FileInv.freeSlot_free {n : Int} {l : List Int} (hi : FileInv h V (n :: l)) :
    freeSlot h (V n) < h.numRecordsPerPage ∧ contents h V ⟨n, freeSlot h (V n)⟩ = none := by
  obtain ⟨h1, h2, hnum⟩ := (hi.mem n).mp List.mem_cons_self
  rw [hi.count n h1 h2] at hnum
  obtain ⟨hlt, hclear⟩ := Bitmap.nextBit_false (V n) (n := h.numRecordsPerPage) (by omega)
  refine ⟨hlt, ?_⟩
  unfold contents
  rw [if_neg]
  rintro ⟨-, -, -, -, hset⟩
  simp only [Int.toNat_natCast] at hset
  rw [show Bitmap.isSet (V n) (freeSlot h (V n)) = false from hclear] at hset
  cases hset

end Pages

/-! ### Files -/

/-- The calls of a client: buffers of the record size, on records the file has, and at places it has. -/
def RmCall.Valid (s : RmPages) : RmCall → Prop
  | insertRecord buf _ => buf.length = s.hdr.recordSize
  | insertRecordAt rid buf => 1 ≤ rid.pageNo ∧ rid.pageNo < s.hdr.numPages ∧ 0 ≤ rid.slotNo ∧
      rid.slotNo < s.hdr.numRecordsPerPage ∧ buf.length = s.hdr.recordSize
  | updateRecord rid buf _ => (contents s.hdr s.page rid).isSome = true ∧ buf.length = s.hdr.recordSize
  | deleteRecord rid _ => (contents s.hdr s.page rid).isSome = true
  | _ => True

/-- The insert at a given place does not fill a page. -/
def RmCall.LeavesRoom (s : RmPages) : RmCall → Prop
  | insertRecordAt rid _ => Bitmap.isSet (s.page rid.pageNo) rid.slotNo.toNat = true ∨
      (s.page rid.pageNo).numRecords + 1 < s.hdr.numRecordsPerPage
  | _ => True

/-- **A file of records of `r` bytes** and its operations, in any order. -/
def rmPages (r : Nat) : TransitionSystem RmPages RmCall where
  init s := 1 ≤ r ∧ r ≤ 512 ∧ s.hdr = RmFileHdr.create r ∧ s.nextPage = 1
  step s c s' := c.Valid s ∧ onPages c.program s = (.ok (), s')

namespace RmPages

/-- The counters count the bitmaps, and the chain lists exactly the pages that are not full; so the next
    insert finds a free slot inside its page. -/
def Sound (s : RmPages) : Prop :=
  (∃ chain, FileInv s.hdr s.page chain) ∧
  ∀ buf lsn rid s', buf.length = s.hdr.recordSize → onPages (insertRecord buf lsn) s = (.ok rid, s') →
    0 ≤ rid.slotNo ∧ rid.slotNo < s.hdr.numRecordsPerPage ∧ contents s.hdr s.page rid = none

/-- **What the operations keep.** -/
structure Good (s : RmPages) (chain : List Int) : Prop where
  inv : FileInv s.hdr s.page chain
  next : s.nextPage = s.hdr.numPages
  le : s.hdr.numPages ≤ maxPages

variable {s s' : RmPages} {chain : List Int} {rid : Rid} {buf : List UInt8}

theorem Good.lt_nextPage (h : s.Good chain) {n : Int} (hn : n < s.hdr.numPages) : n < s.nextPage := by
  rw [h.next]
  exact hn

/-- The head of the chain is a page number, or none. -/
theorem Good.firstFree_range (h : s.Good chain) : Int32Range s.hdr.firstFreePageNo := by
  have hle := h.le
  simp only [maxPages] at hle
  by_cases hfirst : s.hdr.firstFreePageNo = rmNoPage
  · rw [hfirst]
    exact ⟨by decide, by decide⟩
  · obtain ⟨l, rfl, -⟩ := h.inv.isChain.eq_cons hfirst
    obtain ⟨h1, h2, -⟩ := (h.inv.mem _).mp List.mem_cons_self
    exact ⟨by omega, by omega⟩

/-- **A page with room**: the first of the chain, or a new one; or there is no number for a new one. -/
theorem Good.createPage (h : s.Good chain) :
    (∃ n l s', onPages createPageHandle s = (.ok ⟨0, n⟩, s') ∧ s'.Good (n :: l) ∧
      s'.hdr.recordSize = s.hdr.recordSize ∧ s'.hdr.numRecordsPerPage = s.hdr.numRecordsPerPage ∧
      contents s'.hdr s'.page = contents s.hdr s.page) ∨
    ∃ e s', onPages createPageHandle s = (.error e, s') := by
  by_cases hfirst : s.hdr.firstFreePageNo = rmNoPage
  · have hcreate : onPages createPageHandle s = onPages createNewPageHandle s := by
      show onPages (if s.hdr.firstFreePageNo = rmNoPage then _ else _) s = _
      rw [if_pos hfirst]
    by_cases hroom : s.nextPage < maxPages
    · refine Or.inl ⟨s.nextPage, [], _, hcreate.trans (onPages_createNewPageHandle hroom), ?_, rfl, rfl, ?_⟩
      · have hnew := (h.inv.newPage hfirst .zero).1
        have hnext := h.next
        refine ⟨by rw [hnext]; exact hnew, ?_, ?_⟩
        · show s.nextPage + 1 = s.hdr.numPages + 1
          rw [hnext]
        · show s.hdr.numPages + 1 ≤ maxPages
          omega
      · have hnew := (h.inv.newPage hfirst .zero).2
        rw [h.next]
        exact hnew
    · obtain ⟨s', herror⟩ := onPages_createNewPageHandle_error hroom
      exact Or.inr ⟨_, s', hcreate.trans herror⟩
  · obtain ⟨l, rfl, -⟩ := h.inv.isChain.eq_cons hfirst
    obtain ⟨h1, h2, -⟩ := (h.inv.mem _).mp List.mem_cons_self
    have hfetch : onPages (fetchPageHandle s.hdr.firstFreePageNo) s = (.ok ⟨0, s.hdr.firstFreePageNo⟩, s) :=
      onPages_fetchPageHandle (by omega) (h.lt_nextPage h2)
    refine Or.inl ⟨_, l, s, ?_, h, rfl, rfl, rfl⟩
    show onPages (if s.hdr.firstFreePageNo = rmNoPage then _ else _) s = _
    rw [if_neg hfirst]
    exact hfetch

/-- **`insert_record(buf, context)`** inserts into a free slot. -/
theorem Good.insert (h : s.Good chain) (hbuf : buf.length = s.hdr.recordSize) {lsn : Lsn}
    (hrun : onPages (insertRecord buf lsn) s = (.ok rid, s')) :
    (∃ chain', s'.Good chain') ∧ 0 ≤ rid.slotNo ∧ rid.slotNo < s.hdr.numRecordsPerPage ∧
      contents s.hdr s.page rid = none := by
  rcases h.createPage with ⟨n, l, s₁, hcreate, hgood, hsize, hslots, hcont⟩ | ⟨e, s₁, hcreate⟩
  · rw [onPages_insertRecord hcreate] at hrun
    obtain ⟨hrid, rfl⟩ := Prod.mk.inj hrun
    obtain rfl := Except.ok.inj hrid
    obtain ⟨hfree, hnone⟩ := hgood.inv.freeSlot_free
    obtain ⟨-, hnext, hfull, hpart, -⟩ := hgood.inv.insert (hbuf.trans hsize.symm) lsn
    have hview := PageData.View.setPageLsn hgood.inv.fits (PageData.view_self s₁.hdr
      (PageData.insertInto s₁.hdr (s₁.page n) (freeSlot s₁.hdr (s₁.page n)) buf)) lsn
    rw [hview.num] at hfull hpart
    rw [hview.next] at hnext
    refine ⟨?_, by dsimp only; omega, ?_, ?_⟩
    · dsimp only
      split
      · rename_i hc
        refine ⟨l, ?_, hgood.next, hgood.le⟩
        rw [hnext]
        exact hfull hc
      · rename_i hc
        exact ⟨n :: l, hpart hc, hgood.next, hgood.le⟩
    · rw [← hslots]
      dsimp only
      omega
    · rw [← hcont]
      exact hnone
  · unfold RmProgram.insertRecord at hrun
    rw [onPages_bind_error hcreate] at hrun
    cases hrun

theorem Good.sound (h : s.Good chain) : s.Sound :=
  ⟨⟨chain, h.inv⟩, fun _ _ _ _ hbuf hrun => (h.insert hbuf hrun).2⟩

/-- **`delete_record`** of a record. -/
theorem Good.delete (h : s.Good chain) (hc : (contents s.hdr s.page rid).isSome = true) {lsn : Lsn}
    (hrun : onPages (deleteRecord rid lsn) s = (.ok (), s')) : ∃ chain', s'.Good chain' := by
  obtain ⟨old, hc⟩ := Option.isSome_iff_exists.mp hc
  obtain ⟨h1, h2, -⟩ := contents_eq_some hc
  obtain ⟨hfull, hpart, -⟩ := h.inv.delete hc h.firstFree_range lsn
  rw [onPages_deleteRecord (by omega) (h.lt_nextPage h2)] at hrun
  obtain ⟨-, rfl⟩ := Prod.mk.inj hrun
  by_cases hcond : (s.page rid.pageNo).numRecords = s.hdr.numRecordsPerPage
  · refine ⟨rid.pageNo :: chain, ?_⟩
    simp only [if_pos hcond]
    exact ⟨hfull hcond, h.next, h.le⟩
  · refine ⟨chain, ?_⟩
    simp only [if_neg hcond]
    exact ⟨hpart hcond, h.next, h.le⟩

/-- **`update_record`** of a record. -/
theorem Good.update (h : s.Good chain) (hc : (contents s.hdr s.page rid).isSome = true)
    (hbuf : buf.length = s.hdr.recordSize) {lsn : Lsn}
    (hrun : onPages (updateRecord rid buf lsn) s = (.ok (), s')) : s'.Good chain := by
  obtain ⟨old, hc⟩ := Option.isSome_iff_exists.mp hc
  obtain ⟨h1, h2, -⟩ := contents_eq_some hc
  rw [onPages_updateRecord (by omega) (h.lt_nextPage h2)] at hrun
  obtain ⟨-, rfl⟩ := Prod.mk.inj hrun
  exact ⟨(h.inv.update hc hbuf lsn).1, h.next, h.le⟩

/-- **`insert_record(rid, buf)`.** -/
theorem Good.place (h : s.Good chain) (hv : (RmCall.insertRecordAt rid buf).Valid s) :
    ∃ s', onPages (insertRecordAt rid buf) s = (.ok (), s') ∧ s'.hdr = s.hdr ∧ s'.nextPage = s.nextPage ∧
      contents s'.hdr s'.page = Function.update (contents s.hdr s.page) rid (some buf) ∧
      ((∃ chain', FileInv s'.hdr s'.page chain') ↔ (RmCall.insertRecordAt rid buf).LeavesRoom s) := by
  obtain ⟨h1, h2, h3, h4, hbuf⟩ := hv
  obtain ⟨hcont, hiff⟩ := h.inv.place h1 h2 (s := rid.slotNo.toNat) (by omega) hbuf
  rw [Int.toNat_of_nonneg h3] at hcont
  exact ⟨_, onPages_insertRecordAt (by omega) (h.lt_nextPage h2) buf, rfl, rfl, hcont, hiff⟩

/-- A call that returns nothing. -/
theorem onPages_discard {α : Type} {x : RmProgram α} (hrun : onPages (do let _ ← x) s = (.ok (), s')) :
    ∃ a, onPages x s = (.ok a, s') := by
  rcases hx : onPages x s with ⟨e | a, s₁⟩
  · rw [onPages_bind_error hx] at hrun
    cases hrun
  · rw [onPages_bind_ok hx] at hrun
    obtain ⟨-, rfl⟩ := Prod.mk.inj hrun
    exact ⟨a, rfl⟩

/-- **One step** that leaves room. -/
theorem Good.step {r : Nat} {c : RmCall} (h : s.Good chain) (hstep : (rmPages r).step s c s')
    (hroom : c.LeavesRoom s) : ∃ chain', s'.Good chain' := by
  obtain ⟨hv, hrun⟩ := hstep
  have hreads : ∀ {α : Type} {x : RmProgram α}, ReadsOnly x → onPages (do let _ ← x) s = (.ok (), s') →
      ∃ chain', s'.Good chain' := by
    intro α x hx hrun
    obtain ⟨a, ha⟩ := onPages_discard hrun
    have hs : s' = s := by
      rw [← hx s, ha]
    rw [hs]
    exact ⟨chain, h⟩
  cases c with
  | isRecord rid => exact hreads (readsOnly_isRecord rid) hrun
  | getRecord rid => exact hreads (readsOnly_getRecord rid) hrun
  | getPageLsn n => exact hreads (readsOnly_getPageLsn n) hrun
  | scanNext rounds rid => exact hreads (readsOnly_scanNext rounds rid) hrun
  | insertRecord buf lsn =>
    obtain ⟨rid, hrun⟩ := onPages_discard hrun
    exact (h.insert hv hrun).1
  | insertRecordAt rid buf =>
    obtain ⟨s₁, hrun', hhdr, hnext, -, hiff⟩ := h.place hv
    obtain rfl : s₁ = s' := (Prod.mk.inj (hrun'.symm.trans hrun)).2
    obtain ⟨chain', hinv⟩ := hiff.mpr hroom
    exact ⟨chain', hinv, by rw [hnext, hhdr, h.next], by rw [hhdr]; exact h.le⟩
  | deleteRecord rid lsn => exact h.delete hv hrun
  | updateRecord rid buf lsn => exact ⟨chain, h.update hv.1 hv.2 hrun⟩

theorem good_of_reachable {r : Nat}
    (hs : ((rmPages r).restrict fun s c _ => c.LeavesRoom s).Reachable s) : ∃ chain, s.Good chain := by
  refine hs.invariant (I := fun s => ∃ chain, s.Good chain) (fun s hinit => ?_) fun s c s' h hstep => ?_
  · obtain ⟨h1, h2, hhdr, hnext⟩ := hinit
    have hpages : s.hdr.numPages = 1 := by rw [hhdr]; rfl
    have hfirst : s.hdr.firstFreePageNo = rmNoPage := by rw [hhdr]; rfl
    refine ⟨[], ⟨hhdr ▸ RmFileHdr.create_fits h1 (by simp only [rmMaxRecordSize]; omega), by omega, fun n hn1 hn2 => by omega, hfirst,
      List.nodup_nil, fun n => ?_⟩, by rw [hnext, hpages], by rw [hpages]; decide⟩
    constructor
    · intro hn
      exact absurd hn List.not_mem_nil
    · intro hn
      have hn1 := hn.1
      have hn2 := hn.2.1
      omega
  · obtain ⟨chain, h⟩ := h
    exact h.step hstep.1 hstep.2

end RmPages

/-- **When `insert_record(rid, buf)` keeps the file.**  In every file whose inserts of this kind have left
    room, an insert at a place of the file stores the record there and changes no other, and the counters,
    the chain and the next insert are right just if this insert leaves room, too. -/
theorem insertRecordAt_iff {r : Nat} {s : RmPages}
    (hs : ((rmPages r).restrict fun s c _ => c.LeavesRoom s).Reachable s) {rid : Rid} {buf : List UInt8}
    (hv : (RmCall.insertRecordAt rid buf).Valid s) :
    s.Sound ∧ ∃ s', onPages (insertRecordAt rid buf) s = (.ok (), s') ∧
      contents s'.hdr s'.page = Function.update (contents s.hdr s.page) rid (some buf) ∧
      (s'.Sound ↔ (RmCall.insertRecordAt rid buf).LeavesRoom s) := by
  obtain ⟨chain, h⟩ := RmPages.good_of_reachable hs
  obtain ⟨s', hrun, hhdr, hnext, hcont, hiff⟩ := h.place hv
  refine ⟨h.sound, s', hrun, hcont, fun hsound => hiff.mp hsound.1, fun hroom => ?_⟩
  obtain ⟨chain', hinv⟩ := hiff.mpr hroom
  have hgood : s'.Good chain' := ⟨hinv, by rw [hnext, hhdr, h.next], by rw [hhdr]; exact h.le⟩
  exact hgood.sound

/-! ### Runs -/

instance RmCall.decidableValid (s : RmPages) : (c : RmCall) → Decidable (c.Valid s)
  | .insertRecord _ _ => inferInstanceAs (Decidable (_ = _))
  | .insertRecordAt _ _ => inferInstanceAs (Decidable (_ ∧ _))
  | .updateRecord _ _ _ => inferInstanceAs (Decidable (_ ∧ _))
  | .deleteRecord _ _ => inferInstanceAs (Decidable (_ = true))
  | .isRecord _ | .getRecord _ | .getPageLsn _ | .scanNext _ _ => inferInstanceAs (Decidable True)

instance RmCall.decidableLeavesRoom (s : RmPages) : (c : RmCall) → Decidable (c.LeavesRoom s)
  | .insertRecordAt _ _ => inferInstanceAs (Decidable (_ ∨ _))
  | .insertRecord _ _ | .updateRecord _ _ _ | .deleteRecord _ _ => inferInstanceAs (Decidable True)
  | .isRecord _ | .getRecord _ | .getPageLsn _ | .scanNext _ _ => inferInstanceAs (Decidable True)

/-- The file after these calls. -/
def RmPages.after (s : RmPages) (cs : List RmCall) : RmPages :=
  cs.foldl (fun s c => (onPages c.program s).2) s

/-- Each of these calls is valid, leaves room and returns. -/
def RmPages.runs (s : RmPages) : List RmCall → Bool
  | [] => true
  | c :: cs => decide (c.Valid s) && decide (c.LeavesRoom s) && (onPages c.program s).1.toBool &&
      RmPages.runs (onPages c.program s).2 cs

theorem RmPages.reachable_after {r : Nat} {s : RmPages} (cs : List RmCall)
    (hs : ((rmPages r).restrict fun s c _ => c.LeavesRoom s).Reachable s) (hruns : s.runs cs = true) :
    ((rmPages r).restrict fun s c _ => c.LeavesRoom s).Reachable (s.after cs) := by
  induction cs generalizing s with
  | nil => exact hs
  | cons c cs ih =>
    unfold RmPages.runs at hruns
    simp only [Bool.and_eq_true, decide_eq_true_eq] at hruns
    obtain ⟨⟨⟨hv, hroom⟩, hok⟩, hrest⟩ := hruns
    refine ih (hs.step (a := c) ⟨⟨hv, ?_⟩, hroom⟩) hrest
    rcases hrun : onPages c.program s with ⟨e | u, s'⟩
    · rw [hrun] at hok
      cases hok
    · show _ = (Except.ok (), (onPages c.program s).2)
      rw [hrun]

/-- An empty file of records of 512 bytes, seven on a page. -/
def emptyPages : RmPages := ⟨3, RmFileHdr.create 512, fun _ => .zero, 1⟩

theorem emptyPages_reachable :
    ((rmPages 512).restrict fun s c _ => c.LeavesRoom s).Reachable emptyPages :=
  .init ⟨by decide, by decide, rfl, rfl⟩

/-- A record. -/
def someRecord : List UInt8 := List.replicate 512 7

/-- A record in the first slot of page 1, and five more at given places. -/
def placedCalls : List RmCall :=
  .insertRecord someRecord 0 :: [1, 2, 3, 4, 5].map fun i => .insertRecordAt ⟨1, i⟩ someRecord

/-- The second slot of a page of seven. -/
theorem insertRecordAt_iff_second_slot : ∃ s',
    onPages (insertRecordAt ⟨1, 1⟩ someRecord) (emptyPages.after [.insertRecord someRecord 0]) = (.ok (), s') ∧
      s'.Sound := by
  have hreach := RmPages.reachable_after [.insertRecord someRecord 0] emptyPages_reachable
    (by decide +kernel)
  have hv : (RmCall.insertRecordAt ⟨1, 1⟩ someRecord).Valid
      (emptyPages.after [.insertRecord someRecord 0]) := by
    decide +kernel
  obtain ⟨-, s', hrun, -, hiff⟩ := insertRecordAt_iff hreach hv
  exact ⟨s', hrun, hiff.mpr (by decide +kernel)⟩

/-- **The chain keeps a page that is full.**  The insert at the last slot of the page fills it, and the next
    insert takes slot 7 of 7, behind the end of the bitmap. -/
theorem insertRecordAt_fills_page : ∃ s s', (rmPages 512).Reachable s ∧
    (RmCall.insertRecordAt ⟨1, 6⟩ someRecord).Valid s ∧
    onPages (insertRecordAt ⟨1, 6⟩ someRecord) s = (.ok (), s') ∧ ¬ s'.Sound ∧
    s'.hdr.numRecordsPerPage = 7 ∧ (onPages (insertRecord someRecord 0) s').1.toOption = some ⟨1, 7⟩ := by
  have hreach := RmPages.reachable_after placedCalls emptyPages_reachable (by decide +kernel)
  obtain ⟨chain, hgood⟩ := RmPages.good_of_reachable hreach
  have hv : (RmCall.insertRecordAt ⟨1, 6⟩ someRecord).Valid (emptyPages.after placedCalls) := by
    decide +kernel
  obtain ⟨s', hrun, -, -, -, hiff⟩ := hgood.place hv
  have hnext : (onPages (insertRecord someRecord 0) (emptyPages.after
      (placedCalls ++ [.insertRecordAt ⟨1, 6⟩ someRecord]))).1.toOption = some ⟨1, 7⟩ := by
    decide +kernel
  have hs' : s' = emptyPages.after (placedCalls ++ [.insertRecordAt ⟨1, 6⟩ someRecord]) := by
    unfold RmPages.after
    rw [List.foldl_append]
    exact (congrArg Prod.snd hrun).symm
  refine ⟨_, s', hreach.of_restrict, hv, hrun, fun hsound => ?_, ?_, ?_⟩
  · have hroom := hiff.mp hsound.1
    revert hroom
    decide +kernel
  · rw [hs']
    decide +kernel
  · rw [hs']
    exact hnext

end Rmdb
