import Mathlib.Data.List.Nodup
import Mathlib.Logic.Function.Basic
import Mathlib.Tactic.Push
import Rmdb.Defs

namespace Rmdb

/-!
# The record file as a map

What `RmFileHandle` is for: a map from record ids to records, with the chain of free pages that
decides where the next record goes.

* `RecordMap.insert`, `RecordMap.delete`, `RecordMap.update` — the operations;
* `RecordMap.Inv` — the chain lists the pages that are not full, and they keep it so;
* `RecordMap.nextRid` — where the next insert goes.
-/

/-- A record file, seen as a map. -/
structure RecordMap where
  perPage : Nat
  numPages : Int
  chain : List Int
  records : Rid → Option (List UInt8)

namespace RecordMap

/-- The lowest slot of the page without a record. -/
def freeSlot (m : RecordMap) (n : Int) : Nat :=
  ((List.range m.perPage).find? fun s : Nat => (m.records ⟨n, s⟩).isNone).getD m.perPage

/-- Every slot of the page has a record. -/
def isFull (m : RecordMap) (n : Int) : Bool :=
  (List.range m.perPage).all fun s : Nat => (m.records ⟨n, s⟩).isSome

/-- Make sure that the chain is not empty: a new page if need be. -/
def withRoom (m : RecordMap) : RecordMap :=
  match m.chain with
  | [] => { m with numPages := m.numPages + 1, chain := [m.numPages] }
  | _ :: _ => m

/-- Insert into page `n`, the first of the chain; the page leaves the chain when this fills it. -/
def insertAt (m : RecordMap) (n : Int) (l : List Int) (buf : List UInt8) : Rid × RecordMap :=
  let rid : Rid := ⟨n, m.freeSlot n⟩
  let m := { m with records := Function.update m.records rid (some buf) }
  (rid, { m with chain := if m.isFull n then l else n :: l })

/-- `insert_record`. -/
def insert (m : RecordMap) (buf : List UInt8) : Rid × RecordMap :=
  match m.chain with
  | [] => m.withRoom.insertAt m.numPages [] buf
  | n :: l => m.insertAt n l buf

/-- `delete_record`: a page that was full joins the chain. -/
def delete (m : RecordMap) (rid : Rid) : RecordMap :=
  { m with
    records := Function.update m.records rid none
    chain := if m.isFull rid.pageNo then rid.pageNo :: m.chain else m.chain }

/-- `update_record`. -/
def update (m : RecordMap) (rid : Rid) (buf : List UInt8) : RecordMap :=
  { m with records := Function.update m.records rid (some buf) }

/-- The record id the next insert will return. -/
def nextRid (m : RecordMap) : Rid :=
  match m.chain with
  | [] => ⟨m.numPages, m.withRoom.freeSlot m.numPages⟩
  | n :: _ => ⟨n, m.freeSlot n⟩

variable {m : RecordMap}

/-- A record goes into the first page of the list. -/
theorem insert_eq_insertAt {n : Int} {l : List Int} (h : m.withRoom.chain = n :: l)
    (buf : List UInt8) : m.insert buf = m.withRoom.insertAt n l buf := by
  unfold insert withRoom at *
  cases hc : m.chain with
  | nil =>
    rw [hc] at h
    cases h
    rfl
  | cons k l' =>
    rw [hc] at h
    dsimp only at h
    rw [hc] at h
    cases h
    rfl

/-- Its number is the next one. -/
theorem insert_fst (m : RecordMap) (buf : List UInt8) : (m.insert buf).1 = m.nextRid := by
  unfold insert nextRid
  cases m.chain <;> rfl

/-- Only this number changes. -/
theorem insert_records (m : RecordMap) (buf : List UInt8) :
    (m.insert buf).2.records = Function.update m.records m.nextRid (some buf) := by
  unfold insert nextRid
  cases hc : m.chain with
  | nil =>
    show Function.update m.withRoom.records _ _ = _
    have hr : m.withRoom.records = m.records := by
      unfold withRoom
      rw [hc]
    rw [hr]
  | cons n l => rfl

/-- Fullness depends on the records of the page only. -/
theorem isFull_congr {m' : RecordMap} {n : Int} (hp : m'.perPage = m.perPage)
    (h : ∀ s : Nat, s < m.perPage → (m'.records ⟨n, s⟩).isSome = (m.records ⟨n, s⟩).isSome) :
    m'.isFull n = m.isFull n := by
  unfold isFull
  rw [hp, Bool.eq_iff_iff, List.all_eq_true, List.all_eq_true]
  refine forall_congr' fun s => imp_congr_right fun hs => ?_
  rw [h s (List.mem_range.mp hs)]

/-- In a page that is not full there is a free slot, and the search finds one. -/
theorem freeSlot_spec {n : Int} (h : m.isFull n = false) :
    m.freeSlot n < m.perPage ∧ m.records ⟨n, m.freeSlot n⟩ = none := by
  unfold freeSlot
  cases hf : (List.range m.perPage).find? fun s : Nat => (m.records ⟨n, s⟩).isNone with
  | some s =>
    exact ⟨List.mem_range.mp (List.mem_of_find?_eq_some hf), by simpa using List.find?_some hf⟩
  | none =>
    have hall : m.isFull n = true := by
      refine List.all_eq_true.mpr fun s hs => ?_
      have := List.find?_eq_none.mp hf s hs
      simpa [Option.isSome_iff_ne_none] using this
    rw [h] at hall
    cases hall

/-- A page with an empty slot is not full. -/
theorem isFull_of_none {rid : Rid} (hs : 0 ≤ rid.slotNo) (hlt : rid.slotNo < m.perPage)
    (h : m.records rid = none) : m.isFull rid.pageNo = false := by
  by_contra hfull
  rw [Bool.not_eq_false, isFull, List.all_eq_true] at hfull
  have hsome := hfull rid.slotNo.toNat (List.mem_range.mpr (by omega))
  have hrid : (⟨rid.pageNo, (rid.slotNo.toNat : Int)⟩ : Rid) = rid := by
    rw [Int.toNat_of_nonneg hs]
  rw [hrid, h] at hsome
  cases hsome

/-- **The invariant**: the chain lists the pages that are not full. -/
structure Inv (m : RecordMap) : Prop where
  slots : 0 < m.perPage
  pages : 1 ≤ m.numPages
  nodup : m.chain.Nodup
  mem : ∀ n, n ∈ m.chain ↔ 1 ≤ n ∧ n < m.numPages ∧ m.isFull n = false
  range : ∀ rid, m.records rid ≠ none →
    1 ≤ rid.pageNo ∧ rid.pageNo < m.numPages ∧ 0 ≤ rid.slotNo ∧ rid.slotNo < m.perPage

/-- A file of one page with room. -/
theorem inv_onePage (hslots : 0 < m.perPage) (hpages : m.numPages = 2) (hchain : m.chain = [1])
    (hroom : m.isFull 1 = false) (hrange : ∀ rid, m.records rid ≠ none →
      rid.pageNo = 1 ∧ 0 ≤ rid.slotNo ∧ rid.slotNo < m.perPage) : m.Inv := by
  refine ⟨hslots, by omega, by simp [hchain], fun n => ?_, fun rid hrid => ?_⟩
  · rw [hchain, List.mem_singleton, hpages]
    constructor
    · rintro rfl
      exact ⟨by decide, by decide, hroom⟩
    · intro h
      omega
  · obtain ⟨hpage, hslot⟩ := hrange rid hrid
    exact ⟨by omega, by omega, hslot⟩

/-- A page past the end of the file is not full. -/
theorem Inv.not_full_of_le (h : m.Inv) {n : Int} (hn : m.numPages ≤ n) : m.isFull n = false := by
  have hslots := h.slots
  have hnone : m.records ⟨n, 0⟩ = none := by
    by_contra hne
    have := (h.range _ hne).2.1
    dsimp only at this
    omega
  exact isFull_of_none (Int.le_refl 0) (by show (0 : Int) < _; omega) hnone

/-- The list has a page after room is made. -/
theorem Inv.withRoom (h : m.Inv) : m.withRoom.Inv ∧ ∃ n l, m.withRoom.chain = n :: l := by
  unfold RecordMap.withRoom
  cases hc : m.chain with
  | cons n l => exact ⟨h, n, l, hc⟩
  | nil =>
    have hp := h.pages
    refine ⟨⟨h.slots, by show 1 ≤ m.numPages + 1; omega, List.pairwise_singleton _ _, fun n => ?_,
      fun rid hrid => ?_⟩, m.numPages, [], rfl⟩
    · have hmem := h.mem n
      rw [hc] at hmem
      rw [List.mem_singleton]
      constructor
      · rintro rfl
        exact ⟨hp, by show m.numPages < m.numPages + 1; omega, h.not_full_of_le (Int.le_refl _)⟩
      · rintro ⟨h1, h2, h3⟩
        have hlt : n < m.numPages + 1 := h2
        by_contra hne
        exact List.not_mem_nil (hmem.mpr ⟨h1, by omega, h3⟩)
    · obtain ⟨h1, h2, h3⟩ := h.range rid hrid
      exact ⟨h1, by show rid.pageNo < m.numPages + 1; omega, h3⟩

/-- The records outside a page decide nothing about it. -/
theorem isFull_update_of_ne {rid : Rid} {n : Int} (hn : n ≠ rid.pageNo)
    (v : Option (List UInt8)) (c : List Int) :
    ({ m with records := Function.update m.records rid v, chain := c } : RecordMap).isFull n =
      m.isFull n := by
  refine isFull_congr rfl fun s _ => ?_
  show (Function.update m.records rid v ⟨n, s⟩).isSome = _
  rw [Function.update_of_ne]
  rintro rfl
  exact hn rfl

/-- The step of an insert. -/
theorem Inv.insertAt {n : Int} {l : List Int} (h : m.Inv) (hc : m.chain = n :: l)
    (buf : List UInt8) : (m.insertAt n l buf).2.Inv := by
  obtain ⟨hn1, hn2, hnf⟩ := (h.mem n).mp (by rw [hc]; exact List.mem_cons_self)
  obtain ⟨hs, -⟩ := freeSlot_spec hnf
  have hnd := h.nodup
  rw [hc, List.nodup_cons] at hnd
  have hfull : ∀ k c, k ≠ n → ({ m with
      records := Function.update m.records ⟨n, m.freeSlot n⟩ (some buf), chain := c } :
      RecordMap).isFull k = m.isFull k := fun k c hk => isFull_update_of_ne hk _ c
  refine ⟨h.slots, h.pages, ?_, fun k => ?_, fun rid hrid => ?_⟩
  · show (if _ then l else n :: l).Nodup
    split
    · exact hnd.2
    · exact List.nodup_cons.mpr hnd
  · show k ∈ (if _ then l else n :: l) ↔ _
    have hmem := h.mem k
    rw [hc, List.mem_cons] at hmem
    -- the page itself leaves the list if it is full now
    by_cases hk : k = n
    · subst hk
      split
      · rename_i hf
        refine ⟨fun hin => absurd hin hnd.1, fun ⟨_, _, hnot⟩ => ?_⟩
        have hnot' : RecordMap.isFull { m with
          records := Function.update m.records ⟨k, m.freeSlot k⟩ (some buf) } k = false := hnot
        rw [hf] at hnot'
        cases hnot'
      · rename_i hf
        exact ⟨fun _ => ⟨hn1, hn2, Bool.not_eq_true _ ▸ hf⟩, fun _ => List.mem_cons_self⟩
    · have hk' : ∀ c : List Int, (k ∈ c ↔ k ∈ l) → (k ∈ c ↔ 1 ≤ k ∧ k < m.numPages ∧
          ({ m with records := Function.update m.records ⟨n, m.freeSlot n⟩ (some buf), chain := c } :
          RecordMap).isFull k = false) := by
        intro c hcl
        rw [hfull k c hk, ← hmem, hcl]
        exact ⟨Or.inr, fun hor => hor.resolve_left hk⟩
      split
      · exact hk' l Iff.rfl
      · exact hk' (n :: l) (by rw [List.mem_cons]; exact ⟨fun hor => hor.resolve_left hk, Or.inr⟩)
  · by_cases hr : rid = ⟨n, m.freeSlot n⟩
    · subst hr
      exact ⟨hn1, hn2, by dsimp only; omega, by show (m.freeSlot n : Int) < m.perPage; omega⟩
    · have hrid' : Function.update m.records ⟨n, m.freeSlot n⟩ (some buf) rid ≠ none := hrid
      rw [Function.update_of_ne hr] at hrid'
      exact h.range rid hrid'

/-- An insert keeps the invariant. -/
theorem Inv.insert (h : m.Inv) (buf : List UInt8) : (m.insert buf).2.Inv := by
  obtain ⟨hroom, n, l, hc⟩ := h.withRoom
  rw [insert_eq_insertAt hc]
  exact hroom.insertAt hc buf

/-- An insert finds a record id that is not in the map. -/
theorem Inv.nextRid_none (h : m.Inv) : m.records m.nextRid = none := by
  unfold nextRid
  cases hc : m.chain with
  | cons n l =>
    obtain ⟨-, -, hnf⟩ := (h.mem n).mp (by rw [hc]; exact List.mem_cons_self)
    exact (freeSlot_spec hnf).2
  | nil =>
    by_contra hne
    have := (h.range _ hne).2.1
    dsimp only at this
    omega

/-- A delete keeps it. -/
theorem Inv.delete (h : m.Inv) {rid : Rid} (hrid : m.records rid ≠ none) : (m.delete rid).Inv := by
  obtain ⟨h1, h2, h3, h4⟩ := h.range rid hrid
  have hnone : (m.delete rid).records rid = none := Function.update_self _ _ _
  have hself : (m.delete rid).isFull rid.pageNo = false := isFull_of_none h3 h4 hnone
  have hother : ∀ k, k ≠ rid.pageNo → (m.delete rid).isFull k = m.isFull k :=
    fun k hk => isFull_update_of_ne hk none _
  refine ⟨h.slots, h.pages, ?_, fun k => ?_, fun r hr => ?_⟩
  · show (if _ then _ else _ : List Int).Nodup
    split
    · rename_i hf
      refine List.nodup_cons.mpr ⟨fun hin => ?_, h.nodup⟩
      rw [((h.mem _).mp hin).2.2] at hf
      cases hf
    · exact h.nodup
  · show k ∈ (if _ then _ else _ : List Int) ↔ 1 ≤ k ∧ k < m.numPages ∧ (m.delete rid).isFull k = false
    by_cases hk : k = rid.pageNo
    · subst hk
      refine ⟨fun _ => ⟨h1, h2, hself⟩, fun _ => ?_⟩
      split
      · exact List.mem_cons_self
      · rename_i hf
        exact (h.mem _).mpr ⟨h1, h2, by simpa using hf⟩
    · rw [hother k hk, ← h.mem k]
      split
      · rw [List.mem_cons]
        exact ⟨fun hor => hor.resolve_left hk, Or.inr⟩
      · exact Iff.rfl
  · by_cases heq : r = rid
    · subst heq
      exact absurd hnone hr
    · have hr' : Function.update m.records rid none r ≠ none := hr
      rw [Function.update_of_ne heq] at hr'
      exact h.range r hr'

/-- An update keeps the numbers in use. -/
theorem isSome_update {rid : Rid} (hrid : m.records rid ≠ none) (buf : List UInt8) (r : Rid) :
    (Function.update m.records rid (some buf) r).isSome = (m.records r).isSome := by
  by_cases hr : r = rid
  · subst hr
    rw [Function.update_self]
    simpa [Option.isSome_iff_ne_none] using hrid
  · rw [Function.update_of_ne hr]

/-- An update keeps the invariant. -/
theorem Inv.update (h : m.Inv) {rid : Rid} (hrid : m.records rid ≠ none) (buf : List UInt8) :
    (m.update rid buf).Inv := by
  have hfull : ∀ n, (m.update rid buf).isFull n = m.isFull n :=
    fun n => isFull_congr rfl fun s _ => isSome_update hrid buf _
  refine ⟨h.slots, h.pages, h.nodup, fun n => ?_, fun r hr => ?_⟩
  · rw [hfull n]
    exact h.mem n
  · have hr' : Function.update m.records rid (some buf) r ≠ none := hr
    rw [← Option.isSome_iff_ne_none, isSome_update hrid, Option.isSome_iff_ne_none] at hr'
    exact h.range r hr'

end RecordMap

end Rmdb
