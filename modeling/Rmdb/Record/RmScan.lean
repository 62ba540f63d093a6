import Rmdb.Lib.Cursor
import Rmdb.Record.FileInvariant

namespace Rmdb

open Lib

/-!
# Scanning a table file (`record/rm_scan.cpp`)

`RmScan::next` looks for the next set bit in the bitmap of its page, and goes on to the next page when
there is none.  As in `contents`, `V n` are the bytes of page `n`.

* `RmScan.cursor` — the scan;
* `RmScan.ridsFrom` — the record ids that are still to come;
* `RmScan.visits` — the scan visits these; `mem_rids` — they are the record ids of the records.
-/

namespace RmScan

variable (h : RmFileHdr) (V : Int → PageData)

/-- The loop of `next`, with the pages that are left as fuel. -/
def nextFrom : Nat → Rid → Rid
  | 0, _ => ⟨rmNoPage, -1⟩
  | fuel + 1, rid =>
    if rid.pageNo < h.numPages then
      let slot := Bitmap.nextBit true (V rid.pageNo) h.numRecordsPerPage rid.slotNo
      if slot < h.numRecordsPerPage then ⟨rid.pageNo, slot⟩
      else nextFrom fuel ⟨rid.pageNo + 1, -1⟩
    else ⟨rmNoPage, -1⟩

/-- `next`. -/
def next (rid : Rid) : Rid := nextFrom h V (h.numPages - rid.pageNo).toNat rid

/-- The constructor: before the first slot of the first page of records. -/
def start : Rid := next h V ⟨1, -1⟩

/-- `is_end`. -/
def isEnd (rid : Rid) : Bool := rid.pageNo = rmNoPage

/-- The scan as a cursor.  It throws nothing. -/
def cursor {ε : Type} (stuck : ε) : Cursor Rid Rid ε where
  isEnd := isEnd
  item rid := .ok rid
  next rid := .ok (next h V rid)
  stuck := stuck

/-! ### What is still to come -/

/-- The used slots of a page behind slot `k`. -/
def usedSlots (x : PageData) (k : Int) : List Nat :=
  (List.range h.numRecordsPerPage).filter fun i : Nat => decide (k < (i : Int)) && Bitmap.isSet x i

/-- The record ids behind slot `k` of page `n`, with `m` pages from `n` on. -/
def ridsFrom : Nat → Int → Int → List Rid
  | 0, _, _ => []
  | m + 1, n, k => (usedSlots h (V n) k).map (fun i : Nat => ⟨n, i⟩) ++ ridsFrom m (n + 1) (-1)

variable {h V}

theorem nextBit_eq (x : PageData) (k : Int) : Bitmap.nextBit true x h.numRecordsPerPage k =
    ((usedSlots h x k).head?).getD h.numRecordsPerPage := by
  unfold Bitmap.nextBit usedSlots
  rw [List.head?_filter]
  congr 2
  funext i
  cases Bitmap.isSet x i <;> rfl

/-- Behind the first of the used slots are the others. -/
theorem usedSlots_cons {x : PageData} {k : Int} {i : Nat} {l : List Nat}
    (hl : usedSlots h x k = i :: l) : i < h.numRecordsPerPage ∧ usedSlots h x i = l := by
  have hmem : i ∈ usedSlots h x k := hl ▸ List.mem_cons_self
  unfold usedSlots at hmem
  rw [List.mem_filter, List.mem_range, Bool.and_eq_true, decide_eq_true_eq] at hmem
  obtain ⟨hlt, hki, -⟩ := hmem
  refine ⟨hlt, ?_⟩
  have hsorted : (usedSlots h x k).Pairwise (· < ·) := List.pairwise_lt_range.filter _
  rw [hl] at hsorted
  -- the slots behind `i` are those behind `k` that are behind `i`
  have hfilter : usedSlots h x i = (usedSlots h x k).filter fun j => i < j := by
    unfold usedSlots
    rw [List.filter_filter]
    refine List.filter_congr fun j _ => ?_
    by_cases hij : i < j
    · have hkj : k < (j : Int) := by omega
      simp [hij, hkj]
    · simp [hij]
  rw [hfilter, hl, List.filter_cons_of_neg (by simp)]
  refine List.filter_eq_self.mpr fun j hj => ?_
  exact decide_eq_true ((List.pairwise_cons.mp hsorted).1 j hj)

/-- **The scan visits what is still to come.** -/
theorem visits_from {ε : Type} (stuck : ε) (m : Nat) {n : Int} (hn : 1 ≤ n)
    (hm : m = (h.numPages - n).toNat) (k : Int) :
    (cursor h V stuck).Visits (nextFrom h V m ⟨n, k⟩) (ridsFrom h V m n k) := by
  induction m generalizing n k with
  | zero => exact .done rfl
  | succ m ih =>
    have hlt : n < h.numPages := by omega
    rw [ridsFrom]
    -- one used slot of the page after the other
    generalize hl : usedSlots h (V n) k = l
    induction l generalizing k with
    | nil =>
      have hnext : nextFrom h V (m + 1) ⟨n, k⟩ = nextFrom h V m ⟨n + 1, -1⟩ := by
        rw [nextFrom, if_pos hlt]
        dsimp only
        rw [nextBit_eq, hl, List.head?_nil, Option.getD_none, if_neg (Nat.lt_irrefl _)]
      rw [hnext, List.map_nil, List.nil_append]
      exact ih (by omega) (by omega) (-1)
    | cons i l ihl =>
      obtain ⟨hi, hrest⟩ := usedSlots_cons hl
      have hnext : nextFrom h V (m + 1) ⟨n, k⟩ = ⟨n, i⟩ := by
        rw [nextFrom, if_pos hlt]
        dsimp only
        rw [nextBit_eq, hl, List.head?_cons, Option.getD_some, if_pos hi]
      have hgo : next h V ⟨n, i⟩ = nextFrom h V (m + 1) ⟨n, i⟩ := by
        unfold next
        rw [hm]
      rw [hnext, List.map_cons, List.cons_append]
      refine .item ?_ rfl rfl ?_
      · exact decide_eq_false fun hc => by simp only [rmNoPage] at hc; omega
      · rw [hgo]
        exact ihl i hrest

/-- All record ids of the file. -/
def rids (h : RmFileHdr) (V : Int → PageData) : List Rid := ridsFrom h V (h.numPages - 1).toNat 1 (-1)

/-- **A scan of the file.** -/
theorem visits {ε : Type} (stuck : ε) : (cursor h V stuck).Visits (start h V) (rids h V) :=
  visits_from stuck _ (Int.le_refl 1) rfl (-1)

theorem mem_ridsFrom {m : Nat} {n k : Int} {rid : Rid} : rid ∈ ridsFrom h V m n k ↔
    n ≤ rid.pageNo ∧ rid.pageNo < n + m ∧ (rid.pageNo = n → k < rid.slotNo) ∧ 0 ≤ rid.slotNo ∧
      rid.slotNo < h.numRecordsPerPage ∧ Bitmap.isSet (V rid.pageNo) rid.slotNo.toNat = true := by
  induction m generalizing n k with
  | zero =>
    constructor
    · intro hr
      cases hr
    · rintro ⟨h1, h2, -⟩
      omega
  | succ m ih =>
    rw [ridsFrom, List.mem_append, ih, List.mem_map]
    constructor
    · rintro (⟨i, hi, rfl⟩ | ⟨h1, h2, -, h4, h5, h6⟩)
      · unfold usedSlots at hi
        rw [List.mem_filter, List.mem_range, Bool.and_eq_true, decide_eq_true_eq] at hi
        refine ⟨Int.le_refl _, by dsimp only; omega, fun _ => hi.2.1, by dsimp only; omega, ?_, ?_⟩
        · dsimp only
          omega
        · simpa using hi.2.2
      · exact ⟨by omega, by omega, fun hc => by omega, h4, h5, h6⟩
    · rintro ⟨h1, h2, h3, h4, h5, h6⟩
      by_cases hn : rid.pageNo = n
      · refine Or.inl ⟨rid.slotNo.toNat, ?_, ?_⟩
        · have := h3 hn
          unfold usedSlots
          rw [List.mem_filter, List.mem_range, Bool.and_eq_true, decide_eq_true_eq]
          exact ⟨by omega, by omega, hn ▸ h6⟩
        · rw [Int.toNat_of_nonneg h4, ← hn]
      · exact Or.inr ⟨by omega, by omega, fun _ => by omega, h4, h5, h6⟩

/-- They are the record ids of the records. -/
theorem mem_rids (hp : 1 ≤ h.numPages) {rid : Rid} :
    rid ∈ rids h V ↔ (contents h V rid).isSome = true := by
  unfold rids
  rw [mem_ridsFrom]
  unfold contents
  constructor
  · rintro ⟨h1, h2, -, h4, h5, h6⟩
    rw [if_pos ⟨h1, by omega, h4, h5, h6⟩]
    rfl
  · intro hsome
    split at hsome
    · rename_i hc
      obtain ⟨h1, h2, h4, h5, h6⟩ := hc
      exact ⟨h1, by omega, fun _ => by omega, h4, h5, h6⟩
    · cases hsome

end RmScan

end Rmdb
