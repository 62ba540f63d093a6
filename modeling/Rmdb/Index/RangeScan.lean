import Rmdb.Index.InsertRuns
import Rmdb.Index.IxScan

namespace Rmdb

open Lib Std

namespace IxIndexHandle

/-!
# Range scans of an index

A scan from `lower_bound` of one key to `upper_bound` of another, on any index that insertions have
built.

* `ScansRange` — what a scan is for;
* `scansRange_iff` — when it does that;
* `empty_index_scan` — on an empty index it throws.
-/

section Ord

variable {K : Type} [Ord K] {s : IxIndexHandle K} {leaves : List Int} {levels : List (List Int)}

/-- **What a scan is for**: it comes to its end without a failed assertion and without an exception, and
    visits pairs in ascending order, among them all pairs between the two keys. -/
def ScansRange (s : IxIndexHandle K) (lo hi : K) : Prop :=
  ∃ c es, s.scan lo hi = .ok c ∧ (IxScan.cursor s).Visits c (es.map Prod.snd) ∧ Increasing es ∧
    (∀ e ∈ es, s.Contains e) ∧
    ∀ e, s.Contains e → (compare lo e.1).isLE → (compare e.1 hi).isLE → e ∈ es

variable [TransOrd K]

/-- A key that is not above `hi` comes before the end of the scan. -/
theorem Tree.scanned_of_isLE (h : Tree s leaves levels) {lo hi : K} {e : K × Rid}
    (he : e ∈ s.contents leaves) (hlo : (compare lo e.1).isLE) (hhi : (compare e.1 hi).isLE) :
    Scanned s leaves lo hi e.1 := by
  obtain ⟨g, hg⟩ := List.mem_iff_getElem?.mp he
  refine ⟨hlo, Or.inr ?_⟩
  rw [h.sorted.lowerIdx_eq hg]
  exact lt_max_of_lt_right ((h.sorted.lt_upperIdx_iff hg).mpr hhi)

/-- **When a scan does what it is for.** -/
theorem Tree.scansRange_iff (h : Tree s leaves levels) (lo hi : K) :
    ScansRange s lo hi ↔ ScanEnds s leaves lo hi := by
  constructor
  · rintro ⟨c, es, hscan, hvisits, -⟩
    by_contra hends
    exact h.scan_fails hends hscan _ hvisits
  · intro hends
    obtain ⟨c, n, hscan, hend, hvisits⟩ := h.scan_visits hends
    have hmem := h.mem_visited lo hend
    refine ⟨c, _, hscan, hvisits, ?_, fun e he => ?_, fun e he hlo hhi => ?_⟩
    · exact h.sorted.sublist ((List.drop_sublist _ _).trans (List.take_sublist _ _))
    · exact h.contains_iff.mpr ((hmem e).mp he).1
    · have he' := h.contains_iff.mp he
      exact (hmem e).mpr ⟨he', h.scanned_of_isLE he' hlo hhi⟩

end Ord

/-- **Scans of an index that insertions have built.** A scan does what it is for exactly if the index has
    a pair, the lower key does not fall between two leaves, and it does not lie behind the end of the
    scan. -/
theorem range_scan_iff (cols : List IxCol) (s₀ s : IxIndexHandle (IxKey cols))
    (hcreate : createIndex cols = .ok s₀) (ops : List (IxKey cols × Rid))
    (hrun : s₀.insertEntries ops = .ok s) (hinner : InnerCallsAdd s) :
    ∃ leaves, LeafChain s leaves ∧ leaves.Nodup ∧
      (∀ p, p ∈ leaves ↔ (∃ d, s.Node p d) ∧ (s.page p).isLeaf = true) ∧
      ∀ lo hi, ScansRange s lo hi ↔ ScanEnds s leaves lo hi := by
  obtain ⟨btreeOrder, horder, rfl⟩ := createIndex_ok hcreate
  obtain ⟨leaves, levels, htree, -⟩ := tree_insertEntries_inner horder hrun hinner
  exact ⟨leaves, htree.chain, htree.upper.below_nodup, fun p => htree.mem_leaves_iff,
    htree.scansRange_iff⟩

/-- The theorem at the scan from 5 to 7 after the insertion of 7 and 5. -/
theorem range_scan_five_seven : ∃ s, (create 338).insertEntries
      [(intKey 7, ⟨1, 0⟩), (intKey 5, ⟨1, 1⟩)] = .ok s ∧ ScansRange s (intKey 5) (intKey 7) := by
  have hrun : ((create 338).insertEntries
      [(intKey 7, ⟨1, 0⟩), (intKey 5, ⟨1, 1⟩)]).toOption.map (fun s => decide (
        CallsAdd s ∧ s.rootPage = 2 ∧ (s.page 2).isLeaf = true ∧
        (s.page 2).entries = [(intKey 5, ⟨1, 1⟩), (intKey 7, ⟨1, 0⟩)])) = some true := by
    decide +kernel
  obtain ⟨s, hs, heq⟩ := toOption_map_eq_some.mp hrun
  obtain ⟨hcalls, hroot, hleaf, hentries⟩ := of_decide_eq_true heq
  obtain ⟨leaves, -, hnd, hmem, hscan⟩ :=
    range_scan_iff [(.int, 4)] (create 338) s rfl _ hs hcalls.inner
  -- the root is the only leaf
  have hall : ∀ p, p ∈ leaves ↔ p = 2 := by
    intro p
    rw [hmem]
    constructor
    · rintro ⟨⟨d, hp⟩, -⟩
      rw [hp.eq_root (by rw [hroot, hleaf]), hroot]
    · rintro rfl
      exact ⟨⟨0, hroot ▸ Node.root⟩, hleaf⟩
  obtain rfl : leaves = [2] := List.perm_singleton.mp
    ((List.perm_ext_iff_of_nodup hnd (List.nodup_singleton _)).mpr fun p => by
      rw [hall, List.mem_singleton])
  have hcontents : s.contents [2] = [(intKey 5, ⟨1, 1⟩), (intKey 7, ⟨1, 0⟩)] := by
    rw [contents_cons, hentries]
    rfl
  refine ⟨s, hs, (hscan _ _).mpr ⟨?_, ?_, Or.inr ?_⟩⟩
  · rw [hcontents]
    exact List.cons_ne_nil _ _
  · rintro ⟨A, B, hAB, hA, hB, -⟩
    rcases List.append_eq_singleton_iff.mp hAB.symm with ⟨h, -⟩ | ⟨-, h⟩
    · exact hA h
    · exact hB h
  · rw [hcontents]
    decide +kernel

/-- **A scan of an empty index throws.** It starts at the first slot of the leaf, which is not there, and
    would end at the second one. -/
theorem empty_index_scan : ∃ s₀ : IxIndexHandle (IxKey [(.int, 4)]),
    createIndex [(.int, 4)] = .ok s₀ ∧ s₀.insertEntries [] = .ok s₀ ∧
      ¬ ScansRange s₀ (intKey 5) (intKey 7) := by
  refine ⟨create 338, rfl, rfl, fun h => ?_⟩
  have htree : Tree (create 338 : IxIndexHandle (IxKey [(.int, 4)])) [2] [] := tree_create (by decide)
  exact ((htree.scansRange_iff _ _).mp h).ne_nil rfl

end IxIndexHandle

end Rmdb
