import Rmdb.Index.DeleteLatches

namespace Rmdb

open Lib Std

namespace IxIndexHandle

/-!
# The recursive call of a merge

`coalesce` calls `coalesce_or_redistribute` on the parent without its two pointers.  There they are used
in every branch but one: a parent that is not the root and is still full enough.

* `Merges` — the deletion of a key makes a leaf merge with a sibling;
* `recursive_call_iff` — when the recursive call returns;
* `FatherOnly` — what such a merge leaves alone above the leaves;
* `deletion_completes_iff` — when the deletion completes, and with `root_latch_` released.
-/

variable {K : Type} [Ord K] {s s₁ : IxIndexHandle K} {p : Int} {key : K}

/-- **The deletion makes a leaf merge.** `find_leaf_page` finds leaf `p`; without the pair it is
    underfull and so is its sibling, and `coalesce` leads to `s₁`. -/
structure Merges (s : IxIndexHandle K) (key : K) (p : Int) (n : IxNode K) (s₁ : IxIndexHandle K) :
    Prop where
  leaf : s.findLeafPage key = .ok p
  erased : (s.page p).erasePair ((s.page p).lowerBound key) = .ok n
  notRoot : n.isRootPage = false
  underfull : n.numKey < s.minSize
  merged : ∃ brother pos, (s.set p n).siblingArgs p = .ok (brother, pos) ∧
    n.numKey + ((s.set p n).page brother).numKey < 2 * s.minSize ∧
    (s.set p n).coalesce brother p n.parent pos = .ok s₁

/-! ### The call without pointers -/

section Call

variable [DecidableEq K] {l : Latches} {fuel : Nat}

/-- **The recursive call** returns only if the node is full enough and not the root. -/
theorem recursive_call_iff {r : Bool × IxIndexHandle K × Latches} :
    coalesceOrRedistributeLatched (fuel + 1) false s l p = .ok r ↔
      (s.page p).isRootPage = false ∧ s.minSize ≤ (s.page p).numKey ∧
        ∃ s', s.maintainParent s.fuel p = .ok s' ∧ r = (false, s', l) := by
  rw [coalesceOrRedistributeLatched]
  cases hroot : (s.page p).isRootPage with
  | true => exact ⟨fun h => (by cases h), fun h => (by cases h.1)⟩
  | false =>
    rw [if_neg Bool.false_ne_true]
    by_cases hsize : s.minSize ≤ (s.page p).numKey
    · rw [if_pos hsize]
      constructor
      · intro h
        obtain ⟨s', hs', h⟩ := bind_eq_ok.mp h
        cases h
        exact ⟨rfl, hsize, s', mapError_eq_ok.mp hs', rfl⟩
      · rintro ⟨-, -, s', hs', rfl⟩
        exact bind_eq_ok.mpr ⟨s', mapError_eq_ok.mpr hs', rfl⟩
    · rw [if_neg hsize]
      refine ⟨fun h => ?_, fun h => absurd h.2.1 hsize⟩
      -- the other two branches end with a use of the pointers
      obtain ⟨⟨brother, pos⟩, -, h⟩ := bind_eq_ok.mp h
      dsimp only at h
      split at h
      · obtain ⟨s', -, h⟩ := bind_eq_ok.mp h
        cases h
      · obtain ⟨s', -, h⟩ := bind_eq_ok.mp h
        obtain ⟨⟨b, s'', l'⟩, -, h⟩ := bind_eq_ok.mp h
        cases h

/-- A deletion that merges leaves, with its recursive call. -/
theorem Merges.deleteEntryLatched_eq {n : IxNode K} (h : s.Merges key p n s₁) :
    ∃ (fuel : Nat) (l : Latches) (brother : Int), s.fuel = fuel + 1 ∧ l.Agrees ∧
      s.deleteEntryLatched key = (do
        let (_, s', l') ← coalesceOrRedistributeLatched fuel false s₁ l n.parent
        let l' := ((l'.wUnlock brother).unpin brother).unpin n.parent
        return (s', (l'.unlockUnpinAll.releaseRoot.wUnlock p).unpin p)) := by
  obtain ⟨brother, pos, hargs, hsum, hco⟩ := h.merged
  have hfind := findLeafLatched_spec s key
  rw [h.leaf] at hfind
  obtain ⟨l, hl, hagrees, -⟩ := hfind
  obtain ⟨fuel, hfuel⟩ : ∃ fuel, s.fuel = fuel + 1 := by
    cases hf : s.fuel with
    | zero =>
      have hleaf := h.leaf
      unfold findLeafPage at hleaf
      rw [hf] at hleaf
      cases hleaf
    | succ fuel => exact ⟨fuel, rfl⟩
  have hself : (s.set p n).page p = n := by
    rw [page_set, if_pos rfl]
  have hmin : (s.set p n).minSize = s.minSize := rfl
  have hstep : coalesceOrRedistributeLatched (fuel + 1) true (s.set p n) l p = (do
      let (_, s', l') ← coalesceOrRedistributeLatched fuel false s₁
        (((l.fetch n.parent).fetch brother).wLock brother) n.parent
      let l' := ((l'.wUnlock brother).unpin brother).unpin n.parent
      return (true, s', l'.unlockUnpinAll.releaseRoot)) := by
    rw [coalesceOrRedistributeLatched]
    dsimp only
    rw [hself, hmin, h.notRoot, if_neg Bool.false_ne_true, if_neg (Nat.not_le.mpr h.underfull), hargs]
    show (if 2 * s.minSize ≤ _ then _ else _) = _
    rw [if_neg (Nat.not_le.mpr hsum), hco]
    rfl
  refine ⟨fuel, ((l.fetch n.parent).fetch brother).wLock brother, brother, hfuel, hagrees, ?_⟩
  unfold deleteEntryLatched
  rw [hl]
  show (underLatches l _ >>= _) = _
  rw [h.erased]
  show (coalesceOrRedistributeLatched s.fuel true (s.set p n) l p >>= _) = _
  rw [hfuel, hstep]
  cases coalesceOrRedistributeLatched fuel false s₁
    (((l.fetch n.parent).fetch brother).wLock brother) n.parent with
  | error e => rfl
  | ok r => rfl

end Call

/-! ### Above the leaves -/

/-- Above the leaves only the father has changed: it has lost a pair. -/
structure FatherOnly (s s₁ : IxIndexHandle K) (father : Int) (levels : List (List Int)) : Prop where
  rootPage : s₁.rootPage = s.rootPage
  btreeOrder : s₁.btreeOrder = s.btreeOrder
  nextPage : s₁.nextPage = s.nextPage
  frame : ∀ x ∈ levels.flatten, x ≠ father → Relinked (s.page x) (s₁.page x)
  parent : (s₁.page father).parent = (s.page father).parent
  numKey : (s₁.page father).numKey + 1 = (s.page father).numKey

variable {leaves lvl : List Int} {levels rest : List (List Int)} {n : IxNode K} {father : Int}

/-- The pages after two leaves have merged. -/
theorem fatherOnly_coalesce {brother : Int} {pos : Nat} (hne : brother ≠ p)
    (hp : (s.page p).isLeaf = true) (hbrother : (s.page brother).isLeaf = true)
    (hlevels : p ∉ levels.flatten ∧ brother ∉ levels.flatten) (hfather : father ∈ levels.flatten)
    (hco : s.coalesce brother p father pos = .ok s₁) : FatherOnly s s₁ father levels := by
  rw [coalesce_eq] at hco
  -- both ways round, a leaf on the left and a leaf on the right
  obtain ⟨left, right, hlr, hleft, hright, hl, hco⟩ : ∃ left right : Int, left ≠ right ∧
      (s.page left).isLeaf = true ∧ (s.page right).isLeaf = true ∧ left ∉ levels.flatten ∧
      (do
        let t := s.mergeNodes left right
        let m ← (t.page father).erasePair ((t.page father).lowerBound ((t.page right).keys 0))
        return t.set father m) = .ok s₁ := by
    by_cases h0 : pos = 0
    · rw [if_pos h0, if_pos h0] at hco
      exact ⟨p, brother, hne.symm, hp, hbrother, hlevels.1, hco⟩
    · rw [if_neg h0, if_neg h0] at hco
      exact ⟨brother, p, hne, hbrother, hp, hlevels.2, hco⟩
  obtain ⟨m, hm, hco⟩ := bind_eq_ok.mp hco
  cases hco
  have hpage : ∀ x ∈ levels.flatten, Relinked (s.page x) ((s.mergeNodes left right).page x) := by
    intro x hx
    rw [mergeNodes_leaf hlr hleft hright]
    dsimp only
    rw [if_neg fun h : x = left => hl (h ▸ hx)]
    unfold Relinked
    split <;> split <;> rfl
  have hself := hpage father hfather
  refine ⟨?_, ?_, ?_, fun x hx hxf => ?_, ?_, ?_⟩
  · show (s.mergeNodes left right).rootPage = _
    rw [mergeNodes_leaf hlr hleft hright]
  · show (s.mergeNodes left right).btreeOrder = _
    rw [mergeNodes_leaf hlr hleft hright]
  · show (s.mergeNodes left right).nextPage = _
    rw [mergeNodes_leaf hlr hleft hright]
  · rw [page_set, if_neg hxf]
    exact hpage x hx
  · rw [page_set, if_pos rfl, parent_erasePair hm, hself]
  · rw [page_set, if_pos rfl, numKey_erasePair hm, hself]

/-- `maintain_parent` of the father. -/
theorem FatherOnly.maintainParent [DecidableEq K] (h : Tree s leaves (lvl :: rest))
    (hf : FatherOnly s s₁ father (lvl :: rest)) (hmem : father ∈ lvl) :
    ∃ s', s₁.maintainParent s₁.fuel father = .ok s' := by
  have hup := h.upper.tail
  have halike : AlikeBut s s₁ father lvl rest := by
    refine ⟨hf.rootPage, hf.btreeOrder, hf.nextPage, fun x hx => ?_, fun x hx hxf => ?_, fun x hx => ?_⟩
    · by_cases hxf : x = father
      · rw [hxf]
        exact hf.parent
      · rw [hf.frame x (List.mem_append_left _ hx) hxf]
    · unfold firstKey
      rw [hf.frame x (List.mem_append_left _ hx) hxf]
    · exact hf.frame x (List.mem_append_right _ hx) fun hc => hup.disjoint hmem (hc ▸ hx)
  obtain ⟨s', hs', -⟩ := halike.repair hup hmem
  exact ⟨s', hs'⟩

/-- **The tree above a merge.** -/
theorem Merges.fatherOnly [TransOrd K] (h : Tree s leaves levels) (hm : s.Merges key p n s₁) :
    ∃ lvl rest, levels = lvl :: rest ∧ n.parent ∈ lvl ∧ FatherOnly s s₁ n.parent levels := by
  obtain ⟨A, q, B, hleaves, hfind, -⟩ := h.target key
  rw [hm.leaf] at hfind
  cases hfind
  have hmem : p ∈ leaves := by
    rw [hleaves]
    exact List.mem_append_right _ List.mem_cons_self
  have hparent := parent_erasePair hm.erased
  have hkind : n.isLeaf = (s.page p).isLeaf := by
    have herased := hm.erased
    unfold IxNode.erasePair at herased
    split at herased
    · cases herased
    · cases herased
      rfl
  cases levels with
  | nil =>
    obtain ⟨r, rfl⟩ := h.upper.leaves_eq_singleton
    cases h.upper.shape with
    | root hroot hp =>
      have hnot := hm.notRoot
      rw [List.mem_singleton.mp hmem] at hparent
      unfold IxNode.isRootPage at hnot
      rw [hparent, hp] at hnot
      cases hnot
  | cons lvl rest =>
    have hl : leaves :: lvl :: rest = [] ++ leaves :: lvl :: rest := rfl
    obtain ⟨i, hi, htwo, hfindp, hval, -, -, hnd⟩ := h.exists_place hl hmem
    obtain ⟨hlvl, -⟩ := h.upper.linked.exists_parent hmem
    have hchildren : ∀ j < (s.page (s.page p).parent).numKey,
        (s.page (s.page p).parent).valueAt j ∈ leaves :=
      fun j hj => h.upper.linked.mem_below hlvl (valueAt_mem_children hj)
    refine ⟨lvl, rest, rfl, hparent ▸ hlvl, ?_⟩
    have hin : n.parent ∈ (lvl :: rest).flatten := by
      rw [hparent, List.flatten_cons]
      exact List.mem_append_left _ hlvl
    obtain ⟨brother, pos, hargs, -, hco⟩ := hm.merged
    have hset := page_set s p n
    -- the sibling is another leaf under the same father
    obtain ⟨j, hj, hji, hbrother⟩ : ∃ j < (s.page (s.page p).parent).numKey, j ≠ i ∧
        brother = (s.page (s.page p).parent).valueAt j := by
      have hpp : (s.page p).parent ≠ p := by
        intro hc
        refine h.upper.disjoint hmem ?_
        rw [hparent, hc] at hin
        exact hin
      unfold siblingArgs at hargs
      dsimp only at hargs
      rw [hset p, if_pos rfl, hparent, hset, if_neg hpp, hfindp] at hargs
      cases hargs
      by_cases h0 : i = 0
      · rw [if_pos h0]
        exact ⟨1, htwo, by omega, rfl⟩
      · rw [if_neg h0]
        exact ⟨0, by omega, by omega, rfl⟩
    have hbmem : brother ∈ leaves := hbrother ▸ hchildren j hj
    have hne : brother ≠ p := by
      intro hc
      exact hji (valueAt_inj hnd hj hi (hbrother.symm.trans (hc.trans hval.symm)))
    have hfo := fatherOnly_coalesce hne ?_ ?_
      ⟨h.upper.disjoint hmem, h.upper.disjoint hbmem⟩ hin hco
    · -- the erased pair is not seen above
      have hpage : ∀ x ∈ (lvl :: rest).flatten, (s.set p n).page x = s.page x := by
        intro x hx
        rw [hset, if_neg fun hc : x = p => h.upper.disjoint hmem (hc ▸ hx)]
      refine ⟨hfo.rootPage, hfo.btreeOrder, hfo.nextPage, fun x hx hxf => ?_, ?_, ?_⟩
      · rw [← hpage x hx]
        exact hfo.frame x hx hxf
      · rw [← hpage _ hin]
        exact hfo.parent
      · rw [← hpage _ hin]
        exact hfo.numKey
    · rw [hset, if_pos rfl, hkind]
      exact h.isLeaf p hmem
    · rw [hset, if_neg hne]
      exact h.isLeaf brother hbmem

variable [DecidableEq K]

/-- **When a deletion that merges completes.** The deletion of a key makes a leaf merge with a sibling.
    It returns, with `root_latch_` released, exactly if the parent of the leaf is not the root and has
    more than `get_min_size` pairs before the deletion. -/
theorem deletion_completes_iff [TransOrd K] (h : Tree s leaves levels) (hm : s.Merges key p n s₁) :
    (∃ s' l', s.deleteEntryLatched key = .ok (s', l') ∧ l'.rootLatch = false) ↔
      (s.page (s.page p).parent).isRootPage = false ∧
        s.minSize < (s.page (s.page p).parent).numKey := by
  obtain ⟨lvl, rest, rfl, hmem, hfather⟩ := hm.fatherOnly h
  obtain ⟨fuel, l, brother, hfuel, hagrees, hrun⟩ := hm.deleteEntryLatched_eq
  have hparent := parent_erasePair hm.erased
  rw [hparent] at hmem hfather hrun
  have hroot : (s₁.page (s.page p).parent).isRootPage = (s.page (s.page p).parent).isRootPage := by
    unfold IxNode.isRootPage
    rw [hfather.parent]
  have hmin : s₁.minSize = s.minSize := by
    unfold minSize maxSize
    rw [hfather.btreeOrder]
  have hsize := hfather.numKey
  -- the fuel is enough for the parent
  obtain ⟨fuel, rfl⟩ : ∃ fuel', fuel = fuel' + 1 := by
    have hlt := h.upper.length_lt_fuel
    rw [hfuel, List.length_cons] at hlt
    exact ⟨fuel - 1, by omega⟩
  rw [hrun]
  constructor
  · rintro ⟨s', l', hok, -⟩
    obtain ⟨r, hr, -⟩ := bind_eq_ok.mp hok
    obtain ⟨hnot, hle, -⟩ := recursive_call_iff.mp hr
    rw [hmin] at hle
    exact ⟨hroot.symm.trans hnot, by omega⟩
  · rintro ⟨hnot, hlt⟩
    obtain ⟨s', hs'⟩ := hfather.maintainParent h hmem
    have hr : coalesceOrRedistributeLatched (fuel + 1) false s₁ l (s.page p).parent =
        .ok (false, s', l) :=
      recursive_call_iff.mpr ⟨hroot.trans hnot, by rw [hmin]; omega, s', hs', rfl⟩
    rw [hr]
    refine ⟨_, _, rfl, ?_⟩
    exact Latches.rootLatch_releaseRoot (Latches.agrees_unlockUnpinAll hagrees)

omit [DecidableEq K] in
/-- A merge, from facts that can be evaluated. -/
theorem merges_shiftDown {i pos : Nat} {brother : Int} (hfind : (s.findLeafPage key).toOption = some p)
    (hpos : (s.page p).lowerBound key = i) (hi : i < (s.page p).numKey)
    (hroot : (s.page p).isRootPage = false) (hsize : (s.page p).numKey ≤ s.minSize)
    (hargs : ((s.set p ((s.page p).shiftDown i)).siblingArgs p).toOption = some (brother, pos))
    (hsum : (s.page p).numKey + ((s.set p ((s.page p).shiftDown i)).page brother).numKey ≤
      2 * s.minSize)
    (hco : ((s.set p ((s.page p).shiftDown i)).coalesce brother p (s.page p).parent pos).toOption.isSome =
      true) : ∃ s₁, s.Merges key p ((s.page p).shiftDown i) s₁ := by
  obtain ⟨s₁, hs₁⟩ := Option.isSome_iff_exists.mp hco
  have hnum : ((s.page p).shiftDown i).numKey = (s.page p).numKey - 1 := rfl
  refine ⟨s₁, toOption_eq_some.mp hfind, ?_, hroot, by omega, brother, pos, toOption_eq_some.mp hargs,
    by omega, toOption_eq_some.mp hs₁⟩
  unfold IxNode.erasePair
  rw [hpos, if_neg (Nat.not_le.mpr hi)]

/-- The theorem in a tree of three levels, whose nodes hold at most three pairs: the parent of the leaf
    with 4 and 5 has three children. -/
theorem deletion_completes_ten_keys : ∃ s s₁ : IxIndexHandle Nat, ∃ n : IxNode Nat,
    (create 3).insertEntries ((List.range 10).map fun i : Nat => (i, (⟨1, i⟩ : Rid))) = .ok s ∧
      s.Merges 5 5 n s₁ ∧
      ∃ s' l', s.deleteEntryLatched 5 = .ok (s', l') ∧ l'.rootLatch = false := by
  have hrun : ((create 3).insertEntries ((List.range 10).map fun i : Nat =>
      (i, (⟨1, i⟩ : Rid)))).toOption.map (fun s => decide (CallsAdd s ∧
        (s.findLeafPage 5).toOption = some 5 ∧ (s.page 5).lowerBound 5 = 1 ∧ 1 < (s.page 5).numKey ∧
        (s.page 5).isRootPage = false ∧ (s.page 5).numKey ≤ s.minSize ∧
        ((s.set 5 ((s.page 5).shiftDown 1)).siblingArgs 5).toOption = some (6, 0) ∧
        (s.page 5).numKey + ((s.set 5 ((s.page 5).shiftDown 1)).page 6).numKey ≤ 2 * s.minSize ∧
        ((s.set 5 ((s.page 5).shiftDown 1)).coalesce 6 5 (s.page 5).parent 0).toOption.isSome = true ∧
        (s.page (s.page 5).parent).isRootPage = false ∧
        s.minSize < (s.page (s.page 5).parent).numKey)) = some true := by
    decide +kernel
  obtain ⟨s, hs, heq⟩ := toOption_map_eq_some.mp hrun
  rw [decide_eq_true_eq] at heq
  obtain ⟨hcalls, hfind, hlower, hlt, hroot, hsize, hargs, hsum, hco, hcond⟩ := heq
  obtain ⟨leaves, levels, htree, -⟩ := tree_insertEntries (by decide) hs hcalls
  obtain ⟨s₁, hm⟩ := merges_shiftDown hfind hlower hlt hroot hsize hargs hsum hco
  exact ⟨s, s₁, _, hs, hm, (deletion_completes_iff htree hm).mpr hcond⟩

/-- **The null pointer.** Seven keys are in two leaves under the root.  After the deletion of 6, that of
    1 merges the leaves, and the recursive call on the root uses `root_is_latched`; `root_latch_` is
    held. -/
theorem deletion_null_pointer : ∃ s s₁ : IxIndexHandle (IxKey [(.string, 512)]), ∃ n : IxNode _,
    ((create 6).insertEntries (charKeys 7) >>= fun s₀ => s₀.deleteEntry (charKey 6)) = .ok s ∧
      s.Merges (charKey 1) 2 n s₁ ∧
      ∃ l, s.deleteEntryLatched (charKey 1) = .error (.nullPointer, l) ∧ l.rootLatch = true := by
  have hrun : ((create 6).insertEntries (charKeys 7) >>= fun s₀ =>
      s₀.deleteEntry (charKey 6)).toOption.map (fun s => decide (
        (s.findLeafPage (charKey 1)).toOption = some 2 ∧ (s.page 2).lowerBound (charKey 1) = 1 ∧
        1 < (s.page 2).numKey ∧ (s.page 2).isRootPage = false ∧ (s.page 2).numKey ≤ s.minSize ∧
        ((s.set 2 ((s.page 2).shiftDown 1)).siblingArgs 2).toOption = some (3, 0) ∧
        (s.page 2).numKey + ((s.set 2 ((s.page 2).shiftDown 1)).page 3).numKey ≤ 2 * s.minSize ∧
        ((s.set 2 ((s.page 2).shiftDown 1)).coalesce 3 2 (s.page 2).parent 0).toOption.isSome = true ∧
        (match s.deleteEntryLatched (charKey 1) with
          | .ok _ => none
          | .error (e, l) => some (e, l.rootLatch)) = some (IxFault.nullPointer, true))) =
        some true := by
    decide +kernel
  obtain ⟨s, hs, heq⟩ := toOption_map_eq_some.mp hrun
  rw [decide_eq_true_eq] at heq
  obtain ⟨hfind, hlower, hlt, hroot, hsize, hargs, hsum, hco, hfault⟩ := heq
  obtain ⟨s₁, hm⟩ := merges_shiftDown hfind hlower hlt hroot hsize hargs hsum hco
  refine ⟨s, s₁, _, hs, hm, ?_⟩
  revert hfault
  cases s.deleteEntryLatched (charKey 1) with
  | ok r => exact fun hc => (by cases hc)
  | error r =>
    intro hfault
    obtain ⟨he, hl⟩ := Prod.mk.inj (Option.some.inj hfault)
    exact ⟨r.2, by rw [← he], hl⟩

end IxIndexHandle

end Rmdb
