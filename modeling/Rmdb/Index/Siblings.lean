import Rmdb.Index.InsertRuns

namespace Rmdb

open Lib Std

namespace IxIndexHandle

/-!
# The sibling of an underfull node

`coalesce_or_redistribute` looks for the node in its parent, takes the first child as its sibling (the
second one for the first child), and passes `lower_bound` of the node's first key in the parent as the
node's position.

* `siblingArgs` — the sibling and the position; `coalesceOrRedistribute_eq` — where they go;
* `NextTo` — the sibling is the left neighbour, or the right one of the first child, and the position
  is the node's;
* `siblingArgs_nextTo_iff` — when they are: for the first two children, if the erased pair was not the
  node's first.
-/

variable {K : Type} [Ord K] {s s₀ : IxIndexHandle K} {p : Int}

/-- The sibling and the position that `coalesce_or_redistribute` passes on. -/
def siblingArgs (s : IxIndexHandle K) (p : Int) : Except IxError (Int × Nat) := do
  let n := s.page p
  let father := s.page n.parent
  let index ← father.findChild p
  let brother := if index = 0 then father.valueAt 1 else father.valueAt 0
  return (brother, father.lowerBound (n.keys 0))

/-- `coalesce_or_redistribute` of an underfull node. -/
theorem coalesceOrRedistribute_eq [DecidableEq K] (fuel : Nat)
    (hroot : (s.page p).isRootPage = false) (hsize : (s.page p).numKey < s.minSize) :
    coalesceOrRedistribute (fuel + 1) s p = (do
      let (brother, pos) ← s.siblingArgs p
      if 2 * s.minSize ≤ (s.page p).numKey + (s.page brother).numKey then s.redistribute brother p pos
      else
        let s' ← s.coalesce brother p (s.page p).parent pos
        coalesceOrRedistribute fuel s' (s.page p).parent) := by
  rw [coalesceOrRedistribute, hroot, if_neg Bool.false_ne_true, if_neg (Nat.not_le.mpr hsize)]
  unfold siblingArgs
  dsimp only
  cases (s.page (s.page p).parent).findChild p with
  | error e => rfl
  | ok index => rfl

/-- **The sibling is next to the node**, on the left if there is one, and the position is the node's. -/
def NextTo (s : IxIndexHandle K) (p brother : Int) (pos : Nat) : Prop :=
  let father := s.page (s.page p).parent
  pos < father.numKey ∧ father.valueAt pos = p ∧
    if pos = 0 then 1 < father.numKey ∧ brother = father.valueAt 1
    else brother = father.valueAt (pos - 1)

variable {leaves below lvl : List Int} {pre levels rest : List (List Int)}

/-- A node below the root, with its place in its parent. -/
theorem Upper.exists_place (hup : Upper s below (lvl :: rest)) (hinc : IncreasingKeys s below)
    (hp : p ∈ below) : ∃ i, i < (s.page (s.page p).parent).numKey ∧
      1 < (s.page (s.page p).parent).numKey ∧
      (s.page (s.page p).parent).findChild p = .ok i ∧
      (s.page (s.page p).parent).valueAt i = p ∧
      (s.page (s.page p).parent).keys i = s.firstKey p ∧
      Increasing (s.page (s.page p).parent).entries ∧
      (s.children (s.page p).parent).Nodup := by
  obtain ⟨hq, hchild⟩ := hup.linked.exists_parent hp
  obtain ⟨i, hi, hfind, hval⟩ := findChild_of_mem hchild
  have hsep := hup.seps _ List.mem_cons_self _ hq _ (mem_entries hi)
  have hval' : ((s.page (s.page p).parent).rids i).pageNo = p := hval
  rw [hval'] at hsep
  refine ⟨i, hi, (hup.filled.1 _ hq).1, hfind, hval, hsep, ?_, ?_⟩
  · exact hup.linked.increasing_entries (hup.seps _ List.mem_cons_self) hinc hq
  · exact hup.linked.children_nodup hup.below_nodup hq

theorem Tree.exists_place (h : Tree s leaves levels) (hl : leaves :: levels = pre ++ below :: lvl :: rest)
    (hp : p ∈ below) : ∃ i, i < (s.page (s.page p).parent).numKey ∧
      1 < (s.page (s.page p).parent).numKey ∧
      (s.page (s.page p).parent).findChild p = .ok i ∧
      (s.page (s.page p).parent).valueAt i = p ∧
      (s.page (s.page p).parent).keys i = s.firstKey p ∧
      Increasing (s.page (s.page p).parent).entries ∧
      (s.children (s.page p).parent).Nodup :=
  (h.upper.suffix hl).exists_place (h.upper.suffix_increasing h.increasingKeys hl) hp

/-- A parent finds its children by their first keys. -/
theorem Upper.lowerBound_valueAt [TransOrd K] (hup : Upper s below (lvl :: rest))
    (hinc : IncreasingKeys s below) {P : Int} (hP : P ∈ lvl) {i : Nat} (hi : i < (s.page P).numKey) :
    (s.page P).lowerBound (s.firstKey ((s.page P).valueAt i)) = i := by
  have hsep := hup.seps _ List.mem_cons_self P hP _ (mem_entries hi)
  have hkey : s.firstKey ((s.page P).valueAt i) = (s.page P).keys i := hsep.symm
  have hentries := hup.linked.increasing_entries (hup.seps _ List.mem_cons_self) hinc hP
  have hget : (s.page P).entries[i]? = some ((s.page P).keys i, (s.page P).rids i) := by
    rw [IxNode.getElem?_entries, if_pos hi]
  rw [IxNode.lowerBound_eq, hkey]
  exact hentries.lowerIdx_eq hget

/-- What is passed on for one of the first two children. -/
theorem Upper.siblingArgs_eq [TransOrd K] (hup : Upper s below (lvl :: rest))
    (hinc : IncreasingKeys s below) (hp : p ∈ below) {j : Nat} (hj : j ≤ 1)
    (hval : (s.page (s.page p).parent).valueAt j = p) :
    s.siblingArgs p = .ok ((s.page (s.page p).parent).valueAt (1 - j), j) := by
  obtain ⟨i, hi, htwo, hfind, hval', -, -, hnd⟩ := hup.exists_place hinc hp
  obtain rfl : j = i := valueAt_inj hnd (by omega) hi (hval.trans hval'.symm)
  have hplace := hup.lowerBound_valueAt hinc (hup.linked.exists_parent hp).1 hi
  rw [hval] at hplace
  have hbrother : (if j = 0 then (s.page (s.page p).parent).valueAt 1
      else (s.page (s.page p).parent).valueAt 0) = (s.page (s.page p).parent).valueAt (1 - j) := by
    by_cases h0 : j = 0
    · rw [if_pos h0, h0]
    · rw [if_neg h0, show 1 - j = 0 by omega]
  unfold siblingArgs
  dsimp only
  rw [hfind]
  show Except.ok (_, (s.page (s.page p).parent).lowerBound (s.firstKey p)) = _
  rw [hplace, hbrother]

/-- The pairs of a node below the root: they increase, and there are at least two. -/
theorem Tree.two_pairs (h : Tree s leaves levels) (hl : leaves :: levels = pre ++ below :: lvl :: rest)
    (hp : p ∈ below) : 2 ≤ (s.page p).numKey ∧ Increasing (s.page p).entries := by
  have horder := h.order
  cases pre with
  | nil =>
    obtain ⟨rfl, rfl⟩ := List.cons.inj hl
    have hmin := (h.filled p hp).2 (List.cons_ne_nil _ _)
    unfold minSize maxSize at hmin
    exact ⟨by omega, h.leaf_sorted hp⟩
  | cons l pre =>
    obtain ⟨pre', b, hpre⟩ : ∃ pre' b, l :: pre = pre' ++ [b] :=
      ⟨(l :: pre).dropLast, (l :: pre).getLast (List.cons_ne_nil _ _),
        (List.dropLast_append_getLast _).symm⟩
    rw [hpre, List.append_assoc, List.singleton_append] at hl
    have hup := h.upper.suffix hl
    refine ⟨(hup.filled.1 p hp).1, ?_⟩
    exact hup.linked.increasing_entries (hup.seps _ List.mem_cons_self)
      (h.upper.suffix_increasing h.increasingKeys hl) hp

/-- **When the arguments are right.** A node below the root has lost the pair number `pos₀`: its
    sibling and its position are passed on correctly exactly if it is one of the first two children and
    the pair was not its first. -/
theorem siblingArgs_nextTo_iff [TransOrd K] (h : Tree s₀ leaves levels)
    (hl : leaves :: levels = pre ++ below :: lvl :: rest) (hp : p ∈ below) {pos₀ : Nat}
    (herase : (s₀.page p).erasePair pos₀ = .ok (s.page p))
    (hfather : s.page (s₀.page p).parent = s₀.page (s₀.page p).parent) :
    (∃ brother pos, s.siblingArgs p = .ok (brother, pos) ∧ s.NextTo p brother pos) ↔
      pos₀ ≠ 0 ∧ ∃ i ≤ 1, (s₀.page (s₀.page p).parent).valueAt i = p := by
  obtain ⟨i, hi, htwo, hfind, hval, hsep, hinc, hnd⟩ := h.exists_place hl hp
  obtain ⟨hsize, hpairs⟩ := h.two_pairs hl hp
  have hself : s.page p = (s₀.page p).shiftDown pos₀ := by
    unfold IxNode.erasePair at herase
    split at herase
    · cases herase
    · exact (Except.ok.inj herase).symm
  have hparent : (s.page p).parent = (s₀.page p).parent := by
    rw [hself]
    rfl
  generalize hfa : s₀.page (s₀.page p).parent = father at *
  have hargs : s.siblingArgs p = .ok (if i = 0 then father.valueAt 1 else father.valueAt 0,
      father.lowerBound ((s.page p).keys 0)) := by
    unfold siblingArgs
    dsimp only
    rw [hparent, hfather, hfind]
    rfl
  have hget : father.entries[i]? = some (father.keys i, father.rids i) := by
    rw [IxNode.getElem?_entries, if_pos hi]
  have hinj : ∀ {a b}, a < father.numKey → b < father.numKey →
      father.valueAt a = father.valueAt b → a = b := by
    intro a b ha hb hab
    rw [← hfa] at ha hb hab
    exact valueAt_inj hnd ha hb hab
  -- the position is right exactly if the first key has stayed
  have hplace : father.lowerBound ((s.page p).keys 0) = i ↔ pos₀ ≠ 0 := by
    rw [IxNode.lowerBound_eq, hself]
    have hkey : ((s₀.page p).shiftDown pos₀).keys 0 =
        if 0 < pos₀ then (s₀.page p).keys 0 else (s₀.page p).keys 1 := by
      unfold IxNode.shiftDown
      dsimp only
      split
      · rfl
      · rw [if_pos (by omega)]
    rw [hkey]
    by_cases h0 : 0 < pos₀
    · rw [if_pos h0]
      have hfirst : (s₀.page p).keys 0 = father.keys i := hsep.symm
      rw [hfirst]
      exact ⟨fun _ => by omega, fun _ => hinc.lowerIdx_eq hget⟩
    · rw [if_neg h0]
      refine ⟨fun hidx => ?_, fun hne => absurd hne (by omega)⟩
      have hle := (hinc.lowerIdx_le_iff (k := (s₀.page p).keys 1) hget).mp (Nat.le_of_eq hidx)
      have hlt := lt_of_increasing hpairs Nat.zero_lt_one hsize
      have hfirst : father.keys i = (s₀.page p).keys 0 := hsep
      rw [hfirst, OrientedCmp.gt_of_lt hlt] at hle
      cases hle
  constructor
  · rintro ⟨brother, pos, hok, hnext⟩
    rw [hargs] at hok
    cases hok
    unfold NextTo at hnext
    dsimp only at hnext
    rw [hparent, hfather] at hnext
    obtain ⟨hlt, hv, hbrother⟩ := hnext
    have hposi := hinj hlt hi (hv.trans hval.symm)
    refine ⟨hplace.mp hposi, i, ?_, hval⟩
    rw [hposi] at hbrother
    by_cases h0 : i = 0
    · omega
    · rw [if_neg h0, if_neg h0] at hbrother
      have := hinj (by omega) (by omega) hbrother
      omega
  · rintro ⟨hne, j, hj, hvj⟩
    have hji : j = i := hinj (by omega) hi (hvj.trans hval.symm)
    subst hji
    refine ⟨_, _, hargs, ?_⟩
    unfold NextTo
    dsimp only
    rw [hparent, hfather, hplace.mpr hne]
    refine ⟨hi, hval, ?_⟩
    by_cases h0 : j = 0
    · rw [if_pos h0, if_pos h0]
      exact ⟨htwo, rfl⟩
    · rw [if_neg h0, if_neg h0, show j - 1 = 0 by omega]

/-- A key of an index on a `CHAR(512)` column, of which a node holds at most six. -/
def charKey (b : UInt8) : IxKey [(.string, 512)] where
  bytes := b :: List.replicate 511 0
  length_eq := by
    rw [List.length_cons, List.length_replicate]
    rfl
  noNaN := ⟨fun h => (by cases h), trivial⟩

/-- The keys 0, 1, 2 and so on. -/
def charKeys (n : Nat) : List (IxKey [(.string, 512)] × Rid) :=
  (List.range n).map fun i => (charKey (UInt8.ofNat i), ⟨1, i⟩)

/-- The theorem after seven keys, at the second key of the first of the two leaves. -/
theorem siblingArgs_seven_keys : ∃ (s₀ : IxIndexHandle (IxKey [(.string, 512)])) (n : IxNode _),
    (create 6).insertEntries (charKeys 7) = .ok s₀ ∧ (s₀.page 2).erasePair 1 = .ok n ∧
      n.numKey < s₀.minSize ∧
      ∃ brother pos, (s₀.set 2 n).siblingArgs 2 = .ok (brother, pos) ∧
        (s₀.set 2 n).NextTo 2 brother pos := by
  have hrun : ((create 6).insertEntries (charKeys 7)).toOption.map (fun s => decide (
      CallsAdd s ∧ (s.page 2).numKey = 3 ∧ s.btreeOrder = 6 ∧ s.firstLeaf = 2 ∧
      (s.page 2).parent = 4 ∧ (s.page (s.page 2).parent).valueAt 0 = 2)) = some true := by
    decide +kernel
  obtain ⟨s₀, hs₀, heq⟩ := toOption_map_eq_some.mp hrun
  simp only [decide_eq_true_eq] at heq
  obtain ⟨hcalls, hsize, horder, hfirst, hparent, hchild⟩ := heq
  obtain ⟨leaves, levels, htree, -⟩ := tree_insertEntries (by decide) hs₀ hcalls
  have hmem : (2 : Int) ∈ leaves := by
    have hhead := htree.chain.first
    rw [hfirst] at hhead
    exact List.mem_of_mem_head? hhead
  -- page 2 has a parent, so it is not the only level
  obtain ⟨lvl, rest, rfl⟩ : ∃ lvl rest, levels = lvl :: rest := by
    cases levels with
    | nil =>
      obtain ⟨r, hr⟩ := htree.upper.leaves_eq_singleton
      subst hr
      cases htree.upper.shape with
      | root hroot hp =>
        rw [List.mem_singleton.mp hmem] at hparent
        rw [hp] at hparent
        cases hparent
    | cons lvl rest => exact ⟨lvl, rest, rfl⟩
  have herase : (s₀.page 2).erasePair 1 = .ok ((s₀.page 2).shiftDown 1) := by
    unfold IxNode.erasePair
    rw [hsize]
    rfl
  have herase' : (s₀.page 2).erasePair 1 = .ok ((s₀.set 2 ((s₀.page 2).shiftDown 1)).page 2) := by
    rw [page_set, if_pos rfl]
    exact herase
  have hfather : (s₀.set 2 ((s₀.page 2).shiftDown 1)).page (s₀.page 2).parent =
      s₀.page (s₀.page 2).parent := by
    rw [page_set, hparent, if_neg (by decide)]
  have hl : leaves :: lvl :: rest = [] ++ leaves :: lvl :: rest := rfl
  refine ⟨s₀, (s₀.page 2).shiftDown 1, hs₀, herase, ?_, ?_⟩
  · show (s₀.page 2).numKey - 1 < (s₀.btreeOrder + 1) / 2
    rw [hsize, horder]
    decide
  · exact (siblingArgs_nextTo_iff htree hl hmem herase' hfather).mpr
      ⟨Nat.one_ne_zero, 0, Nat.zero_le _, hchild⟩

/-- **The position of another node.** Ten keys make three leaves.  When the second one loses its first
    key, `coalesce` gets the position of the third. -/
theorem siblingArgs_first_key : ∃ (s₀ : IxIndexHandle (IxKey [(.string, 512)])) (n : IxNode _),
    (create 6).insertEntries (charKeys 10) = .ok s₀ ∧ s₀.findLeafPage (charKey 3) = .ok 3 ∧
      (s₀.page 3).lowerBound (charKey 3) = 0 ∧ (s₀.page 3).erasePair 0 = .ok n ∧
      n.numKey < s₀.minSize ∧ (s₀.set 3 n).siblingArgs 3 = .ok (2, 2) ∧
      ¬ ∃ brother pos, (s₀.set 3 n).siblingArgs 3 = .ok (brother, pos) ∧
        (s₀.set 3 n).NextTo 3 brother pos := by
  have hrun : ((create 6).insertEntries (charKeys 10)).toOption.map (fun s => decide (
      (s.findLeafPage (charKey 3)).toOption = some 3 ∧ (s.page 3).lowerBound (charKey 3) = 0 ∧
      (s.page 3).numKey = 3 ∧ s.btreeOrder = 6 ∧ (s.page 3).parent = 4 ∧
      (s.page 4).valueAt 2 = 5 ∧
      ((s.set 3 ((s.page 3).shiftDown 0)).siblingArgs 3).toOption = some (2, 2))) = some true := by
    decide +kernel
  obtain ⟨s₀, hs₀, heq⟩ := toOption_map_eq_some.mp hrun
  simp only [decide_eq_true_eq, toOption_eq_some] at heq
  obtain ⟨hfind, hlower, hsize, horder, hparent, hchild, hargs⟩ := heq
  refine ⟨s₀, (s₀.page 3).shiftDown 0, hs₀, hfind, hlower, ?_, ?_, hargs, ?_⟩
  · unfold IxNode.erasePair
    rw [hsize]
    rfl
  · show (s₀.page 3).numKey - 1 < (s₀.btreeOrder + 1) / 2
    rw [hsize, horder]
    decide
  · rintro ⟨brother, pos, hok, hnext⟩
    rw [hargs] at hok
    cases hok
    obtain ⟨-, hval, -⟩ := hnext
    have hp : ((s₀.set 3 ((s₀.page 3).shiftDown 0)).page 3).parent = 4 := by
      rw [page_set, if_pos rfl]
      exact hparent
    rw [hp, page_set, if_neg (by decide), hchild] at hval
    cases hval

end IxIndexHandle

end Rmdb
