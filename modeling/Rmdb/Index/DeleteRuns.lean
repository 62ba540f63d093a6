import Rmdb.Index.DeleteEntry

namespace Rmdb

open Lib Std

namespace IxIndexHandle

/-!
# Runs of `insert_entry` and `delete_entry`

* `IxOp`, `indexCalls` — any sequence of the two calls on a fresh index;
* `Deletes` — what `delete_entry` is for;
* `IxOp.GoesWell` — the calls that keep the tree;
* `deleteEntry_btree` — after any run of these, the index is a B+ tree, and the deletions that go well
  do what they are for;
* `first_key_loses_leaf` — one that does not.
-/

variable {K : Type} {s s' : IxIndexHandle K} {leaves : List Int} {levels : List (List Int)}

/-- A call of the index. -/
inductive IxOp (K : Type) where
  | insert (key : K) (value : Rid)
  | delete (key : K)

section Ord

variable [Ord K]

/-- **What `delete_entry` is for**: the index loses the pair of the key, and it is a B+ tree again. -/
structure Deletes (s s' : IxIndexHandle K) (key : K) : Prop where
  btree : IsBTree s'
  contents : ∀ e, s'.Contains e ↔ s.Contains e ∧ compare key e.1 ≠ .eq

variable [Inhabited K] [DecidableEq K]

/-- Any calls on a fresh index. -/
def indexCalls (cols : List IxCol) : TransitionSystem (IxIndexHandle K) (IxOp K) where
  init s := createIndex cols = .ok s
  step s op s' :=
    match op with
    | .insert key value => ∃ p, s.insertEntry key value = .ok (p, s')
    | .delete key => s.deleteEntry key = .ok s'

/-- The calls that keep the tree: an insertion in which every call of `IxNodeHandle::insert` on an inner
    node adds its pair, if the key is new, and a deletion that goes well. -/
def IxOp.GoesWell (s : IxIndexHandle K) (op : IxOp K) (s' : IxIndexHandle K) : Prop :=
  match op with
  | .insert _ _ => InnerCallsAdd s'
  | .delete key => s.SafeDelete key

variable [TransOrd K]

/-- **A call that goes well** keeps the invariant. -/
theorem Tree.step {cols : List IxCol} {op : IxOp K} (h : Tree s leaves levels)
    (hstep : (indexCalls cols).step s op s') (hop : op.GoesWell s s') :
    ∃ leaves' levels', Tree s' leaves' levels' := by
  cases op with
  | insert key value =>
    obtain ⟨p, hins⟩ := hstep
    obtain ⟨p', s₁, hins', -, hspec⟩ := insertEntry_spec h key value
    rw [hins] at hins'
    cases hins'
    obtain ⟨leaves', levels', htree, -⟩ := hspec hop
    exact ⟨leaves', levels', htree⟩
  | delete key =>
    obtain ⟨p, hfind, hleaf⟩ := hop
    have hdel : s.deleteEntry key = .ok s' := hstep
    -- the call has returned, so `erase_pair` has found a pair
    have hpos : (s.page p).lowerBound key < (s.page p).numKey := by
      unfold IxIndexHandle.deleteEntry at hdel
      obtain ⟨q, hq, hdel⟩ := bind_eq_ok.mp hdel
      obtain rfl : p = q := Except.ok.inj (hfind.symm.trans hq)
      obtain ⟨n, hn, -⟩ := bind_eq_ok.mp hdel
      unfold IxNode.erasePair at hn
      split at hn
      · cases hn
      · rename_i hlt
        exact Nat.lt_of_not_le hlt
    obtain ⟨s₁, hrun, leaves', levels', -, -, htree, -⟩ := h.deleteEntry hfind hleaf hpos
    rw [hdel] at hrun
    cases hrun
    exact ⟨leaves', levels', htree⟩

/-- **The invariant along a run.** -/
theorem tree_of_reachable {cols : List IxCol}
    (h : ((indexCalls cols).restrict IxOp.GoesWell).Reachable s) :
    ∃ leaves levels, Tree s leaves levels := by
  refine h.invariant (I := fun s => ∃ leaves levels, Tree s leaves levels) (fun s hinit => ?_)
    fun s op s' ⟨leaves, levels, htree⟩ ⟨hstep, hop⟩ => htree.step hstep hop
  obtain ⟨btreeOrder, horder, rfl⟩ := createIndex_ok hinit
  exact ⟨[2], [], tree_create horder⟩

end Ord

/-- **Deletions in runs.** In every run whose calls go well the index is a B+ tree, and a deletion that
    goes well takes out the pair of a key of the tree and leaves a B+ tree. -/
theorem deleteEntry_btree (cols : List IxCol) (s : IxIndexHandle (IxKey cols))
    (hrun : ((indexCalls cols).restrict IxOp.GoesWell).Reachable s) :
    IsBTree s ∧ ∀ (key : IxKey cols) (e : IxKey cols × Rid), s.Contains e → compare key e.1 = .eq →
      s.SafeDelete key → ∃ s', s.deleteEntry key = .ok s' ∧ Deletes s s' key := by
  obtain ⟨leaves, levels, htree⟩ := tree_of_reachable hrun
  refine ⟨htree.isBTree, fun key e he hkey hsafe => ?_⟩
  obtain ⟨s', hdel, leaves', levels', htree', hcontents⟩ :=
    deleteEntry_spec htree hsafe (htree.contains_iff.mp he) hkey
  refine ⟨s', hdel, htree'.isBTree, fun e' => ?_⟩
  rw [htree'.contains_iff, htree.contains_iff]
  exact hcontents e'

/-- A run of insertions. -/
theorem reachable_insertEntries {cols : List IxCol} {ops : List (IxKey cols × Rid)}
    {s₀ s : IxIndexHandle (IxKey cols)} (hcreate : createIndex cols = .ok s₀)
    (hrun : s₀.insertEntries ops = .ok s) (hcalls : InnerCallsAdd s) :
    ((indexCalls cols).restrict IxOp.GoesWell).Reachable s := by
  induction ops using List.reverseRecOn generalizing s with
  | nil =>
    cases hrun
    exact .init hcreate
  | append_singleton ops op ih =>
    obtain ⟨s₁, p, hrun₁, hop⟩ := insertEntries_snoc.mp hrun
    have hprev := ih hrun₁ fun c hc => hcalls c (insertCalls_insertEntry hop hc)
    exact .step (a := .insert op.1 op.2) hprev ⟨⟨p, hop⟩, hcalls⟩

/-- Seven insertions and a deletion leave six keys in two leaves. -/
theorem six_keys : ∃ s : IxIndexHandle (IxKey [(.string, 512)]),
    ((indexCalls [(.string, 512)]).restrict IxOp.GoesWell).Reachable s ∧
      s.Node 2 1 ∧ s.Node 3 1 ∧ (s.page 2).isLeaf = true ∧ (s.page 3).isLeaf = true ∧
      (s.page 2).entries = [(charKey 0, ⟨1, 0⟩), (charKey 1, ⟨1, 1⟩), (charKey 2, ⟨1, 2⟩)] ∧
      (charKey 3, ⟨1, 3⟩) ∈ (s.page 3).entries ∧ s.SafeDelete (charKey 1) ∧
      ∃ s', s.deleteEntry (charKey 0) = .ok s' ∧ s'.rootPage = 2 ∧ (s'.page 2).isLeaf = true ∧
        (s'.page 2).entries = [(charKey 1, ⟨1, 1⟩), (charKey 2, ⟨1, 2⟩)] := by
  have hrun : ((create 6).insertEntries (charKeys 7)).toOption.map (fun s => decide (
      CallsAdd s ∧ (s.findLeafPage (charKey 6)).toOption = some 3 ∧
      s.minSize < (s.page 3).numKey ∧
      (s.deleteEntry (charKey 6)).toOption.map (fun s₁ => decide (
        (s₁.rootPage = 4 ∧ (s₁.page 4).isLeaf = false ∧ (s₁.page 4).numKey = 2 ∧
          (s₁.page 4).valueAt 0 = 2 ∧ (s₁.page 4).valueAt 1 = 3 ∧ (s₁.page 4).isRootPage = true) ∧
        ((s₁.page 2).isLeaf = true ∧ (s₁.page 3).isLeaf = true ∧ (s₁.page 2).entries =
            [(charKey 0, ⟨1, 0⟩), (charKey 1, ⟨1, 1⟩), (charKey 2, ⟨1, 2⟩)] ∧
          (charKey 3, ⟨1, 3⟩) ∈ (s₁.page 3).entries) ∧
        ((s₁.findLeafPage (charKey 1)).toOption = some 2 ∧ (s₁.page 2).parent = 4 ∧
          (s₁.page 2).lowerBound (charKey 1) = 1 ∧ (s₁.page 2).numKey = 3 ∧
          (s₁.page 3).numKey = 3 ∧ s₁.minSize = 3 ∧ (s₁.page 3).prevLeaf = 2) ∧
        (s₁.deleteEntry (charKey 0)).toOption.map (fun s' => decide (
          s'.rootPage = 2 ∧ (s'.page 2).isLeaf = true ∧
          (s'.page 2).entries = [(charKey 1, ⟨1, 1⟩), (charKey 2, ⟨1, 2⟩)])) = some true)) =
        some true)) = some true := by
    decide +kernel
  obtain ⟨s₀, hs₀, heq⟩ := toOption_map_eq_some.mp hrun
  obtain ⟨hcalls, hfind₀, hmany, hdel⟩ := of_decide_eq_true heq
  obtain ⟨s, hs, heq⟩ := toOption_map_eq_some.mp hdel
  obtain ⟨⟨hroot, hinner, hkids, hfirst, hsecond, hrootPage⟩, ⟨hleaf₂, hleaf₃, hentries, hthree⟩,
    ⟨hfind, hparent, hpos, hsize, hsize', hmin, hprev⟩, hdel'⟩ := of_decide_eq_true heq
  obtain ⟨s', hs', heq⟩ := toOption_map_eq_some.mp hdel'
  have hnode : ∀ i < 2, s.Node ((s.page 4).valueAt i) 1 := by
    intro i hi
    have hchild := Node.child (s := s) (i := i) .root (by rw [hroot, hinner])
      (by rw [hroot, hkids]; exact hi)
    rwa [hroot] at hchild
  refine ⟨s, ?_, ?_, ?_, hleaf₂, hleaf₃, hentries, hthree, ?_, s', hs', of_decide_eq_true heq⟩
  · refine .step (a := .delete (charKey 6)) (reachable_insertEntries rfl hs₀ hcalls.inner) ⟨hs, ?_⟩
    exact ⟨3, toOption_eq_some.mp hfind₀, Or.inr (Or.inl hmany)⟩
  · rw [← hfirst]
    exact hnode 0 Nat.zero_lt_two
  · rw [← hsecond]
    exact hnode 1 Nat.one_lt_two
  · refine ⟨2, toOption_eq_some.mp hfind, Or.inr (Or.inr ⟨0, Nat.zero_le _, ?_, ?_⟩)⟩
    · rw [hparent]
      exact hfirst
    · rw [hparent, hsecond, hpos, hsize, hsize', hmin, if_neg (by decide), hprev, hfirst]
      exact ⟨Nat.one_ne_zero, rfl, Or.inl hrootPage⟩

/-- The theorem at the second of the six keys: the two leaves merge. -/
theorem deleteEntry_btree_six_keys : ∃ s s' : IxIndexHandle (IxKey [(.string, 512)]),
    ((indexCalls [(.string, 512)]).restrict IxOp.GoesWell).Reachable s ∧
      s.deleteEntry (charKey 1) = .ok s' ∧ Deletes s s' (charKey 1) := by
  obtain ⟨s, hreach, hnode, -, hleaf, -, hentries, -, hsafe, -⟩ := six_keys
  have hmem : s.Contains (charKey 1, ⟨1, 1⟩) := by
    refine ⟨2, 1, hnode, hleaf, ?_⟩
    rw [hentries]
    decide +kernel
  obtain ⟨s', hs', hdeletes⟩ :=
    (deleteEntry_btree _ s hreach).2 (charKey 1) _ hmem ReflCmp.compare_self hsafe
  exact ⟨s, s', hreach, hs', hdeletes⟩

/-- **A leaf is lost with the first key.** When the first of the six keys is deleted, the first leaf is
    taken for the second one: its two pairs go behind those of the other leaf, and then the pointer to
    that leaf is erased. -/
theorem first_key_loses_leaf : ∃ s : IxIndexHandle (IxKey [(.string, 512)]),
    (indexCalls [(.string, 512)]).Reachable s ∧ IsBTree s ∧ s.Contains (charKey 0, ⟨1, 0⟩) ∧
      ¬ ∃ s', s.deleteEntry (charKey 0) = .ok s' ∧ Deletes s s' (charKey 0) := by
  obtain ⟨s, hreach, hnode₂, hnode₃, hleaf₂, hleaf₃, hentries, hthree, -, s', hs', hroot, hleaf,
    hleft⟩ := six_keys
  obtain ⟨leaves, levels, htree⟩ := tree_of_reachable hreach
  refine ⟨s, hreach.of_restrict, htree.isBTree, ⟨2, 1, hnode₂, hleaf₂, ?_⟩, ?_⟩
  · rw [hentries]
    exact List.mem_cons_self
  rintro ⟨s'', hs'', hdeletes⟩
  obtain rfl : s' = s'' := Except.ok.inj (hs'.symm.trans hs'')
  -- the root is the only node, and it does not hold the key 3
  obtain ⟨p, d, hp, -, he⟩ := (hdeletes.contents (charKey 3, ⟨1, 3⟩)).mpr
    ⟨⟨3, 1, hnode₃, hleaf₃, hthree⟩, by decide +kernel⟩
  rw [hp.eq_root (by rw [hroot, hleaf]), hroot, hleft] at he
  revert he
  decide +kernel

end IxIndexHandle

end Rmdb
