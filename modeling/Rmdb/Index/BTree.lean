import Rmdb.Index.InsertEntry

namespace Rmdb

open Lib Std

namespace IxIndexHandle

/-!
# What a B+ tree is

The invariant of the tree from the root down, without the lists of levels.

* `Node` — the pages that are nodes of the tree, with their depth;
* `Contains` — the pairs in the leaves below the root;
* `IsBTree` — sorted nodes, separators, parents, one depth, sizes, and the chain of the leaves;
* `Tree.isBTree` — the invariant of the operations gives all of these.
-/

variable {K : Type} {s : IxIndexHandle K} {below leaves lvl : List Int}
  {levels rest : List (List Int)} {p : Int}

/-- The nodes of the tree and their depths. -/
inductive Node (s : IxIndexHandle K) : Int → Nat → Prop
  | root : Node s s.rootPage 0
  | child {p : Int} {d i : Nat} (hp : Node s p d) (hinner : (s.page p).isLeaf = false)
      (hi : i < (s.page p).numKey) : Node s ((s.page p).valueAt i) (d + 1)

/-- The pairs in the leaves below the root. -/
def Contains (s : IxIndexHandle K) (e : K × Rid) : Prop :=
  ∃ p d, s.Node p d ∧ (s.page p).isLeaf = true ∧ e ∈ (s.page p).entries

/-- **A B+ tree** with a chain of leaves. -/
structure IsBTree [Ord K] (s : IxIndexHandle K) : Prop where
  /-- The keys of a node increase. -/
  sorted : ∀ p d, s.Node p d → ∀ i j, i < j → j < (s.page p).numKey →
    compare ((s.page p).keys i) ((s.page p).keys j) = .lt
  /-- A key of an inner node is the first key of the child. -/
  separators : ∀ p d, s.Node p d → (s.page p).isLeaf = false → ∀ i < (s.page p).numKey,
    (s.page p).keys i = (s.page ((s.page p).valueAt i)).keys 0
  /-- The root has no parent. -/
  rootParent : (s.page s.rootPage).parent = -1
  /-- The parent of a node is the node that points to it. -/
  parents : ∀ p d, s.Node p d → (s.page p).isLeaf = false → ∀ i < (s.page p).numKey,
    (s.page ((s.page p).valueAt i)).parent = p
  /-- All leaves have one depth. -/
  depth : ∃ h, ∀ p d, s.Node p d → (s.page p).isLeaf = true → d = h
  /-- The sizes of the nodes other than the root. -/
  size : ∀ p d, s.Node p d → p ≠ s.rootPage →
    s.minSize ≤ (s.page p).numKey ∧ (s.page p).numKey ≤ s.maxSize - 1
  /-- From `first_leaf_` on, `next_leaf` goes through the leaves in the order of their keys, to
      `last_leaf_`. -/
  chain : ∃ leaves, LeafChain s leaves ∧ leaves.Nodup ∧ Increasing (s.contents leaves) ∧
    ∀ p, p ∈ leaves ↔ (∃ d, s.Node p d) ∧ (s.page p).isLeaf = true

/-! ### Levels and depths -/

/-- A root that is a leaf is the only node. -/
theorem Node.eq_root {p : Int} {d : Nat} (hroot : (s.page s.rootPage).isLeaf = true)
    (hp : s.Node p d) : p = s.rootPage := by
  induction hp with
  | root => rfl
  | child hp hinner hi ih =>
    rw [ih, hroot] at hinner
    cases hinner

/-- A node of the lowest level is as deep as there are levels above it. -/
theorem Shape.node (h : Shape s below levels) : ∀ p ∈ below, s.Node p levels.length := by
  induction h with
  | root hr hp =>
    intro p hp
    rw [List.mem_singleton] at hp
    subst hp
    rw [← hr]
    exact .root
  | level hlink hrest ih =>
    intro c hc
    obtain ⟨hP, hcP⟩ := hlink.exists_parent hc
    obtain ⟨i, hi, -, hval⟩ := findChild_of_mem hcP
    rw [← hval]
    exact .child (ih _ hP) (hlink.inner _ hP) hi

/-- The levels above a level of the tree. -/
theorem Upper.suffix {pre : List (List Int)} (h : Upper s below levels)
    (hl : below :: levels = pre ++ lvl :: rest) : Upper s lvl rest := by
  induction pre generalizing below levels with
  | nil =>
    obtain ⟨rfl, rfl⟩ := List.cons.inj hl
    exact h
  | cons b pre ih =>
    obtain ⟨rfl, hl'⟩ := List.cons.inj hl
    cases levels with
    | nil => simp at hl'
    | cons l levels => exact ih h.tail hl'

theorem Upper.suffix_increasing [Ord K] {pre : List (List Int)} (h : Upper s below levels)
    (hinc : IncreasingKeys s below) (hl : below :: levels = pre ++ lvl :: rest) :
    IncreasingKeys s lvl := by
  induction pre generalizing below levels with
  | nil =>
    obtain ⟨rfl, rfl⟩ := List.cons.inj hl
    exact hinc
  | cons b pre ih =>
    obtain ⟨rfl, hl'⟩ := List.cons.inj hl
    cases levels with
    | nil => simp at hl'
    | cons l levels => exact ih h.tail (h.increasing_up hinc) hl'

/-- The top level is the root. -/
theorem Shape.exists_top (h : Shape s below levels) :
    ∃ pre, below :: levels = pre ++ [[s.rootPage]] := by
  induction h with
  | root hr hp => exact ⟨[], by rw [hr]; rfl⟩
  | level hlink hrest ih =>
    obtain ⟨pre, hpre⟩ := ih
    exact ⟨_ :: pre, by rw [hpre]; rfl⟩

/-- A node at depth `d` is on the level with `d` levels above it. -/
theorem Upper.level_of_node (h : Upper s below levels)
    (hleaf : ∀ p ∈ below, (s.page p).isLeaf = true) {d : Nat} (hp : s.Node p d) :
    ∃ pre lvl rest, below :: levels = pre ++ lvl :: rest ∧ rest.length = d ∧ p ∈ lvl := by
  induction hp with
  | root =>
    obtain ⟨pre, hpre⟩ := h.shape.exists_top
    exact ⟨pre, _, [], hpre, rfl, List.mem_singleton_self _⟩
  | child hp hinner hi ih =>
    obtain ⟨pre, lvl, rest, hl, hlen, hmem⟩ := ih
    rcases List.eq_nil_or_concat pre with rfl | ⟨pre, b, rfl⟩
    · -- an inner node is not on the lowest level
      obtain ⟨rfl, -⟩ := List.cons.inj hl
      rw [hleaf _ hmem] at hinner
      cases hinner
    · rw [List.concat_eq_append, List.append_assoc, List.singleton_append] at hl
      refine ⟨pre, b, lvl :: rest, hl, by rw [List.length_cons, hlen], ?_⟩
      exact (h.suffix hl).linked.mem_below hmem (valueAt_mem_children hi)

/-- A node is on the lowest level, or it is an inner node with a level below it. -/
theorem Upper.leaf_or_inner (h : Upper s below levels)
    (hleaf : ∀ p ∈ below, (s.page p).isLeaf = true) {d : Nat} (hp : s.Node p d) :
    ((s.page p).isLeaf = true ∧ p ∈ below ∧ d = levels.length) ∨
      (s.page p).isLeaf = false ∧ ∃ pre b lvl rest, below :: levels = pre ++ b :: lvl :: rest ∧
        rest.length = d ∧ p ∈ lvl := by
  obtain ⟨pre, lvl, rest, hl, rfl, hmem⟩ := h.level_of_node hleaf hp
  rcases List.eq_nil_or_concat pre with rfl | ⟨pre, b, rfl⟩
  · obtain ⟨rfl, rfl⟩ := List.cons.inj hl
    exact Or.inl ⟨hleaf p hmem, hmem, rfl⟩
  · rw [List.concat_eq_append, List.append_assoc, List.singleton_append] at hl
    exact Or.inr ⟨(h.suffix hl).linked.inner p hmem, pre, b, lvl, rest, hl, rfl, hmem⟩

/-- An inner node, with the level below it. -/
theorem Upper.inner_level (h : Upper s below levels)
    (hleaf : ∀ p ∈ below, (s.page p).isLeaf = true) {d : Nat} (hp : s.Node p d)
    (hinner : (s.page p).isLeaf = false) : ∃ pre b lvl rest,
      below :: levels = pre ++ b :: lvl :: rest ∧ p ∈ lvl := by
  rcases h.leaf_or_inner hleaf hp with ⟨hl, -⟩ | ⟨-, pre, b, lvl, rest, hl, -, hmem⟩
  · rw [hl] at hinner
    cases hinner
  · exact ⟨pre, b, lvl, rest, hl, hmem⟩

theorem mem_entries {i : Nat} (hi : i < (s.page p).numKey) :
    ((s.page p).keys i, (s.page p).rids i) ∈ (s.page p).entries := by
  rw [List.mem_iff_getElem?]
  exact ⟨i, by rw [IxNode.getElem?_entries, if_pos hi]⟩

/-- Increasing pairs, slot by slot. -/
theorem lt_of_increasing [Ord K] (h : Increasing (s.page p).entries) {i j : Nat} (hij : i < j)
    (hj : j < (s.page p).numKey) : compare ((s.page p).keys i) ((s.page p).keys j) = .lt := by
  have hlen := IxNode.length_entries (s.page p)
  have hpair := List.pairwise_iff_getElem.mp h i j (by omega) (by omega) hij
  have hget : ∀ k (hk : k < (s.page p).entries.length),
      (s.page p).entries[k].1 = (s.page p).keys k := by
    intro k hk
    have := IxNode.getElem?_entries (s.page p) k
    rw [if_pos (by omega), List.getElem?_eq_getElem hk] at this
    rw [Option.some.inj this]
  rw [hget, hget] at hpair
  exact hpair

/-- The leaves are the nodes of the lowest level. -/
theorem Tree.mem_leaves_iff [Ord K] (h : Tree s leaves levels) :
    p ∈ leaves ↔ (∃ d, s.Node p d) ∧ (s.page p).isLeaf = true := by
  refine ⟨fun hp => ⟨⟨_, h.upper.shape.node p hp⟩, h.isLeaf p hp⟩, ?_⟩
  rintro ⟨⟨d, hp⟩, hleaf⟩
  rcases h.upper.leaf_or_inner h.isLeaf hp with ⟨-, hmem, -⟩ | ⟨hinner, -⟩
  · exact hmem
  · rw [hleaf] at hinner
    cases hinner

/-- **The invariant of the operations describes a B+ tree.** -/
theorem Tree.isBTree [Ord K] (h : Tree s leaves levels) : IsBTree s where
  sorted p d hp i j hij hj := by
    rcases h.upper.leaf_or_inner h.isLeaf hp with ⟨-, hmem, -⟩ | ⟨-, pre, b, lvl, rest, hl, -, hmem⟩
    · exact lt_of_increasing (h.leaf_sorted hmem) hij hj
    · have hup := h.upper.suffix hl
      exact lt_of_increasing (hup.linked.increasing_entries (hup.seps _ List.mem_cons_self)
        (h.upper.suffix_increasing h.increasingKeys hl) hmem) hij hj
  separators p d hp hinner i hi := by
    obtain ⟨pre, b, lvl, rest, hl, hmem⟩ := h.upper.inner_level h.isLeaf hp hinner
    exact (h.upper.suffix hl).seps _ List.mem_cons_self p hmem _ (mem_entries hi)
  rootParent := by
    obtain ⟨pre, hpre⟩ := h.upper.shape.exists_top
    have hshape := (h.upper.suffix hpre).shape
    cases hshape with
    | root hr hparent => exact hparent
  parents p d hp hinner i hi := by
    obtain ⟨pre, b, lvl, rest, hl, hmem⟩ := h.upper.inner_level h.isLeaf hp hinner
    exact (h.upper.suffix hl).linked.parent p hmem _ (valueAt_mem_children hi)
  depth := by
    refine ⟨levels.length, fun p d hp hleaf => ?_⟩
    rcases h.upper.leaf_or_inner h.isLeaf hp with ⟨-, -, hd⟩ | ⟨hinner, -⟩
    · exact hd
    · rw [hleaf] at hinner
      cases hinner
  size p d hp hroot := by
    -- a level without levels above is the root
    have htop : ∀ pre lvl, leaves :: levels = pre ++ [lvl] → p ∉ lvl := by
      intro pre lvl hl hmem
      have hshape := (h.upper.suffix hl).shape
      cases hshape with
      | root hr hparent =>
        rw [List.mem_singleton] at hmem
        exact hroot (hmem.trans hr.symm)
    rcases h.upper.leaf_or_inner h.isLeaf hp with ⟨-, hmem, -⟩ | ⟨-, pre, b, lvl, rest, hl, -, hmem⟩
    · have hsz := h.filled p hmem
      refine ⟨hsz.2 fun hlevels => ?_, Nat.le_sub_one_of_lt hsz.1⟩
      exact htop [] leaves (by rw [hlevels]; rfl) hmem
    · have hsz := (h.upper.suffix hl).filled.1 p hmem
      refine ⟨hsz.2.2 fun hrest => ?_, Nat.le_sub_one_of_lt hsz.2.1⟩
      exact htop (pre ++ [b]) lvl (by rw [hl, hrest, List.append_assoc]; rfl) hmem
  chain :=
    ⟨leaves, h.chain, h.upper.below_nodup, h.sorted, fun _ => h.mem_leaves_iff⟩

/-- The pairs of a tree are those of its leaves. -/
theorem Tree.contains_iff [Ord K] (h : Tree s leaves levels) {e : K × Rid} :
    s.Contains e ↔ e ∈ s.contents leaves := by
  constructor
  · rintro ⟨p, d, hp, hleaf, he⟩
    exact List.mem_flatMap.mpr ⟨p, h.mem_leaves_iff.mpr ⟨⟨d, hp⟩, hleaf⟩, he⟩
  · intro he
    obtain ⟨p, hp, he⟩ := List.mem_flatMap.mp he
    obtain ⟨⟨d, hnode⟩, hleaf⟩ := h.mem_leaves_iff.mp hp
    exact ⟨p, d, hnode, hleaf, he⟩

end IxIndexHandle

end Rmdb
