import Mathlib.Data.List.Chain
import Rmdb.Index.InsertParent

namespace Rmdb

open Lib Std

namespace IxIndexHandle

/-!
# The whole tree, searched and inserted into

* `Tree` — the invariant of the whole tree: the leaves, their chain and the levels above;
* `contents` — the pairs of the leaves, from left to right;
* `Tree.getValue_eq` — `get_value` looks a key up in the contents;
* `Upper.leafChanged` — `maintain_parent` after a leaf has got other pairs;
* `LeafInserted` — a tree in which a leaf has been offered a pair, and `LeafInserted.tree_of_room`,
  `LeafInserted.tree_of_full`, what becomes of it;
* `insertEntry_spec` — `insert_entry` ends and keeps the invariant; the contents get the new pair.
-/

variable {K : Type} {s s' s₁ : IxIndexHandle K} {leaves A B : List Int} {levels : List (List Int)}
  {p q : Int}

/-- The pairs of these leaves. -/
def contents (s : IxIndexHandle K) (leaves : List Int) : List (K × Rid) :=
  leaves.flatMap fun p => (s.page p).entries

/-- The contents of leaves side by side. -/
theorem contents_append (s : IxIndexHandle K) (l l' : List Int) :
    s.contents (l ++ l') = s.contents l ++ s.contents l' := List.flatMap_append

/-- The contents of the first leaf, then the rest. -/
theorem contents_cons (s : IxIndexHandle K) (p : Int) (l : List Int) :
    s.contents (p :: l) = (s.page p).entries ++ s.contents l := List.flatMap_cons

/-- The contents depend on the pairs of the leaves only. -/
theorem contents_congr {l : List Int} (h : ∀ p ∈ l, (s'.page p).entries = (s.page p).entries) :
    s'.contents l = s.contents l := List.flatMap_congr h

/-- The leaves follow each other by `next_leaf`, from `first_leaf_` to `last_leaf_`. -/
structure LeafChain (s : IxIndexHandle K) (leaves : List Int) : Prop where
  next : leaves.IsChain fun a b => (s.page a).nextLeaf = b
  first : leaves.head? = some s.firstLeaf
  last : leaves.getLast? = some s.lastLeaf

/-- The chain depends on the links of the leaves only. -/
theorem LeafChain.congr (h : LeafChain s leaves)
    (hnext : ∀ p ∈ leaves, (s'.page p).nextLeaf = (s.page p).nextLeaf)
    (hfirst : s'.firstLeaf = s.firstLeaf) (hlast : s'.lastLeaf = s.lastLeaf) :
    LeafChain s' leaves where
  next := h.next.imp_of_mem_imp fun a b ha _ hab => (hnext a ha).trans hab
  first := by rw [hfirst]; exact h.first
  last := by rw [hlast]; exact h.last

/-- How many pairs a leaf has. -/
def FilledLeaves (s : IxIndexHandle K) (leaves : List Int) (levels : List (List Int)) : Prop :=
  ∀ p ∈ leaves, (s.page p).numKey < s.maxSize ∧ (levels ≠ [] → s.minSize ≤ (s.page p).numKey)

/-- Without inner levels the root is the only leaf. -/
theorem Upper.leaves_eq_singleton (h : Upper s leaves []) : ∃ r, leaves = [r] := by
  cases h.shape with
  | root hr hp => exact ⟨_, rfl⟩

section Ord

variable [Ord K]

/-- **The invariant of the tree.** -/
structure Tree (s : IxIndexHandle K) (leaves : List Int) (levels : List (List Int)) : Prop where
  upper : Upper s leaves levels
  isLeaf : ∀ p ∈ leaves, (s.page p).isLeaf = true
  filled : FilledLeaves s leaves levels
  sorted : Increasing (s.contents leaves)
  chain : LeafChain s leaves
  order : 3 ≤ s.btreeOrder

/-- The part of the invariant that the searches need: the leaves may be chained in any way. -/
structure SearchTree (s : IxIndexHandle K) (leaves : List Int) (levels : List (List Int)) : Prop where
  upper : Upper s leaves levels
  isLeaf : ∀ p ∈ leaves, (s.page p).isLeaf = true
  filled : FilledLeaves s leaves levels
  sorted : Increasing (s.contents leaves)
  order : 3 ≤ s.btreeOrder

/-- A tree that can be changed can be searched. -/
theorem Tree.search (h : Tree s leaves levels) : SearchTree s leaves levels :=
  ⟨h.upper, h.isLeaf, h.filled, h.sorted, h.order⟩

/-- A fresh index is a tree of one empty leaf. -/
theorem tree_create [Inhabited K] {btreeOrder : Nat} (h : 3 ≤ btreeOrder) :
    Tree (create btreeOrder : IxIndexHandle K) [2] [] where
  upper := {
    shape := .root rfl rfl
    seps := fun _ hl => absurd hl List.not_mem_nil
    filled := trivial
    nodup := List.nodup_singleton _
    range := fun p hp => by
      rw [List.flatten_nil, List.append_nil, List.mem_singleton] at hp
      subst hp
      exact ⟨Int.le_refl _, show (2 : Int) < 3 by decide⟩ }
  isLeaf p hp := by
    rw [List.mem_singleton] at hp
    subst hp
    rfl
  filled p hp := by
    rw [List.mem_singleton] at hp
    subst hp
    exact ⟨Nat.succ_pos _, fun h => absurd rfl h⟩
  sorted := List.Pairwise.nil
  chain := ⟨List.IsChain.singleton _, rfl, rfl⟩
  order := h

/-! ### Searching -/

/-- The keys of a leaf stand in order. -/
theorem SearchTree.leaf_sorted (h : SearchTree s leaves levels) (hp : p ∈ leaves) :
    Increasing (s.page p).entries := by
  refine h.sorted.sublist ?_
  exact List.sublist_flatten_of_mem (List.mem_map_of_mem hp)

/-- With several leaves, none is empty. -/
theorem SearchTree.numKey_ne_zero (h : SearchTree s leaves levels) (hlevels : levels ≠ []) (hp : p ∈ leaves) :
    (s.page p).numKey ≠ 0 := by
  have hmin := (h.filled p hp).2 hlevels
  have horder := h.order
  unfold minSize maxSize at hmin
  omega

/-- The first keys of the leaves increase. -/
theorem increasingKeys_of_contents (hsorted : Increasing (s.contents leaves))
    (hne : ∀ p ∈ leaves, (s.page p).numKey ≠ 0) : IncreasingKeys s leaves := by
  induction leaves with
  | nil => exact List.Pairwise.nil
  | cons p l ih =>
    rw [contents_cons, increasing_append] at hsorted
    obtain ⟨-, hl, hcross⟩ := hsorted
    refine List.pairwise_cons.mpr ⟨fun b hb => ?_, ih hl fun q hq => hne q (List.mem_cons_of_mem _ hq)⟩
    obtain ⟨e, le, hle, he⟩ := entries_eq_cons (hne p List.mem_cons_self)
    obtain ⟨e', le', hle', he'⟩ := entries_eq_cons (hne b (List.mem_cons_of_mem _ hb))
    rw [← he, ← he']
    refine hcross e (by rw [hle]; exact List.mem_cons_self) e' (List.mem_flatMap.mpr ⟨b, hb, ?_⟩)
    rw [hle']
    exact List.mem_cons_self

/-- So do the keys of all leaves along the chain. -/
theorem SearchTree.increasingKeys (h : SearchTree s leaves levels) : IncreasingKeys s leaves := by
  by_cases hlevels : levels = []
  · subst hlevels
    obtain ⟨r, rfl⟩ := h.upper.leaves_eq_singleton
    exact List.pairwise_singleton _ _
  · exact increasingKeys_of_contents h.sorted fun p hp => h.numKey_ne_zero hlevels hp

variable [TransOrd K]

/-- The pairs of the leaves to the left of the target of a key are below the key, those of the leaves
    to its right above it. -/
theorem SearchTree.contents_target (h : SearchTree s (A ++ p :: B) levels) {k : K}
    (hA : A = [] ∨ compare k (s.firstKey p) ≠ .lt) (hB : ∀ b ∈ B, compare k (s.firstKey b) = .lt) :
    (∀ e ∈ s.contents A, compare e.1 k = .lt) ∧ ∀ e ∈ s.contents B, compare k e.1 = .lt := by
  refine ⟨fun e he => ?_, fun e he => ?_⟩
  · rcases hA with rfl | hA
    · cases he
    · -- there is a leaf before `p`, so `p` is not empty
      have hlevels : levels ≠ [] := by
        rintro rfl
        obtain ⟨r, hr⟩ := h.upper.leaves_eq_singleton
        cases A with
        | nil => cases he
        | cons a A =>
          rw [List.cons_append] at hr
          have := (List.cons.inj hr).2
          simp at this
      have hp : p ∈ A ++ p :: B := List.mem_append_right _ List.mem_cons_self
      obtain ⟨e₀, l, hl, he₀⟩ := entries_eq_cons (h.numKey_ne_zero hlevels hp)
      have hsorted := h.sorted
      rw [contents_append, contents_cons, hl] at hsorted
      have hlt := (increasing_append.mp hsorted).2.2 e he e₀ List.mem_cons_self
      rw [he₀] at hlt
      have hle : (compare (s.firstKey p) k).isLE := by
        rw [← OrientedCmp.isGE_iff_isLE]
        revert hA
        cases compare k (s.firstKey p) <;> simp
      exact TransCmp.lt_of_lt_of_isLE hlt hle
  · obtain ⟨b, hb, heb⟩ := List.mem_flatMap.mp he
    have hmem : b ∈ A ++ p :: B := List.mem_append_right _ (List.mem_cons_of_mem _ hb)
    exact TransCmp.lt_of_lt_of_isLE (hB b hb) (firstKey_le (h.leaf_sorted hmem) heb)

/-- **The leaf of a key.** -/
theorem SearchTree.target (h : SearchTree s leaves levels) (k : K) : ∃ A p B, leaves = A ++ p :: B ∧
    s.findLeafPage k = .ok p ∧ (∀ e ∈ s.contents A, compare e.1 k = .lt) ∧
    ∀ e ∈ s.contents B, compare k e.1 = .lt := by
  obtain ⟨p, ⟨A, B, rfl, hA, hB⟩, hfind⟩ := h.upper.findLeafPage h.increasingKeys h.isLeaf k
  exact ⟨A, p, B, rfl, hfind, h.contents_target hA hB⟩

/-- Only the leaf of a key can hold it. -/
theorem lookup_contents {k : K} (hA : ∀ e ∈ s.contents A, compare e.1 k = .lt)
    (hB : ∀ e ∈ s.contents B, compare k e.1 = .lt) :
    lookup k (s.contents (A ++ p :: B)) = lookup k (s.page p).entries := by
  have hnone : lookup k (s.contents A) = none := by
    rw [lookup_eq_none]
    intro e he hc
    rw [OrientedCmp.eq_comm, hA e he] at hc
    cases hc
  have hnone' : lookup k (s.contents B) = none := by
    rw [lookup_eq_none]
    intro e he hc
    rw [hB e he] at hc
    cases hc
  rw [contents_append, contents_cons, lookup_append, lookup_append, hnone, hnone', Option.none_or,
    Option.or_none]

/-- **`get_value`** looks the key up. -/
theorem SearchTree.getValue_eq (h : SearchTree s leaves levels) (k : K) :
    s.getValue k = .ok (lookup k (s.contents leaves)) := by
  obtain ⟨A, p, B, rfl, hfind, hA, hB⟩ := h.target k
  have hp : p ∈ A ++ p :: B := List.mem_append_right _ List.mem_cons_self
  unfold getValue
  rw [hfind, lookup_contents hA hB, ← IxNode.leafLookup_eq _ k (h.leaf_sorted hp)]
  rfl

/-! The same of a tree whose leaves are chained. -/

omit [TransOrd K] in
/-- The keys of a leaf stand in order. -/
theorem Tree.leaf_sorted (h : Tree s leaves levels) (hp : p ∈ leaves) :
    Increasing (s.page p).entries := h.search.leaf_sorted hp

omit [TransOrd K] in
/-- No leaf but the root is empty. -/
theorem Tree.numKey_ne_zero (h : Tree s leaves levels) (hlevels : levels ≠ []) (hp : p ∈ leaves) :
    (s.page p).numKey ≠ 0 := h.search.numKey_ne_zero hlevels hp

omit [TransOrd K] in
/-- The keys stand in order along the chain. -/
theorem Tree.increasingKeys (h : Tree s leaves levels) : IncreasingKeys s leaves :=
  h.search.increasingKeys

/-- The other leaves hold smaller keys on the left and greater ones on the right. -/
theorem Tree.contents_target (h : Tree s (A ++ p :: B) levels) {k : K}
    (hA : A = [] ∨ compare k (s.firstKey p) ≠ .lt) (hB : ∀ b ∈ B, compare k (s.firstKey b) = .lt) :
    (∀ e ∈ s.contents A, compare e.1 k = .lt) ∧ ∀ e ∈ s.contents B, compare k e.1 = .lt :=
  h.search.contents_target hA hB

/-- `find_leaf_page` leads to the leaf of the key. -/
theorem Tree.target (h : Tree s leaves levels) (k : K) : ∃ A p B, leaves = A ++ p :: B ∧
    s.findLeafPage k = .ok p ∧ (∀ e ∈ s.contents A, compare e.1 k = .lt) ∧
    ∀ e ∈ s.contents B, compare k e.1 = .lt := h.search.target k

/-- `get_value` looks the key up in the contents. -/
theorem Tree.getValue_eq (h : Tree s leaves levels) (k : K) :
    s.getValue k = .ok (lookup k (s.contents leaves)) := h.search.getValue_eq k

end Ord

/-! ### A leaf with other pairs -/

/-- **`maintain_parent` of a leaf** whose pairs have changed. -/
theorem Upper.leafChanged [DecidableEq K] (h : Upper s leaves levels) (hp : p ∈ leaves)
    (hhead : s₁ = { s with page := s₁.page, insertCalls := s₁.insertCalls })
    (hparent : (s₁.page p).parent = (s.page p).parent) (hframe : ∀ x ≠ p, s₁.page x = s.page x) :
    ∃ s₂, maintainParent s.fuel s₁ p = .ok s₂ ∧ s₂ = { s₁ with page := s₂.page } ∧
      (∀ x ∈ leaves, s₂.page x = s₁.page x) ∧ Upper s₂ leaves levels := by
  have halike : AlikeBut s s₁ p leaves levels := by
    refine ⟨by rw [hhead], by rw [hhead], by rw [hhead], fun x _ => ?_, fun x _ hxp => ?_,
      fun x hx => ?_⟩
    · by_cases hxp : x = p
      · rw [hxp]
        exact hparent
      · rw [hframe x hxp]
    · unfold firstKey
      rw [hframe x hxp]
    · rw [hframe x fun hxp => h.disjoint hp (hxp ▸ hx)]
      rfl
  obtain ⟨s₂, hrun, hmoved, hup⟩ := halike.repair h hp
  rw [show s₁.fuel = s.fuel by rw [hhead]; rfl] at hrun
  exact ⟨s₂, hrun, hmoved.header, fun x hx => hmoved.frame x (h.disjoint hx), hup⟩

/-- A change of one leaf stays in its place of the contents. -/
theorem contents_frame (hnd : (A ++ p :: B).Nodup)
    (h : ∀ x ∈ A ++ p :: B, x ≠ p → (s'.page x).entries = (s.page x).entries) :
    s'.contents (A ++ p :: B) = s.contents A ++ (s'.page p).entries ++ s.contents B := by
  rw [List.nodup_middle, List.nodup_cons] at hnd
  have hne : ∀ x, x ∈ A ∨ x ∈ B → x ≠ p := fun x hx hxp => hnd.1 (hxp ▸ List.mem_append.mpr hx)
  rw [contents_append, contents_cons, List.append_assoc]
  congr 1
  · exact contents_congr fun x hx => h x (List.mem_append_left _ hx) (hne x (Or.inl hx))
  · congr 1
    exact contents_congr fun x hx => h x (List.mem_append_right _ (List.mem_cons_of_mem _ hx))
      (hne x (Or.inr hx))

/-! ### Splitting a leaf -/

/-- A leaf and its new right neighbour. -/
structure LeafSplit (s s' : IxIndexHandle K) (A : List Int) (p : Int) (B : List Int)
    (levels : List (List Int)) : Prop where
  header : s' = { s with
    page := s'.page, lastLeaf := s'.lastLeaf, numPages := s.numPages + 1
    nextPage := s.nextPage + 1 }
  upper : Upper s' (A ++ p :: B) levels
  parent : (s'.page s.nextPage).parent = (s'.page p).parent
  isLeaf : ∀ x ∈ A ++ p :: s.nextPage :: B, (s'.page x).isLeaf = true
  contents : s'.contents (A ++ p :: s.nextPage :: B) = s.contents (A ++ p :: B)
  chain : LeafChain s' (A ++ p :: s.nextPage :: B)
  left : (s'.page p).numKey = (s.page p).numKey / 2
  right : (s'.page s.nextPage).numKey = (s.page p).numKey - (s.page p).numKey / 2
  frame : ∀ x, x ≠ p → x ≠ s.nextPage → s'.page x = s.page x

/-- The same, whatever the leaves are chained to. -/
structure LeafCut (s s' : IxIndexHandle K) (A : List Int) (p : Int) (B : List Int)
    (levels : List (List Int)) : Prop where
  header : s' = { s with
    page := s'.page, lastLeaf := s'.lastLeaf, numPages := s.numPages + 1
    nextPage := s.nextPage + 1 }
  upper : Upper s' (A ++ p :: B) levels
  parent : (s'.page s.nextPage).parent = (s'.page p).parent
  isLeaf : ∀ x ∈ A ++ p :: s.nextPage :: B, (s'.page x).isLeaf = true
  contents : s'.contents (A ++ p :: s.nextPage :: B) = s.contents (A ++ p :: B)
  left : (s'.page p).numKey = (s.page p).numKey / 2
  right : (s'.page s.nextPage).numKey = (s.page p).numKey - (s.page p).numKey / 2
  frame : ∀ x, x ≠ p → x ≠ s.nextPage → s'.page x = s.page x
  lastLeaf : s'.lastLeaf = if s.lastLeaf = p then s.nextPage else s.lastLeaf
  nextLeft : (s'.page p).nextLeaf = s.nextPage
  nextRight : (s'.page s.nextPage).nextLeaf = (s.page p).nextLeaf

/-- The leaves after a full one has been cut in halves. -/
theorem sizes_of_halves (hfull : (s.page p).numKey = s.maxSize) (horder : 3 ≤ s.btreeOrder)
    (hleft : (s₁.page p).numKey = (s.page p).numKey / 2)
    (hright : (s₁.page s.nextPage).numKey = (s.page p).numKey - (s.page p).numKey / 2)
    (hframe : ∀ x, x ≠ p → x ≠ s.nextPage → s₁.page x = s.page x)
    (hfilled : ∀ x ∈ A ++ p :: B, x ≠ p → (s.page x).numKey < s.maxSize ∧
      s.minSize ≤ (s.page x).numKey) :
    ∀ x ∈ A ++ p :: s.nextPage :: B, (s₁.page x).numKey < s.maxSize ∧
      s.minSize ≤ (s₁.page x).numKey := by
  intro x hx
  rw [hfull] at hleft hright
  by_cases hxp : x = p
  · rw [hxp, hleft]
    unfold minSize maxSize
    omega
  by_cases hxn : x = s.nextPage
  · rw [hxn, hright]
    unfold minSize maxSize
    omega
  · rw [hframe x hxp hxn]
    apply hfilled x _ hxp
    simp only [List.mem_append, List.mem_cons] at hx ⊢
    tauto

/-- **`split` of a leaf.** -/
theorem cut_leaf [Inhabited K] (hup : Upper s (A ++ p :: B) levels)
    (hleaf : ∀ x ∈ A ++ p :: B, (s.page x).isLeaf = true) :
    ∃ s', s.split p = (s.nextPage, s') ∧ LeafCut s s' A p B levels := by
  have hp : p ∈ A ++ p :: B := List.mem_append_right _ List.mem_cons_self
  have hlt : ∀ x ∈ A ++ p :: B ++ levels.flatten, x < s.nextPage := fun x hx => (hup.range x hx).2
  have hpn : p ≠ s.nextPage := Int.ne_of_lt (hlt p (List.mem_append_left _ hp))
  generalize hs' : (s.split p).2 = s'
  have hsplit : s.split p = (s.nextPage, s') := by
    rw [← hs', splitLeaf_spec (hleaf p hp)]
  -- what `split` does to the header, the two halves and the other pages
  have hhead : s' = { s with
      page := s'.page, lastLeaf := s'.lastLeaf, numPages := s.numPages + 1
      nextPage := s.nextPage + 1 } := by
    rw [← hs', splitLeaf_spec (hleaf p hp)]
  have hlast : s'.lastLeaf = if s.lastLeaf = p then s.nextPage else s.lastLeaf := by
    rw [← hs', splitLeaf_spec (hleaf p hp)]
  have hleft : s'.page p = { s.page p with
      numKey := (s.page p).numKey / 2, nextLeaf := s.nextPage } := by
    rw [← hs', splitLeaf_spec (hleaf p hp)]
    exact if_pos rfl
  have hright : s'.page s.nextPage =
      { splitOff (s.page p) with prevLeaf := p, nextLeaf := (s.page p).nextLeaf } := by
    rw [← hs', splitLeaf_spec (hleaf p hp)]
    dsimp only
    rw [if_neg hpn.symm, if_pos rfl]
  have hframe : ∀ x, x ≠ p → x ≠ s.nextPage → s'.page x = s.page x := by
    intro x hxp hxn
    rw [← hs', splitLeaf_spec (hleaf p hp)]
    dsimp only
    rw [if_neg hxp, if_neg hxn]
  -- the new page is none of the old ones
  have hold : ∀ x ∈ A ++ p :: B, x ≠ p → s'.page x = s.page x := fun x hx hxp =>
    hframe x hxp (Int.ne_of_lt (hlt x (List.mem_append_left _ hx)))
  have hnd := hup.below_nodup
  have hne : ∀ x, x ∈ A ∨ x ∈ B → x ≠ p := by
    rw [List.nodup_middle, List.nodup_cons] at hnd
    exact fun x hx hxp => hnd.1 (hxp ▸ List.mem_append.mpr hx)
  have hmem : ∀ x, x ∈ A ∨ x ∈ B → x ∈ A ++ p :: B := by
    intro x hx
    simp only [List.mem_append, List.mem_cons]
    tauto
  refine ⟨s', hsplit, hhead, ?_, ?_, fun x hx => ?_, ?_, by rw [hleft], ?_, hframe, hlast, by rw [hleft],
    by rw [hright]⟩
  · -- the first keys and the upper levels stay
    refine hup.congr (by rw [hhead]) (by rw [hhead]) ?_ (fun x hx => ?_) fun x hx => ?_
    · rw [hhead]
      exact Int.le_of_lt (Int.lt_succ _)
    · unfold firstKey
      by_cases hxp : x = p
      · rw [hxp, hleft]
        exact ⟨rfl, rfl⟩
      · rw [hold x hx hxp]
        exact ⟨rfl, rfl⟩
    · refine hframe x (fun hxp => hup.disjoint hp (hxp ▸ hx)) ?_
      exact Int.ne_of_lt (hlt x (List.mem_append_right _ hx))
  · rw [hleft, hright]
    rfl
  · by_cases hxp : x = p
    · rw [hxp, hleft]
      exact hleaf p hp
    by_cases hxn : x = s.nextPage
    · rw [hxn, hright]
      exact hleaf p hp
    · rw [hframe x hxp hxn]
      refine hleaf x ?_
      simp only [List.mem_append, List.mem_cons] at hx ⊢
      tauto
  · -- the pairs of both halves are those of the leaf
    have hl : (s'.page p).entries = (s.page p).entries.take ((s.page p).numKey / 2) := by
      rw [hleft, ← entries_truncate _ (Nat.div_le_self _ _)]
      rfl
    have hr : (s'.page s.nextPage).entries = (s.page p).entries.drop ((s.page p).numKey / 2) := by
      rw [hright, ← entries_splitOff]
      rfl
    have hcA : s'.contents A = s.contents A := contents_congr fun x hx => by
      rw [hold x (hmem x (Or.inl hx)) (hne x (Or.inl hx))]
    have hcB : s'.contents B = s.contents B := contents_congr fun x hx => by
      rw [hold x (hmem x (Or.inr hx)) (hne x (Or.inr hx))]
    rw [contents_append, contents_cons, contents_cons, contents_append, contents_cons, hl, hr,
      ← List.append_assoc (List.take _ _), List.take_append_drop, hcA, hcB]
  · rw [hright]
    exact numKey_splitOff _

/-- The chain goes through the new leaf. -/
theorem LeafCut.chain (h : LeafCut s s' A p B levels) (hup : Upper s (A ++ p :: B) levels)
    (hchain : LeafChain s (A ++ p :: B)) : LeafChain s' (A ++ p :: s.nextPage :: B) := by
  have hnd := hup.below_nodup
  have hne : ∀ x, x ∈ A ∨ x ∈ B → x ≠ p := by
    rw [List.nodup_middle, List.nodup_cons] at hnd
    exact fun x hx hxp => hnd.1 (hxp ▸ List.mem_append.mpr hx)
  have hlt : ∀ x, x ∈ A ∨ x ∈ B → x < s.nextPage := by
    intro x hx
    refine (hup.range x (List.mem_append_left _ ?_)).2
    simp only [List.mem_append, List.mem_cons]
    tauto
  obtain ⟨hnext, hfirst, hlast'⟩ := hchain
  obtain ⟨hA, hpB, hAp⟩ := List.isChain_append.mp hnext
  have hnexto : ∀ x, x ∈ A ∨ x ∈ B → (s'.page x).nextLeaf = (s.page x).nextLeaf := by
    intro x hx
    rw [h.frame x (hne x hx) (Int.ne_of_lt (hlt x hx))]
  refine ⟨List.isChain_append.mpr ⟨?_, ?_, fun a ha b hb => ?_⟩, ?_, ?_⟩
  · exact hA.imp_of_mem_imp fun a b ha _ hab => (hnexto a (Or.inl ha)).trans hab
  · refine List.isChain_cons_cons.mpr ⟨h.nextLeft, ?_⟩
    cases B with
    | nil => exact List.IsChain.singleton _
    | cons b B =>
      obtain ⟨hpb, hB⟩ := List.isChain_cons_cons.mp hpB
      refine List.isChain_cons_cons.mpr ⟨h.nextRight.trans hpb, ?_⟩
      exact hB.imp_of_mem_imp fun a b ha _ hab => (hnexto a (Or.inr ha)).trans hab
  · cases hb
    exact (hnexto a (Or.inl (List.mem_of_mem_getLast? ha))).trans (hAp a ha p rfl)
  · rw [show s'.firstLeaf = s.firstLeaf by rw [h.header]]
    cases A with
    | nil => exact hfirst
    | cons a A => exact hfirst
  · rw [h.lastLeaf]
    cases B with
    | nil =>
      rw [List.getLast?_append] at hlast' ⊢
      have hlp : s.lastLeaf = p := (Option.some.inj hlast').symm
      rw [if_pos hlp]
      rfl
    | cons b B =>
      rw [List.getLast?_append_cons, List.getLast?_cons_cons, List.getLast?_cons_cons]
      rw [List.getLast?_append_cons, List.getLast?_cons_cons] at hlast'
      have hlmem : s.lastLeaf ∈ b :: B := List.mem_of_mem_getLast? hlast'
      rw [if_neg (hne _ (Or.inr hlmem))]
      exact hlast'

/-- The same of leaves that are chained. -/
theorem split_leaf [Inhabited K] (hup : Upper s (A ++ p :: B) levels)
    (hleaf : ∀ x ∈ A ++ p :: B, (s.page x).isLeaf = true) (hchain : LeafChain s (A ++ p :: B)) :
    ∃ s', s.split p = (s.nextPage, s') ∧ LeafSplit s s' A p B levels := by
  obtain ⟨s', hsplit, h⟩ := cut_leaf hup hleaf
  exact ⟨s', hsplit, h.header, h.upper, h.parent, h.isLeaf, h.contents, h.chain hup hchain, h.left,
    h.right, h.frame⟩

/-! ### Insertion -/

section Insert

variable [Ord K]

/-- The lookups after an insertion: a key that was there keeps its value. -/
def Inserted (c c' : List (K × Rid)) (k : K) (v : Rid) : Prop :=
  ∀ k', lookup k' c' = (lookup k' c).or (if compare k' k = .eq then some v else none)

/-! ### A leaf that has been offered a pair -/

/-- The pair has been passed to the leaf `p` of a tree, and `maintain_parent` has run. -/
structure LeafInserted (s s' : IxIndexHandle K) (A : List Int) (p : Int) (B : List Int)
    (levels : List (List Int)) (k : K) (v : Rid) : Prop where
  tree : Tree s (A ++ p :: B) levels
  header : s' = { s with
    page := s'.page, insertCalls := s.insertCalls ++ [(s.page p, k, v)] }
  page : s'.page p = (s.page p).insert k v
  node : (s.page p).insert k v = { s.page p with
    keys := ((s.page p).insert k v).keys, rids := ((s.page p).insert k v).rids
    numKey := ((s.page p).insert k v).numKey }
  numKey : (s'.page p).numKey = (s.page p).numKey ∨ (s'.page p).numKey = (s.page p).numKey + 1
  frame : ∀ x ∈ A ++ p :: B, x ≠ p → s'.page x = s.page x
  upper : Upper s' (A ++ p :: B) levels
  sorted : Increasing (s'.contents (A ++ p :: B))
  inserted : (s.page p).Adds k v →
    Inserted (s.contents (A ++ p :: B)) (s'.contents (A ++ p :: B)) k v

namespace LeafInserted

variable {k : K} {v : Rid}

/-- The changed leaf is one of the leaves. -/
theorem mem (_ : LeafInserted s s' A p B levels k v) : p ∈ A ++ p :: B :=
  List.mem_append_right _ List.mem_cons_self

/-- The order of the tree stays. -/
theorem order_eq (h : LeafInserted s s' A p B levels k v) : s'.btreeOrder = s.btreeOrder := by
  rw [h.header]

/-- So does the largest number of pairs of a node. -/
theorem maxSize_eq (h : LeafInserted s s' A p B levels k v) : s'.maxSize = s.maxSize := by
  unfold maxSize
  rw [h.order_eq]

/-- And the smallest. -/
theorem minSize_eq (h : LeafInserted s s' A p B levels k v) : s'.minSize = s.minSize := by
  unfold minSize
  rw [h.maxSize_eq]

/-- Earlier calls of `insert` stay recorded. -/
theorem insertCalls_subset (h : LeafInserted s s' A p B levels k v) :
    s.insertCalls ⊆ s'.insertCalls := by
  rw [h.header]
  exact List.subset_append_left _ _

/-- The call on the leaf is recorded. -/
theorem adds (h : LeafInserted s s' A p B levels k v) {t : IxIndexHandle K}
    (hsub : s'.insertCalls ⊆ t.insertCalls) (hcalls : CallsAdd t) : (s.page p).Adds k v := by
  refine hcalls (s.page p, k, v) (hsub ?_)
  rw [h.header]
  exact List.mem_append_right _ List.mem_cons_self

/-- The leaves stay leaves. -/
theorem isLeaf (h : LeafInserted s s' A p B levels k v) :
    ∀ x ∈ A ++ p :: B, (s'.page x).isLeaf = true := by
  intro x hx
  by_cases hxp : x = p
  · rw [hxp, h.page, h.node]
    exact h.tree.isLeaf p h.mem
  · rw [h.frame x hx hxp]
    exact h.tree.isLeaf x hx

/-- The links between the leaves stay. -/
theorem chain (h : LeafInserted s s' A p B levels k v) : LeafChain s' (A ++ p :: B) := by
  refine h.tree.chain.congr (fun x hx => ?_) (by rw [h.header]) (by rw [h.header])
  by_cases hxp : x = p
  · rw [hxp, h.page, h.node]
  · rw [h.frame x hx hxp]

/-- The other leaves are filled as before. -/
theorem others (h : LeafInserted s s' A p B levels k v) {x : Int} (hx : x ∈ A ++ p :: B)
    (hxp : x ≠ p) : (s'.page x).numKey < s'.maxSize ∧ s'.minSize ≤ (s'.page x).numKey := by
  rw [h.frame x hx hxp, h.maxSize_eq, h.minSize_eq]
  refine ⟨(h.tree.filled x hx).1, (h.tree.filled x hx).2 fun hl => hxp ?_⟩
  subst hl
  obtain ⟨r, hr⟩ := h.tree.upper.leaves_eq_singleton
  have hp := h.mem
  rw [hr, List.mem_singleton] at hx hp
  exact hx.trans hp.symm

/-- **The leaf has room left**: the tree stays as it is. -/
theorem tree_of_room (h : LeafInserted s s' A p B levels k v)
    (hroom : (s'.page p).numKey ≠ s'.maxSize) : Tree s' (A ++ p :: B) levels := by
  refine ⟨h.upper, h.isLeaf, fun x hx => ?_, h.sorted, h.chain, h.order_eq ▸ h.tree.order⟩
  by_cases hxp : x = p
  · subst hxp
    have hsz := h.tree.filled x hx
    have hnum := h.numKey
    rw [h.maxSize_eq] at hroom ⊢
    rw [h.minSize_eq]
    refine ⟨by omega, fun hl => ?_⟩
    have hmin := hsz.2 hl
    omega
  · exact ⟨(h.others hx hxp).1, fun _ => (h.others hx hxp).2⟩

end LeafInserted

variable [TransOrd K]

/-- A key that is there is not inserted again. -/
theorem inserted_of_mem {c : List (K × Rid)} {k : K} (v : Rid) (h : lookup k c ≠ none) :
    Inserted c c k v := by
  intro k'
  split
  · rename_i hk
    rw [lookup_congr hk]
    cases hl : lookup k c with
    | none => exact absurd hl h
    | some r => rfl
  · exact (Option.or_none).symm

/-- A new pair between the smaller and the greater ones. -/
theorem inserted_split {X Y : List (K × Rid)} {k : K} {v : Rid}
    (hX : ∀ e ∈ X, compare e.1 k = .lt) (hY : ∀ e ∈ Y, compare k e.1 = .lt) :
    Inserted (X ++ Y) (X ++ (k, v) :: Y) k v := by
  intro k'
  rw [lookup_insert hX]
  split
  · rename_i hk
    have hnone : lookup k' (X ++ Y) = none := by
      rw [lookup_congr hk, lookup_eq_none]
      intro e he hc
      rcases List.mem_append.mp he with he | he
      · rw [OrientedCmp.eq_comm, hX e he] at hc
        cases hc
      · rw [hY e he] at hc
        cases hc
    rw [hnone]
    rfl
  · exact (Option.or_none).symm

/-- What a leaf looks like after `IxNodeHandle::insert`, and what this does to the contents. -/
theorem SearchTree.insert_leaf (h : SearchTree s (A ++ p :: B) levels) {k : K} {v : Rid}
    (hA : ∀ e ∈ s.contents A, compare e.1 k = .lt) (hB : ∀ e ∈ s.contents B, compare k e.1 = .lt) :
    let n := (s.page p).insert k v
    n = { s.page p with keys := n.keys, rids := n.rids, numKey := n.numKey } ∧
      (n.numKey = (s.page p).numKey ∨ n.numKey = (s.page p).numKey + 1) ∧
      Increasing (s.contents A ++ n.entries ++ s.contents B) ∧
      ((s.page p).Adds k v → Inserted (s.contents (A ++ p :: B))
        (s.contents A ++ n.entries ++ s.contents B) k v) := by
  intro n
  have hp : p ∈ A ++ p :: B := List.mem_append_right _ List.mem_cons_self
  have hcontents : s.contents (A ++ p :: B) = s.contents A ++ (s.page p).entries ++ s.contents B := by
    rw [contents_append, contents_cons, List.append_assoc]
  by_cases hsame : n = s.page p
  · -- nothing is inserted
    rw [hsame]
    refine ⟨rfl, Or.inl rfl, ?_, fun hadds => ?_⟩
    · rw [← hcontents]
      exact h.sorted
    · rw [← hcontents]
      refine inserted_of_mem v fun hnone => ?_
      rw [lookup_contents hA hB] at hnone
      have hnum := hadds fun i hi => lookup_eq_none.mp hnone ((s.page p).keys i, (s.page p).rids i) <| by
        rw [List.mem_iff_getElem?]
        exact ⟨i, by rw [IxNode.getElem?_entries, if_pos hi]⟩
      have hnum' : n.numKey = (s.page p).numKey + 1 := hnum
      rw [hsame] at hnum'
      omega
  · have hadds : (s.page p).Adds k v := by
      by_contra hadds
      exact hsame (IxNode.insert_of_not_adds hadds)
    have hnone : lookup k (s.page p).entries = none := by
      rw [lookup_eq_none]
      intro e he hc
      exact hsame (IxNode.insert_of_mem v (h.leaf_sorted hp) he hc)
    obtain ⟨X, Y, heq, hentries, hpair, hX, hY⟩ := IxNode.insert_split hadds hnone
    have hn : n = (s.page p).insertPair X.length k v := hpair
    have hinY : Increasing Y := by
      have hin := h.leaf_sorted hp
      rw [heq] at hin
      exact (increasing_append.mp hin).2.1
    have hX' : ∀ e ∈ s.contents A ++ X, compare e.1 k = .lt := fun e he =>
      (List.mem_append.mp he).elim (hA e) (hX e)
    have hY' : ∀ e ∈ Y ++ s.contents B, compare k e.1 = .lt := fun e he =>
      (List.mem_append.mp he).elim (hinY.lt_of_mem hY e) (hB e)
    have hold : s.contents (A ++ p :: B) = (s.contents A ++ X) ++ (Y ++ s.contents B) := by
      rw [hcontents, heq]
      simp only [List.append_assoc]
    have hnew : s.contents A ++ n.entries ++ s.contents B =
        (s.contents A ++ X) ++ (k, v) :: (Y ++ s.contents B) := by
      rw [hentries]
      simp only [List.append_assoc, List.cons_append]
    refine ⟨by rw [hn]; rfl, Or.inr (by rw [hn]; rfl), ?_, fun _ => ?_⟩
    · rw [hnew]
      exact increasing_insert (hold ▸ h.sorted) hX' hY'
    · rw [hnew, hold]
      exact inserted_split hX' hY'

/-- The first two steps of `insert_entry`, on the leaf that the search finds. -/
theorem Tree.leafInserted [DecidableEq K] (h : Tree s (A ++ p :: B) levels) {k : K} (v : Rid)
    (hA : ∀ e ∈ s.contents A, compare e.1 k = .lt) (hB : ∀ e ∈ s.contents B, compare k e.1 = .lt) :
    ∃ s', maintainParent s.fuel (s.insertInto p k v) p = .ok s' ∧
      LeafInserted s s' A p B levels k v := by
  have hp : p ∈ A ++ p :: B := List.mem_append_right _ List.mem_cons_self
  obtain ⟨hnode, hnum, hsorted, hins⟩ := h.search.insert_leaf (v := v) hA hB
  have hp₁ : (s.insertInto p k v).page p = (s.page p).insert k v := by
    rw [page_insertInto, if_pos rfl]
  have hframe₁ : ∀ x ≠ p, (s.insertInto p k v).page x = s.page x := fun x hx => by
    rw [page_insertInto, if_neg hx]
  have hparent : ((s.insertInto p k v).page p).parent = (s.page p).parent := by rw [hp₁, hnode]
  obtain ⟨s', hrun, hhead, hleaf, hup⟩ := h.upper.leafChanged hp rfl hparent hframe₁
  have hpage : s'.page p = (s.page p).insert k v := (hleaf p hp).trans hp₁
  have hframe : ∀ x ∈ A ++ p :: B, x ≠ p → s'.page x = s.page x := fun x hx hxp =>
    (hleaf x hx).trans (hframe₁ x hxp)
  have hcontents : s'.contents (A ++ p :: B) =
      s.contents A ++ ((s.page p).insert k v).entries ++ s.contents B := by
    rw [← hpage]
    exact contents_frame h.upper.below_nodup fun x hx hxp => by rw [hframe x hx hxp]
  refine ⟨s', hrun, h, hhead, hpage, hnode, by rw [hpage]; exact hnum, hframe, hup, ?_, ?_⟩
  · rw [hcontents]
    exact hsorted
  · rw [hcontents]
    exact hins

variable [Inhabited K]

/-- **The leaf has been split**: the new leaf goes into the levels above. -/
theorem LeafSplit.tree (h : LeafSplit s s₁ A p B levels) (hup : Upper s (A ++ p :: B) levels)
    (horder : 3 ≤ s.btreeOrder) (hfull : (s.page p).numKey = s.maxSize)
    (hsorted : Increasing (s.contents (A ++ p :: B)))
    (hfilled : ∀ x ∈ A ++ p :: B, x ≠ p → (s.page x).numKey < s.maxSize ∧
      s.minSize ≤ (s.page x).numKey) (hlast : s₁.lastLeaf ∉ levels.flatten) :
    ∃ s', insertIntoParent s₁.fuel s₁ p s.nextPage = .ok s' ∧ s₁.insertCalls ⊆ s'.insertCalls ∧
      (InnerCallsAdd s' → s'.lastLeaf = s₁.lastLeaf ∧ ∃ levels',
        Tree s' (A ++ p :: s.nextPage :: B) levels' ∧
          s'.contents (A ++ p :: s.nextPage :: B) = s.contents (A ++ p :: B)) := by
  have hnext : s₁.nextPage = s.nextPage + 1 := by rw [h.header]
  have horder₁ : s₁.btreeOrder = s.btreeOrder := by rw [h.header]
  have hp := hup.range p (List.mem_append_left _ (List.mem_append_right _ List.mem_cons_self))
  have hnew : s.nextPage ∉ A ++ p :: B ++ levels.flatten := fun hx =>
    Int.lt_irrefl _ (hup.range _ hx).2
  have hmem : ∀ x ∈ A ++ p :: s.nextPage :: B, x ∈ A ++ p :: B ∨ x = s.nextPage := by
    intro x hx
    simp only [List.mem_append, List.mem_cons] at hx ⊢
    tauto
  have hsize := sizes_of_halves hfull horder h.left h.right h.frame hfilled
  have hinc : IncreasingKeys s₁ (A ++ p :: s.nextPage :: B) := by
    refine increasingKeys_of_contents (by rw [h.contents]; exact hsorted) fun x hx => ?_
    have := (hsize x hx).2
    unfold minSize maxSize at this
    omega
  obtain ⟨s', hrun, hsub, hfix⟩ := insertIntoParent_spec (Nat.lt_of_succ_lt h.upper.length_lt_fuel)
    h.upper h.parent hnew ⟨by omega, by omega⟩ hinc hlast (horder₁ ▸ horder)
  refine ⟨s', hrun, hsub, fun hcalls => ?_⟩
  obtain ⟨hclimb, levels', -, hup', -⟩ := hfix hcalls
  -- only the parents of the leaves have changed
  have hleaf : ∀ x ∈ A ++ p :: s.nextPage :: B,
      s'.page x = { s₁.page x with parent := (s'.page x).parent } := by
    intro x hx
    rcases hmem x hx with hx | rfl
    · have := (hup.range x (List.mem_append_left _ hx)).2
      exact hclimb.page x (by omega) (hup.disjoint hx)
    · exact hclimb.page _ (by omega) fun hx => hnew (List.mem_append_right _ hx)
  have hcontents : s'.contents (A ++ p :: s.nextPage :: B) = s.contents (A ++ p :: B) := by
    rw [← h.contents]
    refine contents_congr fun x hx => ?_
    rw [hleaf x hx]
    rfl
  refine ⟨hclimb.lastLeaf, levels', ⟨hup', fun x hx => ?_, fun x hx => ?_, ?_, ?_, ?_⟩, hcontents⟩
  · rw [hleaf x hx]
    exact h.isLeaf x hx
  · have hnum : (s'.page x).numKey = (s₁.page x).numKey := by rw [hleaf x hx]
    have hmax : s'.btreeOrder = s.btreeOrder := hclimb.order.trans horder₁
    have hsz := hsize x hx
    unfold minSize maxSize at hsz ⊢
    rw [hnum, hmax]
    exact ⟨hsz.1, fun _ => hsz.2⟩
  · rw [hcontents]
    exact hsorted
  · exact h.chain.congr (fun x hx => by rw [hleaf x hx]) hclimb.firstLeaf hclimb.lastLeaf
  · rw [hclimb.order, horder₁]
    exact horder

/-- **The leaf is full**: it is split, and the new leaf goes into the levels above. -/
theorem LeafInserted.tree_of_full {k : K} {v : Rid} (h : LeafInserted s s' A p B levels k v)
    (hfull : (s'.page p).numKey = s'.maxSize) :
    ∃ s₃ s₄, s'.split p = (s'.nextPage, s₃) ∧ insertIntoParent s₃.fuel s₃ p s'.nextPage = .ok s₄ ∧
      s'.insertCalls ⊆ s₄.insertCalls ∧ (InnerCallsAdd s₄ → p ≠ s₄.lastLeaf ∧ ∃ levels',
        Tree s₄ (A ++ p :: s'.nextPage :: B) levels' ∧
          s₄.contents (A ++ p :: s'.nextPage :: B) = s'.contents (A ++ p :: B)) := by
  obtain ⟨s₃, hsplit, hlevel⟩ := split_leaf h.upper h.isLeaf h.chain
  -- the last leaf is the new one or one to its right
  have hlast : s₃.lastLeaf ∈ s'.nextPage :: B := by
    have hget := hlevel.chain.last
    rw [List.getLast?_append_cons, List.getLast?_cons_cons] at hget
    exact List.mem_of_mem_getLast? hget
  have hpB : p ≠ s'.nextPage ∧ p ∉ B := by
    have hnd := h.upper.below_nodup
    rw [List.nodup_middle, List.nodup_cons] at hnd
    refine ⟨Int.ne_of_lt (h.upper.range p (List.mem_append_left _ h.mem)).2, fun hx => hnd.1 ?_⟩
    exact List.mem_append_right _ hx
  have hlastp : p ≠ s₃.lastLeaf := by
    intro hl
    rw [← hl] at hlast
    exact (List.mem_cons.mp hlast).elim hpB.1 hpB.2
  have hlastup : s₃.lastLeaf ∉ levels.flatten := by
    intro hx
    rcases List.mem_cons.mp hlast with hl | hl
    · rw [hl] at hx
      exact Int.lt_irrefl _ (h.upper.range _ (List.mem_append_right _ hx)).2
    · exact h.upper.disjoint (List.mem_append_right _ (List.mem_cons_of_mem _ hl)) hx
  obtain ⟨s₄, hrun, hsub, htree⟩ := hlevel.tree h.upper (h.order_eq ▸ h.tree.order) hfull h.sorted
    (fun x hx hxp => h.others hx hxp) hlastup
  have hcalls : s₃.insertCalls = s'.insertCalls := by rw [hlevel.header]
  refine ⟨s₃, s₄, hsplit, hrun, hcalls ▸ hsub, fun hadd => ?_⟩
  obtain ⟨hlast₄, levels', htree', hcont⟩ := htree hadd
  exact ⟨hlast₄ ▸ hlastp, levels', htree', hcont⟩

variable [DecidableEq K]

/-- **`insert_entry`** ends, and keeps the invariant if its calls of `IxNodeHandle::insert` on inner
    nodes add their pairs.  If the call on the leaf does, too, the contents are the old ones and the new
    pair, if the key was not there. -/
theorem insertEntry_spec {leaves : List Int} (h : Tree s leaves levels) (k : K) (v : Rid) :
    ∃ p s', s.insertEntry k v = .ok (p, s') ∧ s.insertCalls ⊆ s'.insertCalls ∧
      (InnerCallsAdd s' → ∃ leaves' levels', Tree s' leaves' levels' ∧
        (CallsAdd s' → Inserted (s.contents leaves) (s'.contents leaves') k v)) := by
  obtain ⟨A, p, B, rfl, hfind, hA, hB⟩ := h.target k
  obtain ⟨s₂, hrun₂, hleaf⟩ := h.leafInserted v hA hB
  have hstep : s.insertEntry k v = if (s₂.page p).numKey = s₂.maxSize then do
      let s' ← insertIntoParent (s₂.split p).2.fuel (s₂.split p).2 p (s₂.split p).1
      return (p, if p = s'.lastLeaf then { s' with lastLeaf := (s₂.split p).1 } else s')
      else .ok (p, s₂) := by
    unfold insertEntry
    rw [hfind]
    show (maintainParent s.fuel (s.insertInto p k v) p).bind _ = _
    rw [hrun₂]
    rfl
  rw [hstep]
  by_cases hfull : (s₂.page p).numKey = s₂.maxSize
  case neg =>
    rw [if_neg hfull]
    refine ⟨p, s₂, rfl, hleaf.insertCalls_subset, fun _ => ?_⟩
    exact ⟨_, levels, hleaf.tree_of_room hfull, fun hadd =>
      hleaf.inserted (hleaf.adds (List.Subset.refl _) hadd)⟩
  rw [if_pos hfull]
  obtain ⟨s₃, s₄, hsplit, hrun₄, hsub, htree⟩ := hleaf.tree_of_full hfull
  rw [hsplit]
  dsimp only
  rw [hrun₄]
  refine ⟨p, _, rfl, ?_, fun hcalls => ?_⟩
  · intro c hc
    split
    · exact hsub (hleaf.insertCalls_subset hc)
    · exact hsub (hleaf.insertCalls_subset hc)
  · have hcalls₄ : InnerCallsAdd s₄ := by
      split at hcalls
      · exact hcalls
      · exact hcalls
    obtain ⟨hne, levels', htree', hcont⟩ := htree hcalls₄
    rw [if_neg hne]
    refine ⟨_, levels', htree', fun hadd => ?_⟩
    rw [hcont]
    exact hleaf.inserted (hleaf.adds hsub hadd)

end Insert

end IxIndexHandle

end Rmdb
