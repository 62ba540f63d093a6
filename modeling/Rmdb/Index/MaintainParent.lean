import Mathlib.Logic.Relation
import Rmdb.Index.Separators

namespace Rmdb

namespace IxIndexHandle

/-!
# One wrong separator (`index/ix_index_handle.cpp`, `maintain_parent`)

In a tree of any height the first key of a node, at any level, has changed, and perhaps the key that its
parent has for it is wrong now.  `maintain_parent` stops at the first parent whose key is right.

* `UpTo` — from a node to its ancestors;
* `SepOnPath` — the slots that hold the node or an ancestor of it;
* `maintainParent_sepOnPath` — what is written is the keys of such slots, in any state;
* `CutAt` — the level of the node, and those above it;
* `OneWrong` — all separators are right but perhaps one, in the whole tree;
* `OneWrong.separators_right` — afterwards all are right.
-/

variable {K : Type} {s s' : IxIndexHandle K} {below leaves lvl : List Int} {levels : List (List Int)}
  {c p q : Int} {rank : Nat}

/-! ### The path to the root -/

/-- One step up. -/
def ParentOf (s : IxIndexHandle K) (c q : Int) : Prop := (s.page c).parent = q ∧ q ≠ -1

/-- The node itself or an ancestor. -/
def UpTo (s : IxIndexHandle K) : Int → Int → Prop := Relation.ReflTransGen s.ParentOf

/-- The slot `i` of the page `p` is the one of `c`, or of an ancestor of `c`, in its parent. -/
structure SepOnPath (s : IxIndexHandle K) (c p : Int) (i : Nat) : Prop where
  lt : i < (s.page p).numKey
  parent : s.ParentOf ((s.page p).valueAt i) p
  upTo : s.UpTo c ((s.page p).valueAt i)

theorem SepOnPath.up (hq : s.ParentOf c q) {i : Nat} (h : s.SepOnPath q p i) : s.SepOnPath c p i :=
  ⟨h.lt, h.parent, Relation.ReflTransGen.head hq h.upTo⟩

/-- Keys of pages do not count for the path. -/
theorem SepOnPath.congr (hkeys : ∀ p, s'.page p = { s.page p with keys := (s'.page p).keys }) {i : Nat}
    (h : s'.SepOnPath c p i) : s.SepOnPath c p i := by
  have hparent : ∀ x, (s'.page x).parent = (s.page x).parent := fun x => by rw [hkeys x]
  have hvalue : (s'.page p).valueAt i = (s.page p).valueAt i := by
    rw [hkeys p]
    rfl
  obtain ⟨hlt, hpar, hup⟩ := h
  rw [hvalue] at hpar hup
  refine ⟨?_, ?_, ?_⟩
  · rw [hkeys p] at hlt
    exact hlt
  · unfold ParentOf at hpar ⊢
    rwa [hparent] at hpar
  · refine Relation.ReflTransGen.mono (fun x y hxy => ?_) _ _ hup
    unfold ParentOf at hxy ⊢
    rwa [hparent] at hxy

/-- `find_child` finds a slot of the child. -/
theorem findChild_ok (h : (s.page q).findChild c = .ok rank) :
    rank < (s.page q).numKey ∧ (s.page q).valueAt rank = c := by
  unfold IxNode.findChild at h
  split at h
  · rename_i i hfind
    obtain rfl : i = rank := Except.ok.inj h
    have hval := List.find?_some hfind
    rw [decide_eq_true_eq] at hval
    exact ⟨List.mem_range.mp (List.mem_of_find?_eq_some hfind), hval⟩
  · cases h

/-- The slot that the loop writes first. -/
theorem sepOnPath_self (hc : s.ParentOf c q) (hfind : (s.page q).findChild c = .ok rank) :
    s.SepOnPath c q rank := by
  obtain ⟨hlt, hval⟩ := findChild_ok hfind
  refine ⟨hlt, ?_, ?_⟩
  · rw [hval]
    exact hc
  · rw [hval]
    exact Relation.ReflTransGen.refl

section Loop

variable [DecidableEq K]

/-- **The loop writes keys on the path only**, whatever the pages hold. -/
theorem maintainParent_sepOnPath {fuel : Nat} (h : maintainParent fuel s c = .ok s') {i : Nat}
    (hne : (s'.page p).keys i ≠ (s.page p).keys i) : s.SepOnPath c p i := by
  induction fuel generalizing s c with
  | zero => cases h
  | succ fuel ih =>
    by_cases hroot : (s.page c).parent = -1
    · rw [maintainParent, if_pos hroot] at h
      obtain rfl := Except.ok.inj h
      exact absurd rfl hne
    · have hpar : s.ParentOf c (s.page c).parent := ⟨rfl, hroot⟩
      cases hfind : (s.page (s.page c).parent).findChild c with
      | error e =>
        rw [maintainParent, if_neg hroot] at h
        dsimp only at h
        rw [hfind] at h
        cases h
      | ok rank =>
        rw [maintainParent_succ rfl hroot hfind] at h
        split at h
        · -- the early exit
          obtain rfl := Except.ok.inj h
          exact absurd rfl hne
        · by_cases hstep :
            ((s.setSep (s.page c).parent rank c).page p).keys i = (s.page p).keys i
          · -- written by a later round
            rw [← hstep] at hne
            exact ((ih h hne).congr (s.setSep_keys _ rank c)).up hpar
          · -- written in this round, in the parent
            rw [page_setSep] at hstep
            split at hstep
            · rename_i hpq
              subst hpq
              have hir : i = rank := by
                by_contra hir
                exact hstep (Function.update_of_ne hir _ _)
              rw [hir]
              exact sepOnPath_self hpar hfind
            · exact absurd rfl hstep

end Loop

/-! ### The level of the node -/

/-- The parents of nodes are in the levels above, up to the root. -/
theorem Shape.parent_mem (h : Shape s below levels) :
    ∀ x ∈ below ++ levels.flatten, (s.page x).parent ∈ levels.flatten ∨ (s.page x).parent = -1 := by
  induction h with
  | root hr hp =>
    intro x hx
    rw [List.flatten_nil, List.append_nil, List.mem_singleton] at hx
    rw [hx]
    exact Or.inr hp
  | level hlink hrest ih =>
    intro x hx
    rcases List.mem_append.mp hx with hx | hx
    · exact Or.inl (List.mem_append_left _ (hlink.exists_parent hx).1)
    · exact (ih x hx).imp_left (List.mem_append_right _)

/-- A child of a node has this node as its parent. -/
theorem Shape.parent_child (h : Shape s below levels) :
    ∀ l ∈ levels, ∀ p ∈ l, ∀ x ∈ s.children p, (s.page x).parent = p := by
  induction h with
  | root => exact fun _ hl => absurd hl List.not_mem_nil
  | level hlink hrest ih => exact List.forall_mem_cons.mpr ⟨hlink.parent, ih⟩

/-- The levels, cut at the one of the node `c`. -/
structure CutAt (s : IxIndexHandle K) (leaves : List Int) (levels : List (List Int)) (c : Int)
    (lower : List (List Int)) (lvl : List Int) (upper : List (List Int)) : Prop where
  split : leaves :: levels = lower ++ lvl :: upper
  mem : c ∈ lvl
  shape : Shape s lvl upper

/-- Each node is in one of the levels, and has the levels above it. -/
theorem Shape.exists_cut (h : Shape s below levels) (hc : c ∈ below ++ levels.flatten) :
    ∃ lower lvl upper, CutAt s below levels c lower lvl upper := by
  induction h with
  | root hr hp =>
    rw [List.flatten_nil, List.append_nil] at hc
    exact ⟨[], _, [], rfl, hc, .root hr hp⟩
  | level hlink hrest ih =>
    rcases List.mem_append.mp hc with hc | hc
    · exact ⟨[], _, _, rfl, hc, .level hlink hrest⟩
    · obtain ⟨lower, lvl, upper, hcut⟩ := ih hc
      exact ⟨_ :: lower, lvl, upper, congrArg _ hcut.split, hcut.mem, hcut.shape⟩

namespace CutAt

variable {lower upper : List (List Int)}

theorem flatten_eq (h : CutAt s leaves levels c lower lvl upper) :
    leaves ++ levels.flatten = (lower.flatten ++ lvl) ++ upper.flatten := by
  rw [← List.flatten_cons, h.split, List.flatten_append, List.flatten_cons, List.append_assoc]

theorem length_le (h : CutAt s leaves levels c lower lvl upper) : upper.length ≤ levels.length := by
  have hlen := congrArg List.length h.split
  rw [List.length_append, List.length_cons, List.length_cons] at hlen
  omega

theorem mem_levels (h : CutAt s leaves levels c lower lvl upper) {l : List Int} (hl : l ∈ upper) :
    l ∈ levels := by
  have hsplit := h.split
  cases lower with
  | nil => exact (List.cons.inj hsplit).2 ▸ hl
  | cons l₀ lower =>
    rw [(List.cons.inj hsplit).2]
    exact List.mem_append_right _ (List.mem_cons_of_mem _ hl)

/-- The other levels are below, or the one of the node. -/
theorem mem_lower (h : CutAt s leaves levels c lower lvl upper) {l : List Int} (hl : l ∈ levels)
    (hlu : l ∉ upper) (hp : p ∈ l) : p ∈ lower.flatten ++ lvl := by
  have hl' : l ∈ lower ++ lvl :: upper := h.split ▸ List.mem_cons_of_mem _ hl
  rcases List.mem_append.mp hl' with hl' | hl'
  · exact List.mem_append_left _ (List.mem_flatten_of_mem hl' hp)
  · rcases List.mem_cons.mp hl' with rfl | hl'
    · exact List.mem_append_right _ hp
    · exact absurd hl' hlu

end CutAt

/-! ### The whole tree -/

/-- A tree, from its leaves up, in which all separators are right but perhaps that of `c`. -/
structure OneWrong (s : IxIndexHandle K) (leaves : List Int) (levels : List (List Int)) (c : Int) : Prop where
  shape : Shape s leaves levels
  nodup : (leaves ++ levels.flatten).Nodup
  pages : ∀ p ∈ leaves ++ levels.flatten, p ≠ -1
  mem : c ∈ leaves ++ levels.flatten
  seps : ∀ l ∈ levels, SepsBut s c l

namespace OneWrong

variable {lower upper : List (List Int)} {l : List Int}

/-- Where `c` is not a child, the separators are right. -/
theorem right (h : OneWrong s leaves levels c) (hl : l ∈ levels) (hc : (s.page c).parent ∉ l) :
    Seps s l := by
  intro p hp e he
  refine h.seps l hl p hp e he fun hec => hc ?_
  have hparent := h.shape.parent_child l hl p hp c (mem_children.mpr ⟨e, he, hec⟩)
  rw [hparent]
  exact hp

/-- Above the parent of `c`. -/
theorem right_above (h : OneWrong s leaves levels c) (hcut : CutAt s leaves levels c lower lvl upper)
    (hl : l ∈ upper.tail) : Seps s l := by
  have hnodup := h.nodup
  rw [hcut.flatten_eq] at hnodup
  have hupper := (List.nodup_append.mp hnodup).2.1
  refine h.right (hcut.mem_levels (List.mem_of_mem_tail hl)) fun hcl => ?_
  cases hcut.shape with
  | root => exact absurd hl List.not_mem_nil
  | level hlink hrest =>
    exact (List.nodup_append.mp hupper).2.2 _ (hlink.exists_parent hcut.mem).1 _
      (List.mem_flatten_of_mem hl hcl) rfl

/-- The nodes of the levels up to that of `c` are others than those above. -/
theorem not_above (h : OneWrong s leaves levels c) (hcut : CutAt s leaves levels c lower lvl upper)
    (hp : p ∈ lower.flatten ++ lvl) : p ∉ upper.flatten := by
  have hnodup := h.nodup
  rw [hcut.flatten_eq] at hnodup
  exact fun hpu => (List.nodup_append.mp hnodup).2.2 p hp p hpu rfl

/-- They are not the parents of nodes of this level or of a higher one. -/
theorem not_parent (h : OneWrong s leaves levels c) (hcut : CutAt s leaves levels c lower lvl upper)
    (hp : p ∈ lower.flatten ++ lvl) {x : Int} (hx : x ∈ lvl ++ upper.flatten) : (s.page x).parent ≠ p := by
  intro hxp
  have hpages := h.pages
  rw [hcut.flatten_eq] at hpages
  rcases hcut.shape.parent_mem x hx with hpar | hpar
  · exact h.not_above hcut hp (hxp ▸ hpar)
  · exact hpages p (List.mem_append_left _ hp) (hxp.symm.trans hpar)

/-- A level up to that of `c` stays right if only pages above are written. -/
theorem right_below (h : OneWrong s leaves levels c) (hcut : CutAt s leaves levels c lower lvl upper)
    (hmoved : KeysMoved s s' upper) (hl : l ∈ levels) (hlu : l ∉ upper) : Seps s' l := by
  have hlow : ∀ p ∈ l, p ∈ lower.flatten ++ lvl := fun p hp => hcut.mem_lower hl hlu hp
  have hright : Seps s l := h.right hl fun hcl =>
    h.not_parent hcut (hlow _ hcl) (List.mem_append_left _ hcut.mem) rfl
  refine hright.congr (fun p hp => ?_) fun p hp x hx => ?_
  · rw [hmoved.frame p (h.not_above hcut (hlow p hp))]
  · have hxp := h.shape.parent_child l hl p hp x hx
    have hxu : x ∉ upper.flatten := fun hxu =>
      h.not_parent hcut (hlow p hp) (List.mem_append_right _ hxu) hxp
    unfold firstKey
    rw [hmoved.frame x hxu]

/-- **`maintain_parent` makes all separators right again**, and writes nothing but separators on the path. -/
theorem separators_right [DecidableEq K] (h : OneWrong s leaves levels c) {fuel : Nat}
    (hfuel : levels.length < fuel) :
    ∃ s', maintainParent fuel s c = .ok s' ∧ (∀ l ∈ levels, Seps s' l) ∧
      s' = { s with page := s'.page } ∧ (∀ p, s'.page p = { s.page p with keys := (s'.page p).keys }) ∧
      ∀ p i, (s'.page p).keys i ≠ (s.page p).keys i → s.SepOnPath c p i := by
  obtain ⟨lower, lvl, upper, hcut⟩ := h.shape.exists_cut h.mem
  have hnodup := h.nodup
  have hpages := h.pages
  rw [hcut.flatten_eq] at hpages
  rw [hcut.flatten_eq, List.append_assoc] at hnodup
  obtain ⟨s', hrun, hmoved, hseps⟩ := maintainParent_spec (Nat.lt_of_le_of_lt hcut.length_le hfuel)
    hcut.shape (List.nodup_append.mp hnodup).2.1 (fun p hp => hpages p (List.mem_append_right _ hp)) hcut.mem
    (fun l hl => h.seps l (hcut.mem_levels (List.mem_of_mem_head? hl))) fun l hl => h.right_above hcut hl
  refine ⟨s', hrun, fun l hl => ?_, hmoved.header, hmoved.keys, fun p i => maintainParent_sepOnPath hrun⟩
  -- the loop sees the levels above that of `c` only
  by_cases hlu : l ∈ upper
  · exact hseps l hlu
  · exact h.right_below hcut hmoved hl hlu

end OneWrong

/-- The leaves 3 and 4 below the root 2; the leaf 3 has lost its first key 1. -/
def lostFirst : IxIndexHandle Nat :=
  { create 6 with
    rootPage := 2
    firstLeaf := 3
    lastLeaf := 4
    nextPage := 5
    page := fun p =>
      if p = 2 then
        { (IxNode.zero : IxNode Nat) with
          parent := -1
          numKey := 2
          keys := fun i => if i = 0 then 1 else 8
          rids := fun i => if i = 0 then ⟨3, 0⟩ else ⟨4, 0⟩ }
      else
        { (IxNode.zero : IxNode Nat) with
          parent := 2
          numKey := 1
          isLeaf := true
          keys := fun _ => if p = 3 then 5 else 8 } }

theorem lostFirst_oneWrong : OneWrong lostFirst [3, 4] [[2]] 3 where
  shape := by
    refine .level ⟨?_, rfl, ?_⟩ (.root rfl rfl)
    · decide
    · decide
  nodup := by decide
  pages := by decide
  mem := by decide
  seps := by
    intro l hl p hp e he hne
    rw [List.mem_singleton] at hl
    rw [hl, List.mem_singleton] at hp
    rw [hp] at he
    rcases List.mem_cons.mp he with rfl | he
    · exact absurd rfl hne
    · rw [List.mem_singleton.mp he]
      rfl

/-- The root gets the key 5. -/
theorem separators_right_lostFirst : ∃ s', maintainParent 2 lostFirst 3 = .ok s' ∧
    Seps s' [2] ∧ (s'.page 4).keys 0 = 8 := by
  obtain ⟨s', hrun, hseps, -, hkeys, hpath⟩ :=
    lostFirst_oneWrong.separators_right (show [[(2 : Int)]].length < 2 by decide)
  refine ⟨s', hrun, hseps _ List.mem_cons_self, ?_⟩
  by_contra hne
  exact absurd (hpath 4 0 hne).parent.1 (by decide)

end IxIndexHandle

end Rmdb
