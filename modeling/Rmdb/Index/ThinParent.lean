import Rmdb.Index.Redistribute

namespace Rmdb

open Lib Std

namespace IxIndexHandle

/-!
# A parent with too few children

After two leaves have merged, their parent has lost a child, and `coalesce_or_redistribute` is called
again for the parent.

* `LeafRow` — the leaves of a tree, without their sizes;
* `Thinned` — a tree in which one parent of leaves may have one child less than it should;
* `Thinned.adjustRoot` — the parent is the root: if one child is left, this becomes the root;
* `Thinned.redistributed` — the parent gets a child from its neighbour;
* `Thinned.repaired` — `coalesce_or_redistribute` of the parent, unless it has to merge too.
-/

variable {K : Type} {s s' : IxIndexHandle K} {left right P : Int} {leaves lvl A B : List Int}
  {levels rest : List (List Int)}

/-! ### Leaves -/

/-- The leaves, from left to right. -/
structure LeafRow [Ord K] (s : IxIndexHandle K) (leaves : List Int) : Prop where
  isLeaf : ∀ p ∈ leaves, (s.page p).isLeaf = true
  sorted : Increasing (s.contents leaves)
  chain : LeafChain s leaves
  order : 3 ≤ s.btreeOrder

section Ord

variable [Ord K]

theorem Tree.leafRow (h : Tree s leaves levels) : LeafRow s leaves :=
  ⟨h.isLeaf, h.sorted, h.chain, h.order⟩

theorem LeafRow.tree (h : LeafRow s leaves) (hup : Upper s leaves levels)
    (hfilled : FilledLeaves s leaves levels) : Tree s leaves levels :=
  ⟨hup, h.isLeaf, hfilled, h.sorted, h.chain, h.order⟩

/-- The leaves have got other parents. -/
theorem LeafRow.congr {t : IxIndexHandle K} (h : LeafRow s leaves) (hfirst : t.firstLeaf = s.firstLeaf)
    (hlast : t.lastLeaf = s.lastLeaf) (horder : t.btreeOrder = s.btreeOrder)
    (hpage : ∀ x ∈ leaves, t.page x = { s.page x with parent := (t.page x).parent }) :
    LeafRow t leaves ∧ t.contents leaves = s.contents leaves := by
  have hcontents : t.contents leaves = s.contents leaves := contents_congr fun x hx => by
    rw [hpage x hx]
    rfl
  refine ⟨⟨fun x hx => ?_, ?_, ?_, ?_⟩, hcontents⟩
  · rw [hpage x hx]
    exact h.isLeaf x hx
  · rw [hcontents]
    exact h.sorted
  · exact h.chain.congr (fun x hx => by rw [hpage x hx]) hfirst hlast
  · rw [horder]
    exact h.order

/-- Two leaves share their pairs in another way. -/
theorem Balanced.leafRow {l r : IxNode K} {c q : Int} {e : K × Rid}
    (h : Balanced s s' left right l r c q levels) (hsh : Shared s left right l r e q)
    (hl : l = { s.page left with keys := l.keys, rids := l.rids, numKey := l.numKey })
    (hr : r = { s.page right with keys := r.keys, rids := r.rids, numKey := r.numKey })
    (hrow : LeafRow s (A ++ left :: right :: B)) (hnd : (A ++ left :: right :: B).Nodup)
    (hlev : ∀ x ∈ A ++ left :: right :: B, x ∉ levels.flatten) :
    LeafRow s' (A ++ left :: right :: B) ∧
      s'.contents (A ++ left :: right :: B) = s.contents (A ++ left :: right :: B) := by
  have hleft := hrow.isLeaf left (List.mem_append_right _ List.mem_cons_self)
  have hright := hrow.isLeaf right
    (List.mem_append_right _ (List.mem_cons_of_mem _ List.mem_cons_self))
  have hleaf : l.isLeaf = true := by
    rw [hl]
    exact hleft
  obtain ⟨hpl, hpr, hsame⟩ := h.pages hnd hlev fun hc => by
    rw [hleaf] at hc
    cases hc
  have hcontents : s'.contents (A ++ left :: right :: B) = s.contents (A ++ left :: right :: B) := by
    have hcA : s'.contents A = s.contents A := contents_congr fun x hx => by rw [hsame x (Or.inl hx)]
    have hcB : s'.contents B = s.contents B := contents_congr fun x hx => by rw [hsame x (Or.inr hx)]
    rw [contents_append, contents_cons, contents_cons, contents_append, contents_cons, contents_cons,
      ← List.append_assoc (s'.page left).entries, ← List.append_assoc (s.page left).entries, hpl, hpr,
      hsh.entries, hcA, hcB]
  refine ⟨⟨fun x hx => ?_, ?_, ?_, ?_⟩, hcontents⟩
  · rcases mem_or_of_mem hx with hx' | rfl | rfl
    · rw [hsame x hx']
      exact hrow.isLeaf x hx
    · rw [hpl, hleaf]
    · rw [hpr, hr]
      exact hright
  · rw [hcontents]
    exact hrow.sorted
  · refine hrow.chain.congr (fun x hx => ?_) (by rw [h.header]) (by rw [h.header])
    rcases mem_or_of_mem hx with hx' | rfl | rfl
    · rw [hsame x hx']
    · rw [hpl, hl]
    · rw [hpr, hr]
  · rw [h.header]
    exact hrow.order

/-! ### A parent with too few children -/

/-- A tree in which the parent `P` of some leaves may have one child less than it should. -/
structure Thinned (s : IxIndexHandle K) (leaves lvl : List Int) (rest : List (List Int)) (P : Int) :
    Prop where
  row : LeafRow s leaves
  size : ∀ x ∈ leaves, s.minSize ≤ (s.page x).numKey ∧ (s.page x).numKey < s.maxSize
  linked : Linked s lvl leaves
  seps : Seps s lvl
  upper : Upper s lvl rest
  mem : P ∈ lvl
  others : ∀ x ∈ lvl, x ≠ P → 2 ≤ (s.page x).numKey ∧ (s.page x).numKey < s.maxSize ∧
    (rest ≠ [] → s.minSize ≤ (s.page x).numKey)
  thin : 1 ≤ (s.page P).numKey ∧ (s.page P).numKey < s.maxSize ∧
    (rest ≠ [] → s.minSize ≤ (s.page P).numKey + 1)
  nodup : leaves.Nodup
  disjoint : ∀ x ∈ leaves, x ∉ lvl ++ rest.flatten
  range : ∀ x ∈ leaves, 2 ≤ x ∧ x < s.nextPage

namespace Thinned

/-- The parent has enough children after all. -/
theorem tree (h : Thinned s leaves lvl rest P) (htwo : 2 ≤ (s.page P).numKey)
    (hmin : rest ≠ [] → s.minSize ≤ (s.page P).numKey) : Tree s leaves (lvl :: rest) := by
  refine h.row.tree (h.upper.cons h.linked h.seps (fun x hx => ?_) h.nodup h.disjoint h.range)
    fun x hx => ⟨(h.size x hx).2, fun _ => (h.size x hx).1⟩
  by_cases hxP : x = P
  · rw [hxP]
    exact ⟨htwo, h.thin.2.1, hmin⟩
  · exact h.others x hx hxP

theorem numKey_ne_zero (h : Thinned s leaves lvl rest P) : ∀ x ∈ lvl, (s.page x).numKey ≠ 0 := by
  intro x hx
  by_cases hxP : x = P
  · have := h.thin.1
    rw [hxP]
    omega
  · have := (h.others x hx hxP).1
    omega

theorem increasingKeys (h : Thinned s leaves lvl rest P) : IncreasingKeys s lvl := by
  refine h.linked.increasing h.seps h.numKey_ne_zero ?_
  refine increasingKeys_of_contents h.row.sorted fun x hx => ?_
  have hmin := (h.size x hx).1
  have horder := h.row.order
  unfold minSize maxSize at hmin
  omega

/-- **The root has lost a child.** If one child is left, it becomes the root. -/
theorem adjustRoot (h : Thinned s leaves lvl [] P) :
    ∃ levels', Tree (s.adjustRoot P) leaves levels' ∧
      (s.adjustRoot P).contents leaves = s.contents leaves := by
  obtain rfl : lvl = [P] := by
    have hmem := h.mem
    obtain ⟨r, rfl⟩ := h.upper.leaves_eq_singleton
    rw [List.mem_singleton.mp hmem]
  have hinner := h.linked.inner P h.mem
  unfold IxIndexHandle.adjustRoot
  dsimp only
  by_cases hone : (s.page P).numKey = 1
  · rw [if_pos ⟨hinner, hone⟩]
    set c := (s.page P).valueAt 0 with hc
    -- the only leaf
    have hleaves : leaves = [c] := by
      have hkids := h.linked.flat
      rw [List.flatMap_singleton] at hkids
      have hlen : leaves.length = 1 := by rw [hkids, length_children, hone]
      have hmem : c ∈ leaves := by
        rw [hkids]
        exact valueAt_mem_children (by rw [hone]; exact Nat.zero_lt_one)
      obtain ⟨x, rfl⟩ := List.length_eq_one_iff.mp hlen
      rw [List.mem_singleton.mp hmem]
    subst hleaves
    set s' : IxIndexHandle K :=
      { s.setParent c (-1) with numPages := s.numPages - 1, rootPage := c } with hs'
    have hpage : s'.page c = { s.page c with parent := -1 } := by
      show (s.setParent c (-1)).page c = _
      rw [setParent, page_modify, if_pos rfl]
    obtain ⟨hrow, hcontents⟩ := h.row.congr (t := s') rfl rfl rfl fun x hx => by
      rw [List.mem_singleton.mp hx, hpage]
    refine ⟨[], hrow.tree ⟨.root rfl (by rw [hpage]), fun _ hl => absurd hl List.not_mem_nil, trivial,
      List.nodup_singleton _, fun x hx => ?_⟩ fun x hx => ⟨?_, fun hl => absurd rfl hl⟩, hcontents⟩
    · rw [List.flatten_nil, List.append_nil] at hx
      exact h.range x hx
    · rw [List.mem_singleton.mp hx, hpage]
      exact (h.size c List.mem_cons_self).2
  · rw [if_neg fun hcond => hone hcond.2]
    have htwo : 2 ≤ (s.page P).numKey := by
      have := h.thin.1
      omega
    exact ⟨[[P]], h.tree htwo fun hne => absurd rfl hne, rfl⟩

/-- **The parent and a neighbour share their children** in another way. -/
theorem balanced {l r : IxNode K} {q : Int} {e : K × Rid}
    (h : Thinned s leaves (A ++ left :: right :: B) rest P)
    (hb : Balanced s s' left right l r e.2.pageNo q rest) (hsh : Shared s left right l r e q)
    (hl : l.isLeaf = false) (hr : r.isLeaf = false)
    (hP : P = left ∨ P = right) (hup : Upper s' (A ++ left :: right :: B) rest)
    (hsl : s.minSize ≤ l.numKey ∧ l.numKey < s.maxSize)
    (hsr : s.minSize ≤ r.numKey ∧ r.numKey < s.maxSize) :
    Tree s' leaves ((A ++ left :: right :: B) :: rest) ∧ s'.contents leaves = s.contents leaves := by
  have hlvl := h.upper.below_nodup
  have hdisj : ∀ x ∈ leaves, x ∉ A ++ left :: right :: B := fun x hx hx' =>
    h.disjoint x hx (List.mem_append_left _ hx')
  have hleft : left ∈ A ++ left :: right :: B := List.mem_append_right _ List.mem_cons_self
  have hright : right ∈ A ++ left :: right :: B :=
    List.mem_append_right _ (List.mem_cons_of_mem _ List.mem_cons_self)
  have hnd : (leaves ++ (A ++ left :: right :: B)).Nodup := by
    rw [List.nodup_append]
    exact ⟨h.nodup, hlvl, fun a ha b hb hab => hdisj a ha (hab ▸ hb)⟩
  have hlev : ∀ x ∈ leaves ++ (A ++ left :: right :: B), x ∉ rest.flatten := by
    intro x hx hx'
    rcases List.mem_append.mp hx with hx | hx
    · exact h.disjoint x hx (List.mem_append_right _ hx')
    · exact h.upper.disjoint hx hx'
  -- the child that moves is a leaf
  have hc : e.2.pageNo ∈ leaves := by
    rcases List.mem_append.mp hsh.mem with he | he
    · exact h.linked.mem_below hleft (mem_children.mpr ⟨e, he, rfl⟩)
    · exact h.linked.mem_below hright (mem_children.mpr ⟨e, he, rfl⟩)
  obtain ⟨hpl, hpr, hsame⟩ := hb.pages hlvl (fun x hx => hlev x (List.mem_append_right _ hx))
    fun _ x hx hxc => hdisj _ hc (hxc ▸ hx)
  have hpage : ∀ x ∈ leaves, s'.page x = { s.page x with parent := (s'.page x).parent } := by
    intro x hx
    refine hb.page_eq (hlev x (List.mem_append_left _ hx)) (fun hxl => ?_) fun hxr => ?_
    · exact hdisj x hx (hxl ▸ hleft)
    · exact hdisj x hx (hxr ▸ hright)
  obtain ⟨hrow, hcontents⟩ := h.row.congr (by rw [hb.header]) (by rw [hb.header]) (by rw [hb.header])
    hpage
  have horder : s'.btreeOrder = s.btreeOrder := by rw [hb.header]
  have hmax : s'.maxSize = s.maxSize := by
    unfold maxSize
    rw [horder]
  have hmin : s'.minSize = s.minSize := by
    unfold minSize
    rw [hmax]
  have htwo : 2 ≤ s.minSize := by
    have := h.row.order
    unfold minSize maxSize
    omega
  refine ⟨hrow.tree (hup.cons (hb.linked hsh hl hr h.linked hnd hlev) ?_ (fun x hx => ?_) h.nodup
    h.disjoint fun x hx => ?_) fun x hx => ?_, hcontents⟩
  · refine hsh.seps h.seps hpl hpr hsame fun x hx z hz => ?_
    unfold firstKey
    rw [hpage z (h.linked.mem_below hx hz)]
  · rw [hmax, hmin]
    rcases mem_or_of_mem hx with hx' | rfl | rfl
    · rw [hsame x hx']
      obtain ⟨-, hxl, hxr⟩ := others_ne hlvl hx'
      refine h.others x hx fun hxP => ?_
      rcases hP with hP | hP
      · exact hxl (hxP.trans hP)
      · exact hxr (hxP.trans hP)
    · rw [hpl]
      exact ⟨by omega, hsl.2, fun _ => hsl.1⟩
    · rw [hpr]
      exact ⟨by omega, hsr.2, fun _ => hsr.1⟩
  · rw [hb.header]
    exact h.range x hx
  · rw [hmax, hmin, hpage x hx]
    exact ⟨(h.size x hx).2, fun _ => (h.size x hx).1⟩

/-- The parent gets a child from a neighbour under the same parent. -/
theorem redistributed [DecidableEq K] {j : Nat} (h : Thinned s leaves lvl rest P) (hrest : rest ≠ [])
    (hj : j ≤ 1) (hval : (s.page (s.page P).parent).valueAt j = P)
    (hsize : (s.page P).numKey < s.minSize)
    (hsum : 2 * s.minSize ≤
      (s.page P).numKey + (s.page ((s.page (s.page P).parent).valueAt (1 - j))).numKey) :
    ∃ s', s.redistribute ((s.page (s.page P).parent).valueAt (1 - j)) P j = .ok s' ∧
      Tree s' leaves (lvl :: rest) ∧ s'.contents leaves = s.contents leaves := by
  obtain ⟨lvl', rest', rfl⟩ := List.exists_cons_of_ne_nil hrest
  have hGmem := (h.upper.linked.exists_parent h.mem).1
  generalize (s.page P).parent = G at hval hsum hGmem ⊢
  obtain ⟨A, left, right, B, hleft, hright, hne, rfl⟩ := h.upper.first_two hGmem
  have hlmem : left ∈ A ++ left :: right :: B := List.mem_append_right _ List.mem_cons_self
  have hrmem : right ∈ A ++ left :: right :: B :=
    List.mem_append_right _ (List.mem_cons_of_mem _ List.mem_cons_self)
  have hnb : Neighbours s s left right (A ++ left :: right :: B) (lvl' :: rest') :=
    ⟨h.upper, .refl s _ _ _, hlmem, hrmem, hne⟩
  have hinner := h.linked.inner
  -- children are leaves
  have hchild : ∀ x ∈ A ++ left :: right :: B, ∀ i < (s.page x).numKey,
      (s.page x).valueAt i ∉ (A ++ left :: right :: B) ++ (lvl' :: rest').flatten := fun x hx i hi =>
    h.disjoint _ (h.linked.mem_below hx (valueAt_mem_children hi))
  have hminP := h.thin.2.2 (List.cons_ne_nil _ _)
  have horder := h.row.order
  have hms : s.minSize = (s.btreeOrder + 1) / 2 := rfl
  have hmx : s.maxSize = s.btreeOrder + 1 := rfl
  obtain rfl | rfl := Nat.le_one_iff_eq_zero_or_eq_one.mp hj
  · -- the parent is the left one
    obtain rfl : left = P := hleft.symm.trans hval
    rw [show (s.page G).valueAt (1 - 0) = right from hright] at hsum ⊢
    obtain ⟨hr2, hrmax, -⟩ := h.others right hrmem hne.symm
    obtain ⟨s', l, r, hrun, hpassed, hl, hr, hb, hup⟩ := redistribute_first hnb
      (h.numKey_ne_zero left hlmem) (by omega) fun _ => hchild right hrmem 0 (by omega)
    obtain ⟨hnl, hnr⟩ := hpassed.numKey
    refine ⟨s', hrun, h.balanced hb (Or.inl ⟨rfl, hpassed⟩) ?_ ?_ (Or.inl rfl) hup ?_ ?_⟩
    · rw [hl]
      exact hinner left hlmem
    · rw [hr]
      exact hinner right hrmem
    · omega
    · omega
  · -- the parent is the right one
    obtain rfl : right = P := hright.symm.trans hval
    rw [show (s.page G).valueAt (1 - 1) = left from hleft] at hsum ⊢
    obtain ⟨hl2, hlmax, -⟩ := h.others left hlmem hne
    obtain ⟨s', l, r, hrun, hpassed, hl, hr, hb, hup⟩ := redistribute_second hnb Nat.one_ne_zero
      (by omega) ((hinner right hrmem).trans (hinner left hlmem).symm)
      fun _ => hchild left hlmem _ (by omega)
    obtain ⟨hnl, hnr⟩ := hpassed.numKey
    refine ⟨s', hrun, h.balanced hb (Or.inr ⟨rfl, hpassed⟩) ?_ ?_ (Or.inr rfl) hup ?_ ?_⟩
    · rw [hl]
      exact hinner left hlmem
    · rw [hr]
      exact hinner right hrmem
    · omega
    · omega

/-- **`coalesce_or_redistribute` of the parent.** -/
theorem repaired [DecidableEq K] [TransOrd K] (h : Thinned s leaves lvl rest P)
    (hsafe : rest ≠ [] → (s.page P).numKey < s.minSize → ∃ j ≤ 1,
      (s.page (s.page P).parent).valueAt j = P ∧ 2 * s.minSize ≤
        (s.page P).numKey + (s.page ((s.page (s.page P).parent).valueAt (1 - j))).numKey)
    (fuel : Nat) : ∃ s', coalesceOrRedistribute (fuel + 1) s P = .ok s' ∧
      ∃ levels', Tree s' leaves levels' ∧ s'.contents leaves = s.contents leaves := by
  cases rest with
  | nil =>
    have hroot : (s.page P).isRootPage = true := by
      have hmem := h.mem
      unfold IxNode.isRootPage
      cases h.upper.shape with
      | root hr hp => rw [List.mem_singleton.mp hmem, hp, decide_eq_true_eq]
    refine ⟨s.adjustRoot P, ?_, h.adjustRoot⟩
    rw [coalesceOrRedistribute, if_pos hroot]
  | cons lvl' rest' =>
    have hroot : (s.page P).isRootPage = false := by
      have hpos := (h.upper.tail.range _
        (List.mem_append_left _ (h.upper.linked.exists_parent h.mem).1)).1
      unfold IxNode.isRootPage
      rw [decide_eq_false_iff_not]
      omega
    by_cases hmin : s.minSize ≤ (s.page P).numKey
    · obtain ⟨n, hn⟩ : ∃ n, s.fuel = n + 1 := by
        have := h.upper.length_lt_fuel
        exact ⟨s.fuel - 1, by omega⟩
      refine ⟨s, ?_, lvl :: lvl' :: rest', h.tree ?_ fun _ => hmin, rfl⟩
      · rw [coalesceOrRedistribute]
        dsimp only
        rw [hroot, if_neg Bool.false_ne_true, if_pos hmin, hn]
        exact h.upper.maintainParent_eq h.mem n
      · have horder := h.row.order
        unfold minSize maxSize at hmin
        omega
    · obtain ⟨j, hj, hval, hsum⟩ := hsafe (List.cons_ne_nil _ _) (Nat.lt_of_not_le hmin)
      obtain ⟨s', hrun, htree, hcontents⟩ := h.redistributed (List.cons_ne_nil _ _) hj hval
        (Nat.lt_of_not_le hmin) hsum
      refine ⟨s', ?_, _, htree, hcontents⟩
      rw [coalesceOrRedistribute_eq fuel hroot (Nat.lt_of_not_le hmin),
        h.upper.siblingArgs_eq h.increasingKeys h.mem hj hval]
      show (if _ then _ else _) = _
      rw [if_pos hsum, hrun]

end Thinned

end Ord

end IxIndexHandle

end Rmdb
