import Rmdb.Index.Coalesce
import Rmdb.Index.ThinParent

namespace Rmdb

open Lib Std

namespace IxIndexHandle

/-!
# Two leaves become one

* `LeavesMerged` — the pages after `coalesce` has moved the pairs of the right leaf to the left one and
  taken it out of the list of leaves; this needs the backward link of the right leaf to be right;
* `LeavesMerged.leafRow` — the leaves that are left, with the same contents;
* `ChildLost` — the parent has lost its second child;
* `LeavesMerged.thinned` — the tree afterwards, in which the parent may have too few children.
-/

variable {K : Type} {s s' : IxIndexHandle K} {left right P : Int} {leaves lvl A B LA LB : List Int}
  {rest : List (List Int)}

section Ord

variable [Ord K]

/-! ### Merging two leaves -/

/-- The pages after the pairs of the right leaf have gone to the left one and the list of leaves skips
    it. -/
structure LeavesMerged (s t : IxIndexHandle K) (left right : Int) : Prop where
  header : t = { s with
    page := t.page, numPages := s.numPages - 1
    lastLeaf := if s.lastLeaf = right then left else s.lastLeaf }
  merged : t.page left = { s.mergedNode left right with
    nextLeaf := (s.page right).nextLeaf, prevLeaf := (t.page left).prevLeaf }
  frame : ∀ x ≠ left, t.page x = { s.page x with prevLeaf := (t.page x).prevLeaf }

omit [Ord K] in
/-- What merging two neighbours does. -/
theorem mergeNodes_leaves (hne : left ≠ right) (hleft : (s.page left).isLeaf = true)
    (hright : (s.page right).isLeaf = true) (hprev : (s.page right).prevLeaf = left) :
    LeavesMerged s (s.mergeNodes left right) left right := by
  have hpage : ∀ x, (s.mergeNodes left right).page x =
      let m := if x = left then s.mergedNode left right else s.page x
      let m := if x = left then { m with nextLeaf := (s.page right).nextLeaf } else m
      if x = (s.page right).nextLeaf then { m with prevLeaf := left } else m := by
    intro x
    rw [mergeNodes_leaf hne hleft hright, hprev]
  refine ⟨?_, ?_, fun x hx => ?_⟩
  · rw [mergeNodes_leaf hne hleft hright]
  · rw [hpage]
    dsimp only
    rw [if_pos rfl, if_pos rfl]
    split <;> rfl
  · rw [hpage]
    dsimp only
    rw [if_neg hx, if_neg hx]
    split <;> rfl

namespace LeavesMerged

variable {t : IxIndexHandle K}

omit [Ord K] in
/-- The parents stay. -/
theorem parent (hm : LeavesMerged s t left right) (x : Int) :
    (t.page x).parent = (s.page x).parent := by
  by_cases hx : x = left
  · rw [hx, hm.merged]
    rfl
  · rw [hm.frame x hx]

omit [Ord K] in
/-- The first keys stay. -/
theorem firstKey (hm : LeavesMerged s t left right) (hne : (s.page left).numKey ≠ 0) (x : Int) :
    t.firstKey x = s.firstKey x := by
  unfold IxIndexHandle.firstKey
  by_cases hx : x = left
  · rw [hx, hm.merged]
    show (s.mergedNode left right).keys 0 = _
    unfold mergedNode IxNode.insertPairs
    dsimp only
    rw [if_pos (Nat.pos_of_ne_zero hne)]
  · rw [hm.frame x hx]

omit [Ord K] in
/-- The pairs of the other leaves stay. -/
theorem entries (hm : LeavesMerged s t left right) {x : Int} (hx : x ≠ left) :
    (t.page x).entries = (s.page x).entries := by
  rw [hm.frame x hx]
  rfl

omit [Ord K] in
/-- The left one gets the pairs of both. -/
theorem entries_left (hm : LeavesMerged s t left right) :
    (t.page left).entries = (s.page left).entries ++ (s.page right).entries := by
  rw [hm.merged, ← entries_mergedNode s left right]
  rfl

/-- **The leaves without the right one.** -/
theorem leafRow (hm : LeavesMerged s t left right) (hrow : LeafRow s (A ++ left :: right :: B))
    (hnd : (A ++ left :: right :: B).Nodup) :
    LeafRow t (A ++ left :: B) ∧ t.contents (A ++ left :: B) = s.contents (A ++ left :: right :: B) := by
  have hother : ∀ x, x ∈ A ∨ x ∈ B → x ≠ left ∧ x ≠ right := fun x hx => (others_ne hnd hx).2
  -- the pairs of the right leaf now stand in the left one
  have hcontents : t.contents (A ++ left :: B) = s.contents (A ++ left :: right :: B) := by
    have hcA : t.contents A = s.contents A :=
      contents_congr fun x hx => hm.entries (hother x (Or.inl hx)).1
    have hcB : t.contents B = s.contents B :=
      contents_congr fun x hx => hm.entries (hother x (Or.inr hx)).1
    rw [contents_append, contents_cons, contents_append, contents_cons, contents_cons,
      hm.entries_left, hcA, hcB, List.append_assoc (s.page left).entries]
  have hmem : ∀ x ∈ A ++ left :: B, x ∈ A ++ left :: right :: B := by
    intro x hx
    simp only [List.mem_append, List.mem_cons] at hx ⊢
    tauto
  have hnext : ∀ x, x ∈ A ∨ x ∈ B → (t.page x).nextLeaf = (s.page x).nextLeaf := by
    intro x hx
    rw [hm.frame x (hother x hx).1]
  refine ⟨⟨fun x hx => ?_, ?_, ⟨?_, ?_, ?_⟩, ?_⟩, hcontents⟩
  · by_cases hxl : x = left
    · rw [hxl, hm.merged]
      exact hrow.isLeaf left (hmem left (List.mem_append_right _ List.mem_cons_self))
    · rw [hm.frame x hxl]
      exact hrow.isLeaf x (hmem x hx)
  · rw [hcontents]
    exact hrow.sorted
  · -- the link of the left leaf skips the right one
    obtain ⟨hA, hlr, hAl⟩ := List.isChain_append.mp hrow.chain.next
    obtain ⟨-, hrB⟩ := List.isChain_cons_cons.mp hlr
    refine List.isChain_append.mpr ⟨?_, ?_, fun a ha b hb => ?_⟩
    · exact hA.imp_of_mem_imp fun a b ha _ hab => (hnext a (Or.inl ha)).trans hab
    · cases B with
      | nil => exact List.IsChain.singleton _
      | cons b B =>
        obtain ⟨hrb, hB⟩ := List.isChain_cons_cons.mp hrB
        refine List.isChain_cons_cons.mpr ⟨?_, ?_⟩
        · rw [hm.merged]
          exact hrb
        · exact hB.imp_of_mem_imp fun a b ha _ hab => (hnext a (Or.inr ha)).trans hab
    · cases hb
      exact (hnext a (Or.inl (List.mem_of_mem_getLast? ha))).trans (hAl a ha left rfl)
  · rw [show t.firstLeaf = s.firstLeaf by rw [hm.header]]
    cases A with
    | nil => exact hrow.chain.first
    | cons a A => exact hrow.chain.first
  · rw [show t.lastLeaf = if s.lastLeaf = right then left else s.lastLeaf by rw [hm.header]]
    have hlast := hrow.chain.last
    rw [List.getLast?_append_cons, List.getLast?_cons_cons] at hlast
    rw [List.getLast?_append_cons]
    -- the right leaf may have been the last
    cases B with
    | nil =>
      have hlast' : s.lastLeaf = right := (Option.some.inj hlast).symm
      rw [if_pos hlast']
      rfl
    | cons b B =>
      rw [List.getLast?_cons_cons] at hlast ⊢
      rw [if_neg (hother _ (Or.inr (List.mem_of_mem_getLast? hlast))).2]
      exact hlast
  · rw [hm.header]
    exact hrow.order

end LeavesMerged

/-- The parent `P` has lost its second child; nothing else has changed that the levels above the leaves
    see. -/
structure ChildLost (s s' : IxIndexHandle K) (leaves lvl : List Int) (rest : List (List Int)) (P : Int) :
    Prop where
  mem : P ∈ lvl
  rootPage : s'.rootPage = s.rootPage
  btreeOrder : s'.btreeOrder = s.btreeOrder
  nextPage : s'.nextPage = s.nextPage
  page : s'.page P = { (s.page P).shiftDown 1 with prevLeaf := (s'.page P).prevLeaf }
  above : ∀ x ∈ lvl ++ rest.flatten, x ≠ P → Relinked (s.page x) (s'.page x)
  parent : ∀ x ∈ leaves, (s'.page x).parent = (s.page x).parent
  firstKey : ∀ x ∈ leaves, s'.firstKey x = s.firstKey x

namespace ChildLost

omit [Ord K] in
theorem entries (h : ChildLost s s' leaves lvl rest P) (htwo : 1 < (s.page P).numKey) :
    (s'.page P).entries = (s.page P).entries.take 1 ++ (s.page P).entries.drop 2 := by
  rw [h.page, ← IxNode.entries_shiftDown _ htwo]
  rfl

omit [Ord K] in
/-- Only pairs that were there are there. -/
theorem mem_entries (h : ChildLost s s' leaves lvl rest P) (htwo : 1 < (s.page P).numKey) {x : Int}
    (hx : x ∈ lvl) {e : K × Rid} (he : e ∈ (s'.page x).entries) : e ∈ (s.page x).entries := by
  by_cases hxP : x = P
  · rw [hxP] at he ⊢
    rw [h.entries htwo] at he
    exact (List.mem_append.mp he).elim List.mem_of_mem_take List.mem_of_mem_drop
  · rw [(h.above x (List.mem_append_left _ hx) hxP).entries] at he
    exact he

omit [Ord K] in
/-- The levels above stay a tree. -/
theorem upper (h : ChildLost s s' leaves lvl rest P) (hup : Upper s lvl rest) :
    Upper s' lvl rest := by
  have halike : AlikeBut s s' P lvl rest := by
    refine ⟨h.rootPage, h.btreeOrder, h.nextPage, fun x hx => ?_, fun x hx hxP => ?_, fun x hx => ?_⟩
    · by_cases hxP : x = P
      · rw [hxP, h.page]
        rfl
      · rw [h.above x (List.mem_append_left _ hx) hxP]
    · unfold IxIndexHandle.firstKey
      rw [h.above x (List.mem_append_left _ hx) hxP]
    · exact h.above x (List.mem_append_right _ hx) fun hxP => hup.disjoint h.mem (hxP ▸ hx)
  refine halike.upper hup ?_
  unfold IxIndexHandle.firstKey
  rw [h.page]
  exact IxNode.keys_zero_shiftDown _ Nat.one_ne_zero

omit [Ord K] in
/-- The level of the parent, and the leaves that are left. -/
theorem linked {cs : List Int} (h : ChildLost s s' leaves (LA ++ P :: LB) rest P)
    (hlink : Linked s (LA ++ P :: LB) leaves) (hlvl : (LA ++ P :: LB).Nodup)
    (htwo : 1 < (s.page P).numKey) (hkids : s.children P = left :: right :: cs) :
    Linked s' (LA ++ P :: LB)
      (LA.flatMap s.children ++ left :: (cs ++ LB.flatMap s.children)) := by
  have hkidsP : s'.children P = left :: cs := by
    have hmap : s'.children P = (s.children P).take 1 ++ (s.children P).drop 2 := by
      unfold children
      rw [h.entries htwo, List.map_append, List.map_take, List.map_drop]
    rw [hmap, hkids]
    rfl
  rw [List.nodup_middle, List.nodup_cons] at hlvl
  have hsame : ∀ x, x ∈ LA ∨ x ∈ LB → s'.children x = s.children x := by
    intro x hx
    have hxm : x ∈ LA ++ P :: LB := by
      simp only [List.mem_append, List.mem_cons]
      tauto
    exact (h.above x (List.mem_append_left _ hxm) fun hxP =>
      hlvl.1 (hxP ▸ List.mem_append.mpr hx)).sameLinks.children
  refine ⟨fun x hx => ?_, ?_, fun x hx c hc => ?_⟩
  · by_cases hxP : x = P
    · rw [hxP, h.page]
      exact hlink.inner P h.mem
    · rw [h.above x (List.mem_append_left _ hx) hxP]
      exact hlink.inner x hx
  · rw [List.flatMap_append, List.flatMap_cons, hkidsP,
      List.flatMap_congr fun x hx => hsame x (Or.inl hx),
      List.flatMap_congr fun x hx => hsame x (Or.inr hx)]
    rfl
  · obtain ⟨e, he, rfl⟩ := mem_children.mp hc
    have hc' := mem_children.mpr ⟨e, h.mem_entries htwo hx he, rfl⟩
    rw [h.parent _ (hlink.mem_below hx hc')]
    exact hlink.parent x hx _ hc'

omit [Ord K] in
/-- The separators stay right. -/
theorem seps (h : ChildLost s s' leaves lvl rest P) (hlink : Linked s lvl leaves) (hseps : Seps s lvl)
    (htwo : 1 < (s.page P).numKey) : Seps s' lvl := by
  intro x hx e he
  have he' := h.mem_entries htwo hx he
  rw [h.firstKey _ (hlink.mem_below hx (mem_children.mpr ⟨e, he', rfl⟩))]
  exact hseps x hx e he'

end ChildLost

namespace LeavesMerged

variable {t : IxIndexHandle K}

omit [Ord K] in
/-- **The parent after the merge**: it has lost the right leaf. -/
theorem childLost (hm : LeavesMerged s t left right) (hup : Upper s leaves (lvl :: rest))
    (hleft : left ∈ leaves) (hne : (s.page left).numKey ≠ 0) (hP : P ∈ lvl) :
    ChildLost s (t.set P ((t.page P).shiftDown 1)) leaves lvl rest P := by
  have hdisj : ∀ x ∈ leaves, x ∉ lvl ++ rest.flatten := fun x hx => hup.disjoint hx
  have hPl : P ≠ left := fun h => hdisj left hleft (List.mem_append_left _ (h ▸ hP))
  have hleafP : ∀ x ∈ leaves, x ≠ P := fun x hx hxP =>
    hdisj x hx (List.mem_append_left _ (hxP ▸ hP))
  have hpage : ∀ x ≠ P, (t.set P ((t.page P).shiftDown 1)).page x = t.page x := fun x hx => by
    rw [page_set, if_neg hx]
  refine ⟨hP, ?_, ?_, ?_, ?_, fun x hx hxP => ?_, fun x hx => ?_, fun x hx => ?_⟩
  · show t.rootPage = _
    rw [hm.header]
  · show t.btreeOrder = _
    rw [hm.header]
  · show t.nextPage = _
    rw [hm.header]
  · rw [page_set, if_pos rfl, hm.frame P hPl]
    rfl
  · rw [hpage x hxP, hm.frame x fun hxl => hdisj left hleft (hxl ▸ hx)]
    rfl
  · rw [hpage x (hleafP x hx), hm.parent]
  · unfold IxIndexHandle.firstKey
    rw [hpage x (hleafP x hx)]
    exact hm.firstKey hne x

/-- **The tree after the merge**, but for the size of the parent. -/
theorem thinned {cs : List Int} (hm : LeavesMerged s t left right)
    (hup : Upper s (A ++ left :: right :: B) ((LA ++ P :: LB) :: rest))
    (hrow : LeafRow s (A ++ left :: right :: B)) (hkids : s.children P = left :: right :: cs)
    (hA : A = LA.flatMap s.children) (hB : B = cs ++ LB.flatMap s.children)
    (hne : (s.page left).numKey ≠ 0)
    (hsum : s.minSize ≤ (s.page left).numKey + (s.page right).numKey ∧
      (s.page left).numKey + (s.page right).numKey < s.maxSize)
    (hsize : ∀ x, x ∈ A ∨ x ∈ B → s.minSize ≤ (s.page x).numKey ∧ (s.page x).numKey < s.maxSize) :
    Thinned (t.set P ((t.page P).shiftDown 1)) (A ++ left :: B) (LA ++ P :: LB) rest P ∧
      (t.set P ((t.page P).shiftDown 1)).contents (A ++ left :: B) =
        s.contents (A ++ left :: right :: B) := by
  set s₂ := t.set P ((t.page P).shiftDown 1) with hs₂
  have hPmem : P ∈ LA ++ P :: LB := List.mem_append_right _ List.mem_cons_self
  have hlmem : left ∈ A ++ left :: right :: B := List.mem_append_right _ List.mem_cons_self
  have hPfilled := hup.filled.1 P hPmem
  have hlost := hm.childLost hup hlmem hne hPmem
  have hmem : ∀ x ∈ A ++ left :: B, x ∈ A ++ left :: right :: B := by
    intro x hx
    simp only [List.mem_append, List.mem_cons] at hx ⊢
    tauto
  have hset : ∀ x ∈ A ++ left :: B, s₂.page x = t.page x := fun x hx => by
    rw [hs₂, page_set, if_neg fun hxP => ?_]
    exact hup.disjoint (hmem x hx) (List.mem_append_left _ (hxP ▸ hPmem))
  obtain ⟨hrow', hcontents⟩ := hm.leafRow hrow hup.below_nodup
  obtain ⟨hrow₂, hcontents₂⟩ := hrow'.congr (t := s₂) rfl rfl rfl fun x hx => by rw [hset x hx]
  have hmax : s₂.maxSize = s.maxSize := by
    unfold maxSize
    rw [hlost.btreeOrder]
  have hmin : s₂.minSize = s.minSize := by
    unfold minSize
    rw [hmax]
  have hlinked := hlost.linked hup.linked hup.tail.below_nodup hPfilled.1 hkids
  rw [← hA, ← hB] at hlinked
  refine ⟨⟨hrow₂, fun x hx => ?_, hlinked,
    hlost.seps hup.linked (hup.seps _ List.mem_cons_self) hPfilled.1, hlost.upper hup.tail, hPmem,
    fun x hx hxP => ?_, ?_, ?_, fun x hx => hup.disjoint (hmem x hx), fun x hx => ?_⟩,
    hcontents₂.trans hcontents⟩
  · rw [hmax, hmin, hset x hx]
    by_cases hxl : x = left
    · rw [hxl, hm.merged]
      exact hsum
    · have hx' : x ∈ A ∨ x ∈ B := by
        simp only [List.mem_append, List.mem_cons] at hx
        tauto
      rw [hm.frame x hxl]
      exact hsize x hx'
  · rw [hmax, hmin, hlost.above x (List.mem_append_left _ hx) hxP]
    exact hup.filled.1 x hx
  · have hnum : (s₂.page P).numKey = (s.page P).numKey - 1 := by
      rw [hlost.page]
      rfl
    rw [hmax, hmin, hnum]
    refine ⟨by omega, by omega, fun hrest => ?_⟩
    have := hPfilled.2.2 hrest
    omega
  · refine hup.below_nodup.sublist (List.Sublist.append_left ?_ A)
    exact List.Sublist.cons_cons _ (List.sublist_cons_self _ _)
  · rw [hlost.nextPage]
    exact hup.range x (List.mem_append_left _ (hmem x hx))

end LeavesMerged

end Ord

end IxIndexHandle

end Rmdb
