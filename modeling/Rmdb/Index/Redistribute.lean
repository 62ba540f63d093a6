import Rmdb.Index.Siblings

namespace Rmdb

open Lib Std

namespace IxIndexHandle

/-!
# Moving a pair between neighbours (`redistribute`)

A node has lost a pair and gets one from a neighbour: the first pair of its right neighbour goes to its
end, or the last pair of its left neighbour to its front.  If the nodes are inner nodes, the child that
moves gets another parent.

* `Passed` — the first pair of a node has gone to the end of the node before it;
* `Balanced` — the pages after `redistribute`;
* `redistribute_first`, `redistribute_second` — the two directions: the levels above are right
  afterwards;
* `Shared` — the two nodes hold the same pairs as before;
* `Balanced.linked`, `Shared.seps` — the level of the two nodes, if these are inner nodes.
-/

variable {K : Type} {s s₀ s' t : IxIndexHandle K} {left right c q : Int} {l r : IxNode K}
  {e : K × Rid} {below lvl A B : List Int} {levels rest : List (List Int)}

/-! ### Two nodes -/

/-- The first pair of the second node has gone to the end of the first. -/
structure Passed (n m n' m' : IxNode K) (e : K × Rid) : Prop where
  first : n'.entries = n.entries ++ [e]
  second : m.entries = e :: m'.entries

namespace Passed

variable {n m n' m' : IxNode K}

/-- The pairs of both nodes together stay. -/
theorem entries (h : Passed n m n' m' e) : n'.entries ++ m'.entries = n.entries ++ m.entries := by
  rw [h.first, h.second, List.append_assoc]
  rfl

/-- One pair changes sides. -/
theorem numKey (h : Passed n m n' m' e) :
    n'.numKey = n.numKey + 1 ∧ m.numKey = m'.numKey + 1 := by
  rw [← IxNode.length_entries n', ← IxNode.length_entries m, h.first, h.second]
  simp

end Passed

/-- The first pair of the right node, at the end of the left one. -/
theorem passed_insertPair (n m : IxNode K) (hm : 0 < m.numKey) :
    Passed n m (n.insertPair n.numKey (m.keys 0) (m.rids 0)) (m.shiftDown 0)
      (m.keys 0, m.rids 0) where
  first := by
    rw [IxNode.entries_insertPair n (Nat.le_refl _), List.take_of_length_le, List.drop_eq_nil_of_le]
    · rw [IxNode.length_entries]
    · rw [IxNode.length_entries]
  second := by
    rw [IxNode.entries_shiftDown m hm]
    exact m.entries_split hm

/-- The last pair of the left node, at the front of the right one. -/
theorem passed_shiftDown (n m : IxNode K) (hn : 0 < n.numKey) :
    Passed (n.shiftDown (n.numKey - 1))
      (m.insertPair 0 (n.keys (n.numKey - 1)) (n.rids (n.numKey - 1))) n m
      (n.keys (n.numKey - 1), n.rids (n.numKey - 1)) where
  first := by
    have hlast : n.numKey - 1 < n.numKey := Nat.sub_lt hn Nat.zero_lt_one
    have hdrop : n.entries.drop (n.numKey - 1 + 1) = [] :=
      List.drop_eq_nil_of_le (by rw [IxNode.length_entries]; omega)
    have hsplit := n.entries_split hlast
    rw [hdrop] at hsplit
    rw [IxNode.entries_shiftDown n hlast, hdrop, List.append_nil]
    exact hsplit
  second := by
    rw [IxNode.entries_insertPair m (Nat.zero_le _), List.take_zero, List.drop_zero]
    rfl

/-! ### The pages -/

/-- The left node is `l` now and the right one `r`.  The child `c` of inner nodes has the parent `q`. -/
structure Balanced (s s' : IxIndexHandle K) (left right : Int) (l r : IxNode K) (c q : Int)
    (levels : List (List Int)) : Prop where
  header : s' = { s with page := s'.page }
  page : ∀ x ∉ levels.flatten, s'.page x =
    let n := if x = left then l else if x = right then r else s.page x
    if l.isLeaf = false ∧ x = c then { n with parent := q } else n

/-- Only a child gets another parent. -/
theorem page_maintainChild (s : IxIndexHandle K) (p : Int) (i : Nat) (x : Int) :
    (s.maintainChild p i).page x = if (s.page p).isLeaf = false ∧ x = (s.page p).valueAt i then
      { s.page x with parent := p } else s.page x := by
  unfold maintainChild
  cases hleaf : (s.page p).isLeaf with
  | true => simp
  | false =>
    rw [if_neg Bool.false_ne_true, setParent, page_modify]
    by_cases hx : x = (s.page p).valueAt i
    · rw [if_pos hx, if_pos ⟨rfl, hx⟩, ← hx]
    · rw [if_neg hx, if_neg fun h => hx h.2]

/-- The header stays. -/
theorem maintainChild_header (s : IxIndexHandle K) (p : Int) (i : Nat) :
    s.maintainChild p i = { s with page := (s.maintainChild p i).page } := by
  unfold maintainChild
  split <;> rfl

/-- What `redistribute` is called with: two nodes of a level that differ from those of a correct tree in
    nothing that the levels above see, but for the first key of the right one. -/
structure Neighbours (s₀ s : IxIndexHandle K) (left right : Int) (below : List Int)
    (levels : List (List Int)) : Prop where
  upper : Upper s₀ below levels
  alike : AlikeBut s₀ s right below levels
  leftMem : left ∈ below
  rightMem : right ∈ below
  ne : left ≠ right

/-- Two pages of the level are written. -/
theorem Neighbours.alike_set (h : Neighbours s₀ s left right below levels)
    (ht : t = { s with page := t.page })
    (hpage : ∀ x, t.page x = if x = left then l else if x = right then r else s.page x)
    (hl : l.parent = (s.page left).parent ∧ l.keys 0 = s.firstKey left)
    (hr : r.parent = (s.page right).parent) : AlikeBut s₀ t right below levels where
  rootPage := by rw [ht]; exact h.alike.rootPage
  btreeOrder := by rw [ht]; exact h.alike.btreeOrder
  nextPage := by rw [ht]; exact h.alike.nextPage
  parent x hx := by
    rw [← h.alike.parent x hx, hpage]
    split
    · rename_i hxl
      rw [hxl, hl.1]
    · split
      · rename_i hxr
        rw [hxr, hr]
      · rfl
  firstKey x hx hxr := by
    rw [← h.alike.firstKey x hx hxr]
    unfold firstKey
    rw [hpage]
    split
    · rename_i hxl
      rw [hxl, hl.2]
      rfl
    · rfl
  above x hx := by
    rw [hpage, if_neg fun hxl : x = left => h.upper.disjoint h.leftMem (hxl ▸ hx),
      if_neg fun hxr : x = right => h.upper.disjoint h.rightMem (hxr ▸ hx)]
    exact h.alike.above x hx

/-- A page of a lower level gets another parent. -/
theorem AlikeBut.maintainChild {p : Int} {i : Nat} (h : AlikeBut s₀ s c below levels)
    (hi : (s.page p).isLeaf = false → (s.page p).valueAt i ∉ below ++ levels.flatten) :
    AlikeBut s₀ (s.maintainChild p i) c below levels := by
  have hhead := maintainChild_header s p i
  have hsame : ∀ x ∈ below ++ levels.flatten, (s.maintainChild p i).page x = s.page x := by
    intro x hx
    rw [page_maintainChild, if_neg]
    rintro ⟨hleaf, rfl⟩
    exact hi hleaf hx
  refine ⟨?_, ?_, ?_, fun x hx => ?_, fun x hx hxc => ?_, fun x hx => ?_⟩
  · rw [hhead]
    exact h.rootPage
  · rw [hhead]
    exact h.btreeOrder
  · rw [hhead]
    exact h.nextPage
  · rw [hsame x (List.mem_append_left _ hx)]
    exact h.parent x hx
  · unfold IxIndexHandle.firstKey
    rw [hsame x (List.mem_append_left _ hx)]
    exact h.firstKey x hx hxc
  · rw [hsame x (List.mem_append_right _ hx)]
    exact h.above x hx

/-! ### The two directions -/

section Redistribute

variable [DecidableEq K]

/-- **From the right.** The first pair of the right node goes to the left one. -/
theorem redistribute_first (h : Neighbours s₀ s left right below levels)
    (hleft : (s.page left).numKey ≠ 0) (hright : 0 < (s.page right).numKey)
    (hchild : (s.page left).isLeaf = false →
      (s.page right).valueAt 0 ∉ below ++ levels.flatten) :
    ∃ s' l r, s.redistribute right left 0 = .ok s' ∧
      Passed (s.page left) (s.page right) l r ((s.page right).keys 0, (s.page right).rids 0) ∧
      l = { s.page left with keys := l.keys, rids := l.rids, numKey := l.numKey } ∧
      r = { s.page right with keys := r.keys, rids := r.rids, numKey := r.numKey } ∧
      Balanced s s' left right l r ((s.page right).valueAt 0) left levels ∧ Upper s' below levels := by
  set l := (s.page left).insertPair (s.page left).numKey ((s.page right).keys 0)
    ((s.page right).rids 0) with hl
  set r := (s.page right).shiftDown 0 with hr
  set t := (s.set left l).set right r with ht
  have hpage : ∀ x, t.page x = if x = left then l else if x = right then r else s.page x := by
    intro x
    rw [ht, page_set, page_set]
    by_cases hx : x = left
    · rw [if_pos hx, if_neg fun hxr => h.ne (hx.symm.trans hxr), if_pos hx]
    · rw [if_neg hx, if_neg hx]
  have hpagel : t.page left = l := by
    rw [hpage, if_pos rfl]
  have hfirst : l.keys 0 = s.firstKey left := by
    obtain ⟨n, hn⟩ := Nat.exists_eq_succ_of_ne_zero hleft
    rw [hl, hn]
    exact IxNode.keys_zero_insertPair _ _ _ _
  have halike := h.alike_set rfl hpage ⟨rfl, hfirst⟩ rfl
  -- the pair is in the last slot of the left node
  have hslot : l.valueAt (s.page left).numKey = (s.page right).valueAt 0 := by
    rw [hl]
    unfold IxNode.insertPair IxNode.insertPairs IxNode.valueAt
    simp
  have hchild' : (t.page left).isLeaf = false →
      (t.page left).valueAt (s.page left).numKey ∉ below ++ levels.flatten := by
    rw [hpagel, hslot]
    exact hchild
  obtain ⟨s', hrun, hmoved, hup⟩ := (halike.maintainChild hchild').repair h.upper h.rightMem
  have hhead := maintainChild_header t left (s.page left).numKey
  refine ⟨s', l, r, ?_, passed_insertPair _ _ hright, rfl, rfl, ⟨?_, fun x hx => ?_⟩, hup⟩
  · have herase : ((s.modify left fun n => n.insertPair n.numKey ((s.page right).keys 0)
        ((s.page right).rids 0)).page right).erasePair 0 = .ok r := by
      rw [page_modify, if_neg h.ne.symm, IxNode.erasePair, if_neg (Nat.not_le.mpr hright)]
    have hset : (s.modify left fun n => n.insertPair n.numKey ((s.page right).keys 0)
        ((s.page right).rids 0)).set right r = t := rfl
    unfold redistribute
    dsimp only
    rw [if_pos rfl, herase]
    show ((((s.modify left _).set right r).maintainChild left _).maintainParent _ right) = _
    rw [hset, hpagel]
    exact hrun
  · rw [hmoved.header, hhead]
    rfl
  · rw [hmoved.frame x hx, page_maintainChild, hpagel, hslot, hpage]

/-- **From the left.** The last pair of the left node goes to the right one. -/
theorem redistribute_second (h : Neighbours s₀ s left right below levels) {pos : Nat} (hpos : pos ≠ 0)
    (hleft : 1 < (s.page left).numKey) (hkind : (s.page right).isLeaf = (s.page left).isLeaf)
    (hchild : (s.page left).isLeaf = false →
      (s.page left).valueAt ((s.page left).numKey - 1) ∉ below ++ levels.flatten) :
    ∃ s' l r, s.redistribute left right pos = .ok s' ∧
      Passed l r (s.page left) (s.page right) ((s.page left).keys ((s.page left).numKey - 1),
        (s.page left).rids ((s.page left).numKey - 1)) ∧
      l = { s.page left with keys := l.keys, rids := l.rids, numKey := l.numKey } ∧
      r = { s.page right with keys := r.keys, rids := r.rids, numKey := r.numKey } ∧
      Balanced s s' left right l r ((s.page left).valueAt ((s.page left).numKey - 1)) right levels ∧
      Upper s' below levels := by
  -- the last pair of the left node goes to the front of the right one
  set last := (s.page left).numKey - 1 with hlast
  set l := (s.page left).shiftDown last with hl
  set r := (s.page right).insertPair 0 ((s.page left).keys last) ((s.page left).rids last) with hr
  set t := (s.set right r).set left l with ht
  have hpage : ∀ x, t.page x = if x = left then l else if x = right then r else s.page x := by
    intro x
    rw [ht, page_set, page_set]
  have hfirst : l.keys 0 = s.firstKey left := IxNode.keys_zero_shiftDown _ (by omega)
  have halike := h.alike_set rfl hpage ⟨rfl, hfirst⟩ rfl
  -- its separator is repaired, and then the parent of its child
  obtain ⟨s₁, hrun, hmoved, hup₁⟩ := halike.repair h.upper h.rightMem
  have hpager : s₁.page right = r := by
    rw [hmoved.frame right (h.upper.disjoint h.rightMem), hpage, if_neg h.ne.symm, if_pos rfl]
  have hslot : r.valueAt 0 = (s.page left).valueAt last := by
    rw [hr]
    unfold IxNode.insertPair IxNode.insertPairs IxNode.valueAt
    simp
  have hchild' : (s₁.page right).isLeaf = false →
      (s₁.page right).valueAt 0 ∉ below ++ levels.flatten := by
    rw [hpager, hslot]
    exact fun hinner => hchild (hkind.symm.trans hinner)
  have halike₁ := (AlikeBut.refl s₁ right below levels).maintainChild hchild'
  have hfirst₁ : (s₁.maintainChild right 0).firstKey right = s₁.firstKey right := by
    unfold firstKey
    rw [page_maintainChild]
    split <;> rfl
  have hhead := maintainChild_header s₁ right 0
  refine ⟨s₁.maintainChild right 0, l, r, ?_, passed_shiftDown _ _ (by omega), rfl, rfl,
    ⟨?_, fun x hx => ?_⟩, halike₁.upper hup₁ hfirst₁⟩
  · have herase : ((s.modify right fun n => n.insertPair 0 ((s.page left).keys last)
        ((s.page left).rids last)).page left).erasePair last = .ok l := by
      rw [page_modify, if_neg h.ne, IxNode.erasePair, if_neg (by omega)]
    have hset : (s.modify right fun n => n.insertPair 0 ((s.page left).keys last)
        ((s.page left).rids last)).set left l = t := rfl
    unfold redistribute
    dsimp only
    rw [if_neg hpos, ← hlast, herase]
    show (((s.modify right _).set left l).maintainParent _ right).bind _ = _
    rw [hset, hrun]
    rfl
  · rw [hhead, hmoved.header]
    rfl
  · rw [page_maintainChild, hpager, hslot, hmoved.frame x hx, hpage]
    have hkind' : r.isLeaf = l.isLeaf := hkind
    rw [hkind']

end Redistribute

/-! ### The level of the two nodes -/

/-- The first two children of a node stand side by side on their level. -/
theorem Linked.first_two (h : Linked s lvl below) {P : Int} (hP : P ∈ lvl)
    (htwo : 1 < (s.page P).numKey) : ∃ LA LB cs, lvl = LA ++ P :: LB ∧
      s.children P = (s.page P).valueAt 0 :: (s.page P).valueAt 1 :: cs ∧
      below = LA.flatMap s.children ++ (s.page P).valueAt 0 :: (s.page P).valueAt 1 ::
        (cs ++ LB.flatMap s.children) := by
  obtain ⟨LA, LB, rfl⟩ := List.append_of_mem hP
  have hget : ∀ i < (s.page P).numKey, (s.children P)[i]? = some ((s.page P).valueAt i) := by
    intro i hi
    unfold children
    rw [List.getElem?_map, IxNode.getElem?_entries, if_pos hi]
    rfl
  obtain ⟨a, l, hl⟩ : ∃ a l, s.children P = a :: l := by
    refine List.exists_cons_of_ne_nil fun hnil => ?_
    rw [← length_children, hnil] at htwo
    cases htwo
  obtain ⟨b, cs, rfl⟩ : ∃ b cs, l = b :: cs := by
    refine List.exists_cons_of_ne_nil fun hnil => ?_
    rw [← length_children, hl, hnil] at htwo
    exact Nat.lt_irrefl _ htwo
  have ha := hget 0 (Nat.lt_trans Nat.zero_lt_one htwo)
  have hb := hget 1 htwo
  rw [hl] at ha hb
  have ha' : a = (s.page P).valueAt 0 := Option.some.inj ha
  have hb' : b = (s.page P).valueAt 1 := Option.some.inj hb
  subst ha'
  subst hb'
  refine ⟨LA, LB, cs, rfl, hl, ?_⟩
  rw [h.flat, List.flatMap_append, List.flatMap_cons, hl]
  rfl

/-- The first two children of a parent. -/
theorem Upper.first_two (h : Upper s below (lvl :: rest)) {P : Int} (hP : P ∈ lvl) :
    ∃ A left right B, (s.page P).valueAt 0 = left ∧ (s.page P).valueAt 1 = right ∧ left ≠ right ∧
      below = A ++ left :: right :: B := by
  obtain ⟨LA, LB, cs, -, -, hbelow⟩ := h.linked.first_two hP (h.filled.1 P hP).1
  refine ⟨_, _, _, _, rfl, rfl, fun hlr => ?_, hbelow⟩
  have hnd := h.below_nodup
  rw [hbelow, List.nodup_append, List.nodup_cons] at hnd
  exact hnd.2.1.1 (hlr ▸ List.mem_cons_self)

/-- The other nodes of a level. -/
theorem others_ne {x : Int} (hnd : (A ++ left :: right :: B).Nodup) (hx : x ∈ A ∨ x ∈ B) :
    x ∈ A ++ left :: right :: B ∧ x ≠ left ∧ x ≠ right := by
  rw [List.nodup_append, List.nodup_cons, List.nodup_cons] at hnd
  rcases hx with hx | hx
  · refine ⟨List.mem_append_left _ hx, fun hxl => ?_, fun hxr => ?_⟩
    · exact hnd.2.2 x hx left List.mem_cons_self hxl
    · exact hnd.2.2 x hx right (List.mem_cons_of_mem _ List.mem_cons_self) hxr
  · refine ⟨List.mem_append_right _ (List.mem_cons_of_mem _ (List.mem_cons_of_mem _ hx)),
      fun hxl => hnd.2.1.1 (hxl ▸ List.mem_cons_of_mem _ hx), fun hxr => hnd.2.1.2.1 (hxr ▸ hx)⟩

/-- A leaf is one of the two or one of the others. -/
theorem mem_or_of_mem {x : Int} (hx : x ∈ A ++ left :: right :: B) :
    (x ∈ A ∨ x ∈ B) ∨ x = left ∨ x = right := by
  simp only [List.mem_append, List.mem_cons] at hx
  tauto

/-- One of the two nodes, `q`, has got the pair `e` from the other. -/
def Shared (s : IxIndexHandle K) (left right : Int) (l r : IxNode K) (e : K × Rid) (q : Int) : Prop :=
  (q = left ∧ Passed (s.page left) (s.page right) l r e) ∨
    (q = right ∧ Passed l r (s.page left) (s.page right) e)

namespace Shared

theorem entries (h : Shared s left right l r e q) :
    l.entries ++ r.entries = (s.page left).entries ++ (s.page right).entries := by
  rcases h with ⟨-, h⟩ | ⟨-, h⟩
  · exact h.entries
  · exact h.entries.symm

/-- The pair that changes sides. -/
theorem mem (h : Shared s left right l r e q) :
    e ∈ (s.page left).entries ++ (s.page right).entries := by
  rcases h with ⟨-, h⟩ | ⟨-, h⟩
  · rw [h.second]
    exact List.mem_append_right _ List.mem_cons_self
  · rw [h.first]
    exact List.mem_append_left _ (List.mem_append_right _ List.mem_cons_self)

/-- The children of the two nodes: the one that has moved, and old ones. -/
theorem kids (h : Shared s left right l r e q)
    (hnd : (s.children left ++ s.children right).Nodup) :
    (∀ x ∈ l.entries.map fun e => e.2.pageNo,
      (x = e.2.pageNo ∧ q = left) ∨ x ≠ e.2.pageNo ∧ x ∈ s.children left) ∧
    ∀ x ∈ r.entries.map fun e => e.2.pageNo,
      (x = e.2.pageNo ∧ q = right) ∨ x ≠ e.2.pageNo ∧ x ∈ s.children right := by
  obtain ⟨hndl, hndr, hdisj⟩ := List.nodup_append.mp hnd
  rcases h with ⟨rfl, h⟩ | ⟨rfl, h⟩
  · have hright : s.children right = e.2.pageNo :: r.entries.map fun e => e.2.pageNo := by
      unfold children
      rw [h.second]
      rfl
    refine ⟨fun x hx => ?_, fun x hx => ?_⟩
    · rw [h.first, List.map_append] at hx
      rcases List.mem_append.mp hx with hx | hx
      · exact Or.inr ⟨fun hxe => hdisj x hx _ (hright ▸ List.mem_cons_self) hxe, hx⟩
      · exact Or.inl ⟨List.mem_singleton.mp hx, rfl⟩
    · rw [hright] at hndr
      refine Or.inr ⟨fun hxe => (List.nodup_cons.mp hndr).1 (hxe ▸ hx), ?_⟩
      rw [hright]
      exact List.mem_cons_of_mem _ hx
  · have hleft : s.children left = (l.entries.map fun e => e.2.pageNo) ++ [e.2.pageNo] := by
      unfold children
      rw [h.first, List.map_append]
      rfl
    have hmem : e.2.pageNo ∈ s.children left := by
      rw [hleft]
      exact List.mem_append_right _ List.mem_cons_self
    refine ⟨fun x hx => ?_, fun x hx => ?_⟩
    · rw [hleft] at hndl ⊢
      refine Or.inr ⟨fun hxe => ?_, List.mem_append_left _ hx⟩
      exact (List.nodup_append.mp hndl).2.2 x hx _ List.mem_cons_self hxe
    · rw [h.second] at hx
      rcases List.mem_cons.mp hx with hx | hx
      · exact Or.inl ⟨hx, rfl⟩
      · exact Or.inr ⟨fun hxe => hdisj _ hmem x hx hxe.symm, hx⟩

/-- The separators of the level stay right. -/
theorem seps (hsh : Shared s left right l r e q)
    (hseps : Seps s (A ++ left :: right :: B)) (hpl : s'.page left = l) (hpr : s'.page right = r)
    (hsame : ∀ x, x ∈ A ∨ x ∈ B → s'.page x = s.page x)
    (hfirst : ∀ x ∈ A ++ left :: right :: B, ∀ z ∈ s.children x, s'.firstKey z = s.firstKey z) :
    Seps s' (A ++ left :: right :: B) := by
  have hold : ∀ x ∈ A ++ left :: right :: B, ∀ e' ∈ (s.page x).entries,
      e'.1 = s'.firstKey e'.2.pageNo := by
    intro x hx e' he'
    rw [hfirst x hx _ (mem_children.mpr ⟨e', he', rfl⟩)]
    exact hseps x hx e' he'
  have hleft : left ∈ A ++ left :: right :: B := List.mem_append_right _ List.mem_cons_self
  have hright : right ∈ A ++ left :: right :: B :=
    List.mem_append_right _ (List.mem_cons_of_mem _ List.mem_cons_self)
  have hboth : ∀ e' ∈ l.entries ++ r.entries, e'.1 = s'.firstKey e'.2.pageNo := by
    intro e' he'
    rw [hsh.entries] at he'
    rcases List.mem_append.mp he' with he' | he'
    · exact hold left hleft e' he'
    · exact hold right hright e' he'
  intro x hx e' he'
  rcases mem_or_of_mem hx with hx' | rfl | rfl
  · rw [hsame x hx'] at he'
    exact hold x hx e' he'
  · rw [hpl] at he'
    exact hboth e' (List.mem_append_left _ he')
  · rw [hpr] at he'
    exact hboth e' (List.mem_append_right _ he')

end Shared

namespace Balanced

/-- The left node afterwards. -/
theorem page_left (h : Balanced s s' left right l r c q levels) (hx : left ∉ levels.flatten)
    (hc : l.isLeaf = false → left ≠ c) : s'.page left = l := by
  rw [h.page left hx]
  dsimp only
  rw [if_pos rfl, if_neg fun hl => hc hl.1 hl.2]

/-- The right node afterwards. -/
theorem page_right (h : Balanced s s' left right l r c q levels) (hne : left ≠ right)
    (hx : right ∉ levels.flatten) (hc : l.isLeaf = false → right ≠ c) : s'.page right = r := by
  rw [h.page right hx]
  dsimp only
  rw [if_neg hne.symm, if_pos rfl, if_neg fun hl => hc hl.1 hl.2]

/-- The other nodes stay. -/
theorem page_other (h : Balanced s s' left right l r c q levels) {x : Int} (hx : x ∉ levels.flatten)
    (hleft : x ≠ left) (hright : x ≠ right) (hc : l.isLeaf = false → x ≠ c) :
    s'.page x = s.page x := by
  rw [h.page x hx]
  dsimp only
  rw [if_neg hleft, if_neg hright, if_neg fun hl => hc hl.1 hl.2]

/-- Other pages change their parent at most. -/
theorem page_eq (h : Balanced s s' left right l r c q levels) {x : Int} (hx : x ∉ levels.flatten)
    (hleft : x ≠ left) (hright : x ≠ right) :
    s'.page x = { s.page x with parent := (s'.page x).parent } := by
  rw [h.page x hx]
  dsimp only
  rw [if_neg hleft, if_neg hright]
  split <;> rfl

/-- The pages of the level of the two nodes. -/
theorem pages (h : Balanced s s' left right l r c q levels)
    (hnd : (A ++ left :: right :: B).Nodup)
    (hlev : ∀ x ∈ A ++ left :: right :: B, x ∉ levels.flatten)
    (hc : l.isLeaf = false → ∀ x ∈ A ++ left :: right :: B, x ≠ c) :
    s'.page left = l ∧ s'.page right = r ∧ ∀ x, x ∈ A ∨ x ∈ B → s'.page x = s.page x := by
  have hleft : left ∈ A ++ left :: right :: B := List.mem_append_right _ List.mem_cons_self
  have hright : right ∈ A ++ left :: right :: B :=
    List.mem_append_right _ (List.mem_cons_of_mem _ List.mem_cons_self)
  have hne : left ≠ right := by
    rw [List.nodup_append, List.nodup_cons] at hnd
    exact fun hlr => hnd.2.1.1 (hlr ▸ List.mem_cons_self)
  refine ⟨h.page_left (hlev left hleft) fun hl => hc hl left hleft,
    h.page_right hne (hlev right hright) fun hl => hc hl right hright, fun x hx => ?_⟩
  obtain ⟨hxl, hx₁, hx₂⟩ := others_ne hnd hx
  exact h.page_other (hlev x hxl) hx₁ hx₂ fun hl => hc hl x hxl

/-- **Two inner nodes**: their level keeps its children, and these have the right parents. -/
theorem linked (h : Balanced s s' left right l r e.2.pageNo q levels)
    (hsh : Shared s left right l r e q) (hl : l.isLeaf = false) (hr : r.isLeaf = false)
    (hlink : Linked s (A ++ left :: right :: B) below)
    (hnd : (below ++ (A ++ left :: right :: B)).Nodup)
    (hlev : ∀ x ∈ below ++ (A ++ left :: right :: B), x ∉ levels.flatten) :
    Linked s' (A ++ left :: right :: B) below := by
  obtain ⟨hbelow, hlvl, hdisj⟩ := List.nodup_append.mp hnd
  have hleft : left ∈ A ++ left :: right :: B := List.mem_append_right _ List.mem_cons_self
  have hright : right ∈ A ++ left :: right :: B :=
    List.mem_append_right _ (List.mem_cons_of_mem _ List.mem_cons_self)
  -- the child that moves is on the level below
  obtain ⟨y, hy, hcy⟩ : ∃ y, (y = left ∨ y = right) ∧ e.2.pageNo ∈ s.children y := by
    rcases List.mem_append.mp hsh.mem with he | he
    · exact ⟨left, Or.inl rfl, mem_children.mpr ⟨e, he, rfl⟩⟩
    · exact ⟨right, Or.inr rfl, mem_children.mpr ⟨e, he, rfl⟩⟩
  have hylvl : y ∈ A ++ left :: right :: B := by
    rcases hy with rfl | rfl
    · exact hleft
    · exact hright
  have hcb : e.2.pageNo ∈ below := hlink.mem_below hylvl hcy
  have hcl : ∀ x ∈ A ++ left :: right :: B, x ≠ e.2.pageNo := fun x hx hxc =>
    hdisj _ hcb x hx hxc.symm
  obtain ⟨hpl, hpr, hsame⟩ := h.pages hlvl (fun x hx => hlev x (List.mem_append_right _ hx))
    fun _ => hcl
  have hkids : ∀ x, x ∈ A ∨ x ∈ B → s'.children x = s.children x := by
    intro x hx
    unfold children
    rw [hsame x hx]
  -- a child that stays where it is keeps its parent
  have hstay : ∀ x ∈ A ++ left :: right :: B, ∀ z ∈ s.children x, z ≠ e.2.pageNo →
      (s'.page z).parent = x := by
    intro x hx z hz hze
    have hzb := hlink.mem_below hx hz
    have hz' := hdisj z hzb
    rw [h.page_other (hlev z (List.mem_append_left _ hzb)) (hz' left hleft) (hz' right hright)
      fun _ => hze]
    exact hlink.parent x hx z hz
  have hmoved : (s'.page e.2.pageNo).parent = q := by
    rw [h.page _ (hlev _ (List.mem_append_left _ hcb))]
    dsimp only
    rw [if_pos ⟨hl, rfl⟩]
  have hpair : (s.children left ++ s.children right).Nodup := by
    refine hbelow.sublist ?_
    rw [hlink.flat, List.flatMap_append, List.flatMap_cons, List.flatMap_cons, ← List.append_assoc
      (s.children left)]
    exact (List.sublist_append_left _ _).trans (List.sublist_append_right _ _)
  obtain ⟨hkl, hkr⟩ := hsh.kids hpair
  refine ⟨fun x hx => ?_, ?_, fun x hx z hz => ?_⟩
  · rcases mem_or_of_mem hx with hx' | rfl | rfl
    · rw [hsame x hx']
      exact hlink.inner x hx
    · rw [hpl, hl]
    · rw [hpr, hr]
  · have hunion : s'.children left ++ s'.children right = s.children left ++ s.children right := by
      unfold children
      rw [hpl, hpr, ← List.map_append, hsh.entries, List.map_append]
    rw [hlink.flat, List.flatMap_append, List.flatMap_append, List.flatMap_cons, List.flatMap_cons,
      List.flatMap_cons, List.flatMap_cons, ← List.append_assoc (s.children left), ← hunion,
      List.append_assoc, List.flatMap_congr fun x hx => hkids x (Or.inl hx),
      List.flatMap_congr fun x hx => hkids x (Or.inr hx)]
  · rcases mem_or_of_mem hx with hx' | rfl | rfl
    · rw [hkids x hx'] at hz
      refine hstay x hx z hz fun hze => ?_
      obtain ⟨-, hxl, hxr⟩ := others_ne hlvl hx'
      have hxy : x = y := by
        rw [← hlink.parent x hx z hz, hze, hlink.parent y hylvl _ hcy]
      rcases hy with hy | hy
      · exact hxl (hxy.trans hy)
      · exact hxr (hxy.trans hy)
    · unfold children at hz
      rw [hpl] at hz
      rcases hkl z hz with ⟨rfl, hq⟩ | ⟨hze, hz'⟩
      · rw [hmoved, hq]
      · exact hstay x hx z hz' hze
    · unfold children at hz
      rw [hpr] at hz
      rcases hkr z hz with ⟨rfl, hq⟩ | ⟨hze, hz'⟩
      · rw [hmoved, hq]
      · exact hstay x hx z hz' hze

end Balanced

end IxIndexHandle

end Rmdb
