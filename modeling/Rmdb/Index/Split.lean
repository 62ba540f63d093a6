import Rmdb.Index.Separators

namespace Rmdb

namespace IxIndexHandle

/-!
# Splitting a node (`split`)

* `splitLeaf_spec`, `splitInner_spec` — the pages after `split`;
* `InnerSplit` — an inner node and its new neighbour; `InnerSplit.linked` — their level.
-/

variable {K : Type} {s s' : IxIndexHandle K}

/-! ### Nodes -/

theorem entries_truncate (n : IxNode K) {m : Nat} (hm : m ≤ n.numKey) :
    ({ n with numKey := m } : IxNode K).entries = n.entries.take m := by
  refine List.ext_getElem? fun i => ?_
  rw [IxNode.getElem?_entries, List.getElem?_take, IxNode.getElem?_entries]
  dsimp only
  by_cases hi : i < m
  · rw [if_pos hi, if_pos hi, if_pos (Nat.lt_of_lt_of_le hi hm)]
  · rw [if_neg hi, if_neg hi]

section Inhabited

variable [Inhabited K]

theorem entries_splitOff (n : IxNode K) : (splitOff n).entries = n.entries.drop (n.numKey / 2) := by
  unfold splitOff
  dsimp only
  rw [IxNode.entries_insertPairs _ (Nat.zero_le _), List.take_zero, List.nil_append, List.drop_zero,
    show IxNode.entries (_ : IxNode K) = [] from rfl, List.append_nil]
  refine List.ext_getElem? fun i => ?_
  rw [List.getElem?_map, List.getElem?_drop, IxNode.getElem?_entries]
  by_cases hi : i < n.numKey - n.numKey / 2
  · rw [List.getElem?_range hi, if_pos (by omega)]
    rfl
  · rw [List.getElem?_eq_none (by rw [List.length_range]; omega), if_neg (by omega)]
    rfl

theorem numKey_splitOff (n : IxNode K) : (splitOff n).numKey = n.numKey - n.numKey / 2 :=
  Nat.zero_add _

/-! ### Re-parenting -/

omit [Inhabited K] in
/-- The loop over `maintain_child`. -/
theorem foldl_maintainChild {q : Int} {n : IxNode K} {l : List Nat} (hn : s.page q = n)
    (hq : n.isLeaf = false) (hne : ∀ i ∈ l, n.valueAt i ≠ q) :
    l.foldl (fun s i => s.maintainChild q i) s = { s with
      page := fun x =>
        if x ∈ l.map n.valueAt then { s.page x with parent := q } else s.page x } := by
  induction l generalizing s with
  | nil => simp
  | cons i l ih =>
    have hi := hne i List.mem_cons_self
    rw [List.foldl_cons]
    generalize hs₁ : s.maintainChild q i = s₁
    have hs₁' : s₁ = s.setParent (n.valueAt i) q := by
      rw [← hs₁, maintainChild, hn, hq]
      rfl
    have hpage : ∀ x, s₁.page x =
        if x = n.valueAt i then { s.page x with parent := q } else s.page x := by
      intro x
      rw [hs₁', setParent, page_modify]
      split
      · rename_i h
        rw [h]
      · rfl
    rw [ih (by rw [hpage, if_neg fun h => hi h.symm, hn]) fun j hj => hne j (List.mem_cons_of_mem _ hj)]
    have hhead : s₁ = { s with page := s₁.page } := by
      rw [hs₁']
      rfl
    rw [hhead]
    congr 1
    funext x
    dsimp only
    rw [hpage, List.map_cons]
    by_cases hxi : x = n.valueAt i
    · rw [if_pos hxi, if_pos (List.mem_cons.mpr (Or.inl hxi))]
      split <;> rfl
    · rw [if_neg hxi]
      by_cases hxl : x ∈ l.map n.valueAt
      · rw [if_pos hxl, if_pos (List.mem_cons_of_mem _ hxl)]
      · rw [if_neg hxl, if_neg]
        exact fun h => (List.mem_cons.mp h).elim hxi hxl

/-- **Splitting a leaf.** -/
theorem splitLeaf_spec {p : Int} (hleaf : (s.page p).isLeaf = true) :
    s.split p = (s.nextPage, { s with
      numPages := s.numPages + 1
      nextPage := s.nextPage + 1
      lastLeaf := if s.lastLeaf = p then s.nextPage else s.lastLeaf
      page := fun x =>
        if x = p then
          { s.page p with numKey := (s.page p).numKey / 2, nextLeaf := s.nextPage }
        else if x = s.nextPage then
          { splitOff (s.page p) with prevLeaf := p, nextLeaf := (s.page p).nextLeaf }
        else s.page x }) := by
  unfold split createNode
  dsimp only
  rw [if_pos hleaf]
  have hpage : ∀ n m : IxNode K,
      Function.update (Function.update (Function.update s.page s.nextPage IxNode.zero) s.nextPage m)
        p n = fun x => if x = p then n else if x = s.nextPage then m else s.page x := by
    intro n m
    funext x
    rw [Function.update_apply, Function.update_idem, Function.update_apply]
  unfold set
  dsimp only
  rw [hpage]
  by_cases hl : s.lastLeaf = p
  · rw [if_pos hl, if_pos hl]
  · rw [if_neg hl, if_neg hl]

/-- **Splitting an inner node.** The children of the new node get it as their parent. -/
theorem splitInner_spec {p : Int} (hinner : (s.page p).isLeaf = false) (hp : p ≠ s.nextPage)
    (hchild : ∀ c ∈ s.children p, c ≠ p ∧ c ≠ s.nextPage) :
    s.split p = (s.nextPage, { s with
      numPages := s.numPages + 1
      nextPage := s.nextPage + 1
      page := fun x =>
        if x = p then { s.page p with numKey := (s.page p).numKey / 2 }
        else if x = s.nextPage then splitOff (s.page p)
        else if x ∈ (s.children p).drop ((s.page p).numKey / 2) then
          { s.page x with parent := s.nextPage }
        else s.page x }) := by
  unfold split createNode
  dsimp only
  rw [if_neg (by rw [hinner]; exact Bool.false_ne_true)]
  -- the children of the new node are the second half
  have hvalue : (List.range ((s.page p).numKey - (s.page p).numKey / 2)).map
      (splitOff (s.page p)).valueAt = (s.children p).drop ((s.page p).numKey / 2) := by
    unfold children
    rw [← List.map_drop, ← entries_splitOff]
    unfold IxNode.entries
    rw [List.map_map, numKey_splitOff]
    rfl
  unfold set
  dsimp only
  have hnew : Function.update (Function.update (Function.update s.page s.nextPage IxNode.zero)
      s.nextPage (splitOff (s.page p))) p { s.page p with numKey := (s.page p).numKey / 2 }
        s.nextPage = splitOff (s.page p) := by
    rw [Function.update_of_ne hp.symm, Function.update_self]
  rw [foldl_maintainChild hnew (show (splitOff (s.page p)).isLeaf = false from hinner)]
  · dsimp only
    rw [hvalue]
    congr 2
    funext x
    rw [Function.update_apply, Function.update_idem, Function.update_apply]
    have hmem : ∀ {c}, c ∈ (s.children p).drop ((s.page p).numKey / 2) → c ≠ p ∧ c ≠ s.nextPage :=
      fun hc => hchild _ (List.mem_of_mem_drop hc)
    -- a child that is moved has another parent
    by_cases hx : x ∈ (s.children p).drop ((s.page p).numKey / 2)
    · rw [if_pos hx, if_neg (hmem hx).1, if_neg (hmem hx).2, if_neg (hmem hx).1,
        if_neg (hmem hx).2, if_pos hx]
    · rw [if_neg hx, if_neg hx]
  · intro i hi
    refine (hchild _ (List.mem_of_mem_drop (i := (s.page p).numKey / 2) ?_)).2
    rw [← hvalue]
    exact List.mem_map_of_mem hi

/-! ### The level of a split node -/

variable {below LA LB : List Int} {p : Int}

/-- The pages after the split of an inner node of a level. -/
structure InnerSplit (s s' : IxIndexHandle K) (p q : Int) : Prop where
  left : s'.page p = { s.page p with numKey := (s.page p).numKey / 2 }
  right : s'.page q = splitOff (s.page p)
  moved : ∀ x ∈ (s.children p).drop ((s.page p).numKey / 2), s'.page x = { s.page x with parent := q }
  frame : ∀ x, x ≠ p → x ≠ q → x ∉ (s.children p).drop ((s.page p).numKey / 2) →
    s'.page x = s.page x

/-- `split` of an inner node. -/
theorem split_inner (hinner : (s.page p).isLeaf = false) (hp : p ≠ s.nextPage)
    (hchild : ∀ c ∈ s.children p, c ≠ p ∧ c ≠ s.nextPage) :
    ∃ s', s.split p = (s.nextPage, s') ∧ InnerSplit s s' p s.nextPage ∧
      s' = { s with numPages := s.numPages + 1, nextPage := s.nextPage + 1, page := s'.page } := by
  refine ⟨_, splitInner_spec hinner hp hchild, ⟨if_pos rfl, ?_, fun x hx => ?_, fun x hxp hxn hx => ?_⟩,
    rfl⟩
  · dsimp only
    rw [if_neg hp.symm, if_pos rfl]
  · obtain ⟨hxp, hxn⟩ := hchild x (List.mem_of_mem_drop hx)
    dsimp only
    rw [if_neg hxp, if_neg hxn, if_pos hx]
  · dsimp only
    rw [if_neg hxp, if_neg hxn, if_neg hx]

namespace InnerSplit

variable {q : Int}

theorem children_left (h : InnerSplit s s' p q) :
    s'.children p = (s.children p).take ((s.page p).numKey / 2) := by
  unfold children
  rw [h.left, entries_truncate _ (Nat.div_le_self _ _), List.map_take]

theorem children_right (h : InnerSplit s s' p q) :
    s'.children q = (s.children p).drop ((s.page p).numKey / 2) := by
  unfold children
  rw [h.right, entries_splitOff, List.map_drop]

/-- Apart from the two nodes, only parents change. -/
theorem entries_eq (h : InnerSplit s s' p q) {x : Int} (hp : x ≠ p) (hq : x ≠ q) :
    (s'.page x).entries = (s.page x).entries ∧ (s'.page x).isLeaf = (s.page x).isLeaf ∧
      s'.firstKey x = s.firstKey x := by
  unfold firstKey
  by_cases hx : x ∈ (s.children p).drop ((s.page p).numKey / 2)
  · rw [h.moved x hx]
    exact ⟨rfl, rfl, rfl⟩
  · rw [h.frame x hp hq hx]
    exact ⟨rfl, rfl, rfl⟩

/-- **The level after the split**: the new node stands right of the old one. -/
theorem linked (h : InnerSplit s s' p q) (hlink : Linked s (LA ++ p :: LB) below)
    (hnd : (below ++ (LA ++ p :: LB)).Nodup) (hq : q ∉ below ++ (LA ++ p :: LB)) :
    Linked s' (LA ++ p :: q :: LB) below := by
  obtain ⟨hbelow, hlvl, hdisj⟩ := List.nodup_append.mp hnd
  have hp : p ∈ LA ++ p :: LB := List.mem_append_right _ List.mem_cons_self
  have hother : ∀ x, x ∈ LA ∨ x ∈ LB → x ∈ LA ++ p :: LB ∧ x ≠ p := by
    intro x hx
    rw [List.nodup_middle, List.nodup_cons] at hlvl
    have hx' : x ∈ LA ++ LB := List.mem_append.mpr hx
    refine ⟨?_, fun hxp => hlvl.1 (hxp ▸ hx')⟩
    rcases hx with hx | hx
    · exact List.mem_append_left _ hx
    · exact List.mem_append_right _ (List.mem_cons_of_mem _ hx)
  have hnb : ∀ x ∈ LA ++ p :: LB, x ∉ below := fun x hx hb => hdisj x hb x hx rfl
  have hq' : q ∉ LA ++ p :: LB := fun h => hq (List.mem_append_right _ h)
  -- the other nodes of the level are as before
  have hsame : ∀ x, x ∈ LA ∨ x ∈ LB → s'.page x = s.page x := by
    intro x hx
    obtain ⟨hxl, hxp⟩ := hother x hx
    refine h.frame x hxp (fun hxq => hq' (hxq ▸ hxl)) fun hxd => ?_
    exact hnb x hxl (hlink.mem_below hp (List.mem_of_mem_drop hxd))
  have hkids : ∀ x, x ∈ LA ∨ x ∈ LB → s'.children x = s.children x := by
    intro x hx
    unfold children
    rw [hsame x hx]
  have hmem : ∀ x ∈ LA ++ p :: q :: LB, (x ∈ LA ∨ x ∈ LB) ∨ x = p ∨ x = q := by
    intro x hx
    simp only [List.mem_append, List.mem_cons] at hx
    tauto
  refine ⟨fun x hx => ?_, ?_, fun x hx c hc => ?_⟩
  · rcases hmem x hx with hx | rfl | rfl
    · rw [hsame x hx]
      exact hlink.inner x (hother x hx).1
    · rw [h.left]
      exact hlink.inner x hp
    · rw [h.right]
      exact hlink.inner p hp
  · rw [hlink.flat, List.flatMap_append, List.flatMap_append, List.flatMap_cons, List.flatMap_cons,
      List.flatMap_cons, h.children_left, h.children_right, ← List.append_assoc (List.take _ _),
      List.take_append_drop, List.flatMap_congr fun x hx => hkids x (Or.inl hx),
      List.flatMap_congr fun x hx => hkids x (Or.inr hx)]
  · have hchild := hlink.children_nodup hbelow hp
    have hframe : ∀ {y}, y ∈ LA ++ p :: LB → c ∈ s.children y →
        c ∉ (s.children p).drop ((s.page p).numKey / 2) → (s'.page c).parent = y := by
      intro y hy hcy hcd
      have hcb := hlink.mem_below hy hcy
      rw [h.frame c (fun hcp => hnb p hp (hcp ▸ hcb))
        (fun hcq => hq (List.mem_append_left _ (hcq ▸ hcb))) hcd]
      exact hlink.parent y hy c hcy
    rcases hmem x hx with hx | rfl | rfl
    · rw [hkids x hx] at hc
      obtain ⟨hxl, hxp⟩ := hother x hx
      refine hframe hxl hc fun hcd => hxp ?_
      rw [← hlink.parent x hxl c hc, hlink.parent p hp c (List.mem_of_mem_drop hcd)]
    · rw [h.children_left] at hc
      refine hframe hp (List.mem_of_mem_take hc) fun hcd => ?_
      rw [← List.take_append_drop ((s.page x).numKey / 2) (s.children x)] at hchild
      exact (List.nodup_append.mp hchild).2.2 c hc c hcd rfl
    · rw [h.children_right] at hc
      rw [h.moved c hc]

/-- Separators are right after the split. -/
theorem seps (h : InnerSplit s s' p q) (hlink : Linked s (LA ++ p :: LB) below)
    (hseps : Seps s (LA ++ p :: LB)) (hnd : (below ++ (LA ++ p :: LB)).Nodup)
    (hq : q ∉ below ++ (LA ++ p :: LB)) : Seps s' (LA ++ p :: q :: LB) := by
  have hp : p ∈ LA ++ p :: LB := List.mem_append_right _ List.mem_cons_self
  -- first keys of the level below do not change
  have hkey : ∀ x ∈ LA ++ p :: LB, ∀ e ∈ (s.page x).entries, e.1 = s'.firstKey e.2.pageNo := by
    intro x hx e he
    have hb := hlink.mem_below hx (mem_children.mpr ⟨e, he, rfl⟩)
    rw [(h.entries_eq (fun hbp => (List.nodup_append.mp hnd).2.2 _ hb p hp hbp)
      fun hbq => hq (List.mem_append_left _ (hbq ▸ hb))).2.2]
    exact hseps x hx e he
  intro x hx e he
  by_cases hxp : x = p
  · subst hxp
    rw [h.left, entries_truncate _ (Nat.div_le_self _ _)] at he
    exact hkey x hp e (List.mem_of_mem_take he)
  by_cases hxq : x = q
  · subst hxq
    rw [h.right, entries_splitOff] at he
    exact hkey p hp e (List.mem_of_mem_drop he)
  · rw [(h.entries_eq hxp hxq).1] at he
    refine hkey x ?_ e he
    simp only [List.mem_append, List.mem_cons] at hx ⊢
    tauto

end InnerSplit

end Inhabited

end IxIndexHandle

end Rmdb
