import Rmdb.Index.Split
import Rmdb.Index.TreeSearch

namespace Rmdb

open Lib Std

namespace IxIndexHandle

/-!
# Inserting into the parent (`insert_into_parent`)

A node of a level has been split and the new node is not yet known to the levels above.  The call puts
it into the parent; if this fills the parent, the parent is split, and so on; at the root the tree gets
a new level.

* `Climbed` — what the call leaves alone;
* `ChildAdded` — a level after a child has been added to one of its nodes;
* `insertIntoParent_spec` — the levels above are right again, with the new node in place.

The calls of `IxNodeHandle::insert` have to add their pair: the slot behind the last may hold the key
by chance, and then nothing is inserted.
-/

variable {K : Type} {s s' : IxIndexHandle K} {below lvl LA LB A B : List Int}
  {rest levels : List (List Int)} {p q : Int}

/-- Only the levels above change, and the parents of the nodes of this level. -/
structure Climbed (s s' : IxIndexHandle K) (below : List Int) (levels : List (List Int)) : Prop where
  order : s'.btreeOrder = s.btreeOrder
  firstLeaf : s'.firstLeaf = s.firstLeaf
  lastLeaf : s'.lastLeaf = s.lastLeaf
  nextPage : s.nextPage ≤ s'.nextPage
  page : ∀ x < s.nextPage, x ∉ levels.flatten → s'.page x = { s.page x with parent := (s'.page x).parent }
  frame : ∀ x < s.nextPage, x ∉ below → x ∉ levels.flatten → s'.page x = s.page x

/-- Every recorded call of `IxNodeHandle::insert` has added its pair, if the key was new. -/
def CallsAdd [Ord K] (s : IxIndexHandle K) : Prop := ∀ c ∈ s.insertCalls, c.1.Adds c.2.1 c.2.2

instance [Ord K] (s : IxIndexHandle K) : Decidable (CallsAdd s) :=
  inferInstanceAs (Decidable (∀ c ∈ s.insertCalls, c.1.Adds c.2.1 c.2.2))

/-- The same of the calls on inner nodes. -/
def InnerCallsAdd [Ord K] (s : IxIndexHandle K) : Prop :=
  ∀ c ∈ s.insertCalls, c.1.isLeaf = false → c.1.Adds c.2.1 c.2.2

theorem CallsAdd.inner [Ord K] (h : CallsAdd s) : InnerCallsAdd s := fun c hc _ => h c hc

/-! ### The place in the parent -/

/-- The parent of a node, and the slot of the node in it. -/
theorem Linked.slot (h : Linked s lvl (A ++ p :: B)) : ∃ LA P LB X e Y, lvl = LA ++ P :: LB ∧
    (s.page P).entries = X ++ e :: Y ∧ e.2.pageNo = p ∧ (s.page p).parent = P ∧
    A = LA.flatMap s.children ++ X.map (fun e => e.2.pageNo) ∧
    B = Y.map (fun e => e.2.pageNo) ++ LB.flatMap s.children := by
  obtain ⟨LA, P, LB, C, D, rfl, hP, rfl, rfl⟩ := flatMap_eq_append_cons h.flat.symm
  have hP' : (s.page P).entries.map (fun e => e.2.pageNo) = C ++ p :: D := hP
  obtain ⟨X, Y', heq, rfl, hY'⟩ := List.map_eq_append_iff.mp hP'
  obtain ⟨e, Y, rfl, rfl, rfl⟩ := List.map_eq_cons_iff.mp hY'
  refine ⟨LA, P, LB, X, e, Y, rfl, heq, rfl, ?_, rfl, rfl⟩
  refine h.parent P (List.mem_append_right _ List.mem_cons_self) _ ?_
  rw [hP]
  exact List.mem_append_right _ List.mem_cons_self

section Ord

variable [Ord K]

/-- The keys around the slot, compared with the first key of the new node. -/
theorem IncreasingKeys.around {X Y : List (K × Rid)} {e : K × Rid}
    (hinc : IncreasingKeys s (A ++ p :: q :: B)) (he : e.2.pageNo = p)
    (hseps : ∀ e' ∈ X ++ e :: Y, e'.1 = s.firstKey e'.2.pageNo)
    (hA : A = LA.flatMap s.children ++ X.map (fun e => e.2.pageNo))
    (hB : B = Y.map (fun e => e.2.pageNo) ++ LB.flatMap s.children) :
    (∀ e' ∈ X ++ [e], compare e'.1 (s.firstKey q) = .lt) ∧
      ∀ e' ∈ Y, compare (s.firstKey q) e'.1 = .lt := by
  obtain ⟨-, hpq, hcross⟩ := List.pairwise_append.mp hinc
  obtain ⟨hp, hqB⟩ := List.pairwise_cons.mp hpq
  refine ⟨fun e' he' => ?_, fun e' he' => ?_⟩
  · rcases List.mem_append.mp he' with he' | he'
    · rw [hseps e' (List.mem_append_left _ he')]
      refine hcross _ ?_ q (List.mem_cons_of_mem _ List.mem_cons_self)
      rw [hA]
      exact List.mem_append_right _ (List.mem_map_of_mem he')
    · rw [List.mem_singleton] at he'
      subst he'
      rw [hseps e' (List.mem_append_right _ List.mem_cons_self), he]
      exact hp q List.mem_cons_self
  · rw [hseps e' (List.mem_append_right _ (List.mem_cons_of_mem _ he'))]
    refine (List.pairwise_cons.mp hqB).1 _ ?_
    rw [hB]
    exact List.mem_append_left _ (List.mem_map_of_mem he')

/-- **`insert` between two separators.** -/
theorem insert_between [TransOrd K] {n : IxNode K} {X Y : List (K × Rid)} {e : K × Rid} {k : K}
    {v : Rid} (heq : n.entries = X ++ e :: Y) (hX : ∀ e' ∈ X ++ [e], compare e'.1 k = .lt)
    (hY : ∀ e' ∈ Y, compare k e'.1 = .lt) (hadds : n.Adds k v) :
    (n.insert k v).entries = X ++ e :: (k, v) :: Y ∧
      n.insert k v = n.insertPair (X.length + 1) k v := by
  have hsplit : n.entries = (X ++ [e]) ++ Y := by
    rw [heq, List.append_assoc]
    rfl
  have hnew : lookup k n.entries = none := by
    rw [lookup_eq_none, hsplit]
    intro e' he' hc
    rcases List.mem_append.mp he' with he' | he'
    · rw [OrientedCmp.eq_comm, hX e' he'] at hc
      cases hc
    · rw [hY e' he'] at hc
      cases hc
  obtain ⟨X', Y', heq', hins, hpair, hX', hY'⟩ := IxNode.insert_split hadds hnew
  have hle : ∀ Z : List (K × Rid), (∀ e' ∈ Z.head?, compare k e'.1 = .lt) →
      ∀ e' ∈ Z.head?, (compare k e'.1).isLE := by
    intro Z hZ e' he'
    rw [hZ e' he']
    rfl
  have hlen := lowerIdx_append hX' (hle Y' hY')
  rw [← heq', hsplit, lowerIdx_append hX
    (hle Y fun e' he' => hY e' (List.mem_of_mem_head? he'))] at hlen
  obtain ⟨rfl, rfl⟩ := List.append_inj (heq'.symm.trans hsplit) hlen.symm
  refine ⟨?_, ?_⟩
  · rw [hins, List.append_assoc]
    rfl
  · rw [hpair, List.length_append]
    rfl

end Ord

/-! ### A level with one more child -/

/-- The node `P` has got the child `q`, behind the pair `e`. -/
structure ChildAdded (s s' : IxIndexHandle K) (P q : Int) (X : List (K × Rid)) (e : K × Rid)
    (Y : List (K × Rid)) : Prop where
  entries : (s'.page P).entries = X ++ e :: (s.firstKey q, ⟨q, -1⟩) :: Y
  parent : (s'.page P).parent = (s.page P).parent
  isLeaf : (s'.page P).isLeaf = (s.page P).isLeaf
  firstKey : s'.firstKey P = s.firstKey P
  frame : ∀ x ≠ P, s'.page x = s.page x

namespace ChildAdded

variable {P : Int} {X Y : List (K × Rid)} {e : K × Rid}

theorem linked (h : ChildAdded s s' P q X e Y)
    (hlink : Linked s (LA ++ P :: LB) (A ++ p :: B)) (heq : (s.page P).entries = X ++ e :: Y)
    (he : e.2.pageNo = p) (hA : A = LA.flatMap s.children ++ X.map (fun e => e.2.pageNo))
    (hB : B = Y.map (fun e => e.2.pageNo) ++ LB.flatMap s.children)
    (hnd : (LA ++ P :: LB).Nodup) (hP : P ∉ A ++ p :: q :: B) (hq : (s.page q).parent = P) :
    Linked s' (LA ++ P :: LB) (A ++ p :: q :: B) := by
  rw [List.nodup_middle, List.nodup_cons] at hnd
  have hne : ∀ x, x ∈ LA ∨ x ∈ LB → x ≠ P := fun x hx hxP => hnd.1 (hxP ▸ List.mem_append.mpr hx)
  have hkids : ∀ x, x ∈ LA ∨ x ∈ LB → s'.children x = s.children x := by
    intro x hx
    unfold children
    rw [h.frame x (hne x hx)]
  have hkidsP : s'.children P = X.map (fun e => e.2.pageNo) ++ p :: q ::
      Y.map (fun e => e.2.pageNo) := by
    unfold children
    rw [h.entries, List.map_append, List.map_cons, List.map_cons, he]
  have hPmem : P ∈ LA ++ P :: LB := List.mem_append_right _ List.mem_cons_self
  have hmem : ∀ x ∈ LA ++ P :: LB, (x ∈ LA ∨ x ∈ LB) ∨ x = P := by
    intro x hx
    simp only [List.mem_append, List.mem_cons] at hx
    tauto
  refine ⟨fun x hx => ?_, ?_, fun x hx c hc => ?_⟩
  · rcases hmem x hx with hx' | rfl
    · rw [h.frame x (hne x hx')]
      exact hlink.inner x hx
    · rw [h.isLeaf]
      exact hlink.inner x hx
  · rw [List.flatMap_append, List.flatMap_cons, hkidsP, hA, hB,
      List.flatMap_congr fun x hx => hkids x (Or.inl hx),
      List.flatMap_congr fun x hx => hkids x (Or.inr hx)]
    simp only [List.append_assoc, List.cons_append]
  · -- the parents are those of `s`
    have hold : ∀ y ∈ LA ++ P :: LB, c ∈ s.children y → (s'.page c).parent = y := by
      intro y hy hcy
      have hcb := hlink.mem_below hy hcy
      have hcP : c ≠ P := by
        rintro rfl
        refine hP ?_
        simp only [List.mem_append, List.mem_cons] at hcb ⊢
        tauto
      rw [h.frame c hcP]
      exact hlink.parent y hy c hcy
    rcases hmem x hx with hx' | rfl
    · rw [hkids x hx'] at hc
      exact hold x hx hc
    · rw [hkidsP] at hc
      by_cases hcq : c = q
      · subst hcq
        rw [h.frame c fun hcP => hP (hcP ▸ List.mem_append_right _
          (List.mem_cons_of_mem _ List.mem_cons_self))]
        exact hq
      · refine hold x hx ?_
        unfold children
        rw [heq, List.map_append, List.map_cons, he]
        simp only [List.mem_append, List.mem_cons] at hc ⊢
        tauto

theorem seps (h : ChildAdded s s' P q X e Y) (hseps : Seps s lvl) (hP : P ∈ lvl)
    (heq : (s.page P).entries = X ++ e :: Y)
    (hfirst : ∀ x ∈ lvl, ∀ c ∈ s.children x, s'.firstKey c = s.firstKey c)
    (hq : s'.firstKey q = s.firstKey q) : Seps s' lvl := by
  have hold : ∀ x ∈ lvl, ∀ e' ∈ (s.page x).entries, e'.1 = s'.firstKey e'.2.pageNo := by
    intro x hx e' he'
    rw [hfirst x hx _ (mem_children.mpr ⟨e', he', rfl⟩)]
    exact hseps x hx e' he'
  intro x hx e' he'
  by_cases hxP : x = P
  · subst hxP
    rw [h.entries] at he'
    by_cases hnew : e' = (s.firstKey q, ⟨q, -1⟩)
    · rw [hnew]
      exact hq.symm
    · refine hold x hx e' ?_
      rw [heq]
      simp only [List.mem_append, List.mem_cons] at he' ⊢
      tauto
  · rw [h.frame x hxP] at he'
    exact hold x hx e' he'

end ChildAdded

/-- What `insert_into_parent` achieves. -/
structure ParentsFixed (s s' : IxIndexHandle K) (below : List Int) (levels : List (List Int)) :
    Prop where
  climbed : Climbed s s' below levels
  upper : ∃ levels', levels' ≠ [] ∧ Upper s' below levels' ∧
    ∀ x ∈ levels'.flatten, x ∈ levels.flatten ∨ s.nextPage ≤ x

/-- A level after one of its nodes, `P`, has got a child that `below` already lists.  `P` may be full
    now. -/
structure LevelGrown (s s' : IxIndexHandle K) (P : Int) (below lvl : List Int)
    (rest : List (List Int)) : Prop where
  header : s' = { s with page := s'.page, insertCalls := s'.insertCalls }
  mem : P ∈ lvl
  numKey : (s'.page P).numKey = (s.page P).numKey + 1
  frame : ∀ x ≠ P, s'.page x = s.page x
  linked : Linked s' lvl below
  seps : Seps s' lvl
  upper : Upper s' lvl rest
  filled : FilledLevel s lvl rest
  nodup : below.Nodup
  disjoint : ∀ x ∈ below, x ∉ lvl ++ rest.flatten
  range : ∀ x ∈ below, 2 ≤ x ∧ x < s.nextPage

/-- A full node and its level after the split. -/
structure LevelSplit (s s' : IxIndexHandle K) (P : Int) (below LA LB : List Int)
    (rest : List (List Int)) : Prop where
  header : s' = { s with
    page := s'.page, insertCalls := s'.insertCalls, numPages := s.numPages + 1
    nextPage := s.nextPage + 1 }
  page : ∀ x ∉ LA ++ P :: LB, x < s.nextPage →
    s'.page x = { s.page x with parent := (s'.page x).parent }
  frame : ∀ x ∉ LA ++ P :: LB, x < s.nextPage → x ∉ below → s'.page x = s.page x
  linked : Linked s' (LA ++ P :: s.nextPage :: LB) below
  seps : Seps s' (LA ++ P :: s.nextPage :: LB)
  parent : (s'.page s.nextPage).parent = (s'.page P).parent
  upper : Upper s' (LA ++ P :: LB) rest
  size : ∀ x ∈ LA ++ P :: s.nextPage :: LB, s.minSize ≤ (s'.page x).numKey ∧
    (s'.page x).numKey < s.maxSize

namespace LevelGrown

variable {P : Int}

/-- The node has room: the levels above are right. -/
theorem fixed (h : LevelGrown s s' P below lvl rest) (hroom : (s'.page P).numKey ≠ s'.maxSize) :
    ParentsFixed s s' below (lvl :: rest) := by
  have hne : ∀ x, x ∉ (lvl :: rest).flatten → x ≠ P := fun x hx hxP =>
    hx (List.mem_append_left _ (hxP ▸ h.mem))
  have horder : s'.btreeOrder = s.btreeOrder := by rw [h.header]
  refine ⟨⟨horder, by rw [h.header], by rw [h.header], by rw [h.header], fun x _ hx => ?_,
    fun x _ _ hx => h.frame x (hne x hx)⟩, lvl :: rest, List.cons_ne_nil _ _, ?_,
    fun x hx => Or.inl hx⟩
  · rw [h.frame x (hne x hx)]
  · refine h.upper.cons h.linked h.seps (fun x hx => ?_) h.nodup h.disjoint fun x hx => ?_
    · have hsize := h.filled x hx
      unfold minSize maxSize at *
      rw [horder] at hroom ⊢
      by_cases hxP : x = P
      · subst hxP
        rw [h.numKey] at hroom ⊢
        exact ⟨by omega, by omega, fun hr => Nat.le_succ_of_le (hsize.2.2 hr)⟩
      · rw [h.frame x hxP]
        exact hsize
    · rw [h.header]
      exact h.range x hx

/-- **Splitting the full node.** -/
theorem split [Inhabited K] {s₁ : IxIndexHandle K} (h : LevelGrown s s₁ P below (LA ++ P :: LB) rest)
    (hfull : (s₁.page P).numKey = s₁.maxSize) (horder : 3 ≤ s.btreeOrder) :
    ∃ s₂, s₁.split P = (s.nextPage, s₂) ∧ s₂.insertCalls = s₁.insertCalls ∧
      LevelSplit s s₂ P below LA LB rest := by
  have hnext : s₁.nextPage = s.nextPage := by rw [h.header]
  have hlvl : ∀ x ∈ (LA ++ P :: LB) ++ rest.flatten, 2 ≤ x ∧ x < s.nextPage := fun x hx => by
    rw [← hnext]
    exact h.upper.range x hx
  have hP := hlvl P (List.mem_append_left _ h.mem)
  have hchild : ∀ c ∈ s₁.children P, c ≠ P ∧ c ≠ s₁.nextPage := by
    intro c hc
    have hcb := h.linked.mem_below h.mem hc
    have := (h.range c hcb).2
    exact ⟨fun hcP => h.disjoint c hcb (List.mem_append_left _ (hcP ▸ h.mem)), by omega⟩
  obtain ⟨s₂, hsplit, hinn, hhead⟩ := split_inner (h.linked.inner P h.mem) (by omega) hchild
  rw [hnext] at hsplit hinn hhead
  have hdrop : ∀ x ∈ (s₁.children P).drop ((s₁.page P).numKey / 2), x ∈ below := fun x hx =>
    h.linked.mem_below h.mem (List.mem_of_mem_drop hx)
  have hnd : (below ++ (LA ++ P :: LB)).Nodup := by
    rw [List.nodup_append]
    refine ⟨h.nodup, h.upper.below_nodup, fun a ha b hb hab => ?_⟩
    exact h.disjoint a ha (List.mem_append_left _ (hab ▸ hb))
  have hq : s.nextPage ∉ below ++ (LA ++ P :: LB) := by
    intro hmem
    rcases List.mem_append.mp hmem with hmem | hmem
    · have := (h.range _ hmem).2
      omega
    · have := (hlvl _ (List.mem_append_left _ hmem)).2
      omega
  -- pages of this level and above, other than `P`
  have hup : ∀ x ∈ (LA ++ P :: LB) ++ rest.flatten, x ≠ P → s₂.page x = s₁.page x := by
    intro x hx hxP
    have := (hlvl x hx).2
    exact hinn.frame x hxP (by omega) fun hxd => h.disjoint x (hdrop x hxd) hx
  have hmax : s₁.maxSize = s.maxSize := by rw [h.header]; rfl
  have hnext₂ : s₂.nextPage = s.nextPage + 1 := by rw [hhead]
  refine ⟨s₂, hsplit, by rw [hhead], ⟨?_, fun x hx hxn => ?_, fun x hx hxn hxb => ?_,
    hinn.linked h.linked hnd hq, hinn.seps h.linked h.seps hnd hq, ?_, ?_, fun x hx => ?_⟩⟩
  · rw [hhead, h.header]
  · have hxP : x ≠ P := fun hxP => hx (hxP ▸ h.mem)
    rw [← h.frame x hxP]
    by_cases hxd : x ∈ (s₁.children P).drop ((s₁.page P).numKey / 2)
    · rw [hinn.moved x hxd]
    · rw [hinn.frame x hxP (by omega) hxd]
  · have hxP : x ≠ P := fun hxP => hx (hxP ▸ h.mem)
    rw [hinn.frame x hxP (by omega) fun hxd => hxb (hdrop x hxd), h.frame x hxP]
  · rw [hinn.left, hinn.right]
    rfl
  · refine h.upper.congr (by rw [hhead]) (by rw [hhead]) (by omega)
      (fun x hx => ?_) fun x hx => ?_
    · unfold firstKey
      by_cases hxP : x = P
      · rw [hxP, hinn.left]
        exact ⟨rfl, rfl⟩
      · rw [hup x (List.mem_append_left _ hx) hxP]
        exact ⟨rfl, rfl⟩
    · exact hup x (List.mem_append_right _ hx) fun hxP => h.upper.disjoint h.mem (hxP ▸ hx)
  · have hsz : s.minSize = s.maxSize / 2 := rfl
    have hms : s.maxSize = s.btreeOrder + 1 := rfl
    by_cases hxP : x = P
    · rw [hxP, hinn.left]
      dsimp only
      rw [hfull, hmax]
      omega
    by_cases hxn : x = s.nextPage
    · rw [hxn, hinn.right, numKey_splitOff, hfull, hmax]
      omega
    · have hxl : x ∈ LA ++ P :: LB := by
        simp only [List.mem_append, List.mem_cons] at hx ⊢
        tauto
      have hsize := h.filled x hxl
      rw [hup x (List.mem_append_left _ hxl) hxP, h.frame x hxP]
      refine ⟨hsize.2.2 fun hrest => ?_, hsize.2.1⟩
      -- the only node of the top level is `P`
      have htop := h.upper.shape
      rw [hrest] at htop
      generalize hl : LA ++ P :: LB = l at htop hxl
      cases htop with
      | root hr hp =>
        rw [List.mem_singleton] at hxl
        have hPl : P ∈ [_] := hl ▸ h.mem
        rw [List.mem_singleton] at hPl
        exact hxP (hxl.trans hPl.symm)

end LevelGrown

namespace LevelSplit

variable {P : Int} {s₂ s₃ : IxIndexHandle K}

/-- The first keys of the level increase. -/
theorem increasing [Ord K] (h : LevelSplit s s₂ P below LA LB rest) (hmin : 1 ≤ s.minSize)
    (hinc : IncreasingKeys s below) (hb : ∀ x ∈ below, x ∉ LA ++ P :: LB ∧ x < s.nextPage) :
    IncreasingKeys s₂ (LA ++ P :: s.nextPage :: LB) := by
  refine h.linked.increasing h.seps (fun x hx => ?_) ?_
  · have := (h.size x hx).1
    omega
  · refine hinc.imp_of_mem fun {a b} ha hb' hab => ?_
    unfold firstKey at hab ⊢
    rw [h.page a (hb a ha).1 (hb a ha).2, h.page b (hb b hb').1 (hb b hb').2]
    exact hab

/-- The levels above are right, once the new neighbour of `P` has been put into them. -/
theorem fixed (h : LevelSplit s s₂ P below LA LB rest)
    (hfix : ParentsFixed s₂ s₃ (LA ++ P :: s.nextPage :: LB) rest) (horder : 3 ≤ s.btreeOrder)
    (hnodup : below.Nodup) (hdisj : ∀ x ∈ below, x ∉ (LA ++ P :: LB) ++ rest.flatten)
    (hrange : ∀ x ∈ below, 2 ≤ x ∧ x < s.nextPage) (hrest : ∀ x ∈ rest.flatten, x < s.nextPage) :
    ParentsFixed s s₃ below ((LA ++ P :: LB) :: rest) := by
  obtain ⟨hclimb, rest', hne, hup, hnew⟩ := hfix
  have hnext₂ : s₂.nextPage = s.nextPage + 1 := by rw [h.header]
  have hnext₃ := hclimb.nextPage
  have horder₃ : s₃.btreeOrder = s.btreeOrder := by rw [hclimb.order, h.header]
  have hmem : ∀ x ∈ LA ++ P :: s.nextPage :: LB, x ∈ LA ++ P :: LB ∨ x = s.nextPage := by
    intro x hx
    simp only [List.mem_append, List.mem_cons] at hx ⊢
    tauto
  -- the nodes of this level have only got other parents
  have hlvl : ∀ x ∈ LA ++ P :: s.nextPage :: LB,
      s₃.page x = { s₂.page x with parent := (s₃.page x).parent } := by
    intro x hx
    rcases hmem x hx with hx | rfl
    · exact hclimb.page x (h.upper.range x (List.mem_append_left _ hx)).2 (h.upper.disjoint hx)
    · exact hclimb.page _ (by omega) fun hx => Int.lt_irrefl _ (hrest _ hx)
  have hbelow : ∀ x ∈ below, s₃.page x = s₂.page x := by
    intro x hx
    have hxr := hrange x hx
    refine hclimb.frame x (by omega) (fun hx' => ?_) fun hx' =>
      hdisj x hx (List.mem_append_right _ hx')
    rcases hmem x hx' with hx' | hx'
    · exact hdisj x hx (List.mem_append_left _ hx')
    · omega
  refine ⟨⟨horder₃, by rw [hclimb.firstLeaf, h.header], by rw [hclimb.lastLeaf, h.header], by omega,
    fun x hx hxl => ?_, fun x hx hxb hxl => ?_⟩, (LA ++ P :: s.nextPage :: LB) :: rest',
    List.cons_ne_nil _ _, ?_, fun x hx => ?_⟩
  · rw [List.flatten_cons, List.mem_append, not_or] at hxl
    have h₃ := hclimb.page x (by omega) hxl.2
    have h₂ := h.page x hxl.1 hx
    rw [h₃, h₂]
  · rw [List.flatten_cons, List.mem_append, not_or] at hxl
    rw [hclimb.frame x (by omega) (fun hx' => ?_) hxl.2, h.frame x hxl.1 hx hxb]
    rcases hmem x hx' with hx' | hx'
    · exact hxl.1 hx'
    · omega
  · refine hup.cons (h.linked.congr (fun x hx => ?_) fun x hx => ?_) (h.seps.congr (fun x hx => ?_)
      fun x hx c hc => ?_) (fun x hx => ?_) hnodup (fun x hx hx' => ?_) fun x hx => ?_
    · rw [hlvl x hx]
      exact ⟨rfl, rfl⟩
    · rw [hbelow x hx]
    · rw [hlvl x hx]
      rfl
    · unfold firstKey
      rw [hbelow c (h.linked.mem_below hx hc)]
    · have hsize := h.size x hx
      have hnum : (s₃.page x).numKey = (s₂.page x).numKey := by rw [hlvl x hx]
      unfold minSize maxSize at *
      rw [hnum, horder₃]
      exact ⟨by omega, by omega, fun _ => hsize.1⟩
    · have hxr := hrange x hx
      rcases List.mem_append.mp hx' with hx' | hx'
      · rcases hmem x hx' with hx' | hx'
        · exact hdisj x hx (List.mem_append_left _ hx')
        · omega
      · rcases hnew x hx' with hx' | hx'
        · exact hdisj x hx (List.mem_append_right _ hx')
        · omega
    · have hxr := hrange x hx
      omega
  · rw [List.flatten_cons] at hx ⊢
    rcases List.mem_append.mp hx with hx | hx
    · rcases hmem x hx with hx | hx
      · exact Or.inl (List.mem_append_left _ hx)
      · exact Or.inr (by omega)
    · rcases hnew x hx with hx | hx
      · exact Or.inl (List.mem_append_right _ hx)
      · exact Or.inr (by omega)

end LevelSplit

/-- Below no level there is one node, the root. -/
theorem Upper.alone (hup : Upper s (A ++ p :: B) []) : A = [] ∧ B = [] ∧ (s.page p).parent = -1 := by
  have hshape := hup.shape
  generalize hl : A ++ p :: B = l at hshape
  cases hshape with
  | root hr hp =>
    obtain ⟨rfl, hl⟩ | ⟨-, hl⟩ := List.append_eq_singleton_iff.mp hl
    · obtain ⟨rfl, rfl⟩ := List.cons.inj hl
      exact ⟨rfl, rfl, hp⟩
    · cases hl

section Insert

variable [Ord K]

theorem page_insertInto (s : IxIndexHandle K) (P : Int) (k : K) (v : Rid) (x : Int) :
    (s.insertInto P k v).page x = if x = P then (s.page P).insert k v else s.page x :=
  page_modify s P (·.insert k v) x

section Root

variable [Inhabited K]

/-- The pages after `p` and `q` have got a new root. -/
structure NewRoot (s s' : IxIndexHandle K) (p q : Int) : Prop where
  header : s' = { s with
    rootPage := s.nextPage
    numPages := s.numPages + 1
    nextPage := s.nextPage + 1
    page := s'.page }
  left : s'.page p = { s.page p with parent := s.nextPage }
  right : s'.page q = { s.page q with parent := s.nextPage }
  isLeaf : (s'.page s.nextPage).isLeaf = false
  parent : (s'.page s.nextPage).parent = -1
  entries : (s'.page s.nextPage).entries = [(s.firstKey p, ⟨p, -1⟩), (s.firstKey q, ⟨q, -1⟩)]
  frame : ∀ x, x ≠ p → x ≠ q → x ≠ s.nextPage → s'.page x = s.page x

/-- `insert_into_parent` of the two halves of the root. -/
theorem insertIntoParent_newRoot (fuel : Nat) (hparent : (s.page p).parent = -1)
    (hpn : p ≠ s.nextPage) (hqn : q ≠ s.nextPage) (hpq : p ≠ q) :
    ∃ s', insertIntoParent (fuel + 1) s p q = .ok s' ∧ NewRoot s s' p q := by
  let root : IxNode K := ({ IxNode.zero with parent := -1 }.insertPair 0 (s.firstKey p)
    ⟨p, -1⟩).insertPair 1 (s.firstKey q) ⟨q, -1⟩
  let s' : IxIndexHandle K := { s with
    rootPage := s.nextPage
    numPages := s.numPages + 1
    nextPage := s.nextPage + 1
    page := fun x =>
      if x = q then { s.page q with parent := s.nextPage }
      else if x = p then { s.page p with parent := s.nextPage }
      else if x = s.nextPage then root else s.page x }
  have hpager : s'.page s.nextPage = root := by
    rw [show s'.page s.nextPage = _ from if_neg hqn.symm, if_neg hpn.symm, if_pos rfl]
  refine ⟨s', ?_, rfl, ?_, if_pos rfl, by rw [hpager]; rfl, by rw [hpager]; rfl, by rw [hpager]; rfl,
    fun x hxp hxq hxn => ?_⟩
  · rw [insertIntoParent, if_pos (by unfold IxNode.isRootPage; rw [hparent]; rfl)]
    unfold createNode
    dsimp only
    rw [Function.update_of_ne hpn, Function.update_of_ne hqn]
    congr 1
    unfold setParent modify set
    dsimp only
    congr 1
    funext x
    simp only [Function.update_apply]
    by_cases hxq : x = q
    · rw [if_pos hxq, if_pos hxq, if_neg hpq.symm, if_neg hqn, if_neg hqn]
    · rw [if_neg hxq, if_neg hxq]
      by_cases hxp : x = p
      · rw [if_pos hxp, if_pos hxp, if_neg hpn, if_neg hpn]
      · rw [if_neg hxp, if_neg hxp]
        by_cases hxn : x = s.nextPage
        · rw [if_pos hxn, if_pos hxn]
          rfl
        · rw [if_neg hxn, if_neg hxn, if_neg hxn]
  · rw [show s'.page p = _ from if_neg hpq, if_pos rfl]
  · rw [show s'.page x = _ from if_neg hxq, if_neg hxp, if_neg hxn]

/-- **A new root.** -/
theorem insertIntoParent_root {fuel : Nat} (hparent : (s.page p).parent = -1)
    (hp : 2 ≤ p ∧ p < s.nextPage) (hq : 2 ≤ q ∧ q < s.nextPage) (hpq : p ≠ q)
    (horder : 3 ≤ s.btreeOrder) :
    ∃ s', insertIntoParent (fuel + 1) s p q = .ok s' ∧ s'.insertCalls = s.insertCalls ∧
      ParentsFixed s s' [p, q] [] := by
  have hpn : p ≠ s.nextPage := by omega
  have hqn : q ≠ s.nextPage := by omega
  obtain ⟨s', hrun, hhead, hpagep, hpageq, hinner, hnoParent, hentries, hother⟩ :=
    insertIntoParent_newRoot fuel hparent hpn hqn hpq
  have hroot : s'.rootPage = s.nextPage := by rw [hhead]
  have hnext : s'.nextPage = s.nextPage + 1 := by rw [hhead]
  have hmax : s'.btreeOrder = s.btreeOrder := by rw [hhead]
  -- the new root has the two halves as its children
  have hkids : s'.children s.nextPage = [p, q] := by
    unfold children
    rw [hentries]
    rfl
  refine ⟨s', hrun, by rw [hhead], ⟨hmax, by rw [hhead], by rw [hhead], by omega, fun x hx _ => ?_,
    fun x hx hxb _ => ?_⟩, [[s.nextPage]], List.cons_ne_nil _ _, ?_, fun x hx => ?_⟩
  · by_cases hxq : x = q
    · rw [hxq, hpageq]
    · by_cases hxp : x = p
      · rw [hxp, hpagep]
      · rw [hother x hxp hxq (Int.ne_of_lt hx)]
  · simp only [List.mem_cons, List.not_mem_nil, or_false, not_or] at hxb
    exact hother x hxb.1 hxb.2 (Int.ne_of_lt hx)
  · -- it is a level of its own above theirs
    have htop : Upper s' [s.nextPage] [] := by
      refine ⟨.root hroot hnoParent, fun _ hl => absurd hl List.not_mem_nil, trivial,
        List.nodup_singleton _, fun x hx => ?_⟩
      rw [List.flatten_nil, List.append_nil, List.mem_singleton] at hx
      subst hx
      omega
    refine htop.cons ⟨fun x hx => ?_, ?_, fun x hx c hc => ?_⟩ (fun x hx e he => ?_) (fun x hx => ?_)
      ?_ (fun x hx hx' => ?_) fun x hx => ?_
    · rw [List.mem_singleton] at hx
      rw [hx]
      exact hinner
    · rw [List.flatMap_singleton, hkids]
    · rw [List.mem_singleton] at hx
      rw [hx, hkids] at hc
      rw [hx]
      simp only [List.mem_cons, List.not_mem_nil, or_false] at hc
      rcases hc with rfl | rfl
      · rw [hpagep]
      · rw [hpageq]
    · rw [List.mem_singleton] at hx
      rw [hx, hentries] at he
      unfold firstKey
      simp only [List.mem_cons, List.not_mem_nil, or_false] at he
      rcases he with rfl | rfl
      · rw [hpagep]
        rfl
      · rw [hpageq]
        rfl
    · rw [List.mem_singleton] at hx
      have hnum : (s'.page x).numKey = 2 := by
        rw [hx, ← IxNode.length_entries, hentries]
        rfl
      refine ⟨by rw [hnum], ?_, fun h => absurd rfl h⟩
      rw [hnum]
      unfold maxSize
      omega
    · rw [List.nodup_cons, List.mem_singleton]
      exact ⟨hpq, List.nodup_singleton _⟩
    · rw [List.flatten_nil, List.append_nil, List.mem_singleton] at hx'
      subst hx'
      simp only [List.mem_cons, List.not_mem_nil, or_false] at hx
      rcases hx with h | h
      · exact hpn h.symm
      · exact hqn h.symm
    · have hx' : x = p ∨ x = q := by
        simpa only [List.mem_cons, List.not_mem_nil, or_false] using hx
      rcases hx' with rfl | rfl <;> omega
  · rw [List.flatten_singleton, List.mem_singleton] at hx
    subst hx
    exact Or.inr (Int.le_refl _)

end Root

/-- `insert_into_parent` below a parent `P`. -/
theorem insertIntoParent_succ [Inhabited K] (fuel : Nat) {P : Int} (hP : (s.page p).parent = P)
    (hq : (s.page q).parent = (s.page p).parent) (hPr : 2 ≤ P) :
    insertIntoParent (fuel + 1) s p q =
      if ((s.insertInto P (s.firstKey q) ⟨q, -1⟩).page P).numKey = s.maxSize then do
        let t := s.insertInto P (s.firstKey q) ⟨q, -1⟩
        let s ← insertIntoParent fuel (t.split P).2 P (t.split P).1
        return if P = s.lastLeaf then { s with lastLeaf := (t.split P).1 } else s
      else .ok (s.insertInto P (s.firstKey q) ⟨q, -1⟩) := by
  have hroot : ¬ (s.page p).isRootPage = true := by
    unfold IxNode.isRootPage
    rw [hP, decide_eq_true_eq]
    omega
  rw [insertIntoParent, if_neg hroot]
  dsimp only
  rw [hq, hP]
  rfl

variable [TransOrd K]

/-- The call of `IxNodeHandle::insert` adds the child to the parent. -/
theorem insertInto_childAdded {P : Int} {X Y : List (K × Rid)} {e : K × Rid}
    (heq : (s.page P).entries = X ++ e :: Y)
    (hX : ∀ e' ∈ X ++ [e], compare e'.1 (s.firstKey q) = .lt)
    (hY : ∀ e' ∈ Y, compare (s.firstKey q) e'.1 = .lt)
    (hadds : (s.page P).Adds (s.firstKey q) ⟨q, -1⟩) :
    ChildAdded s (s.insertInto P (s.firstKey q) ⟨q, -1⟩) P q X e Y := by
  obtain ⟨hentries, hpair⟩ := insert_between heq hX hY hadds
  have hP : (s.insertInto P (s.firstKey q) ⟨q, -1⟩).page P =
      (s.page P).insertPair (X.length + 1) (s.firstKey q) ⟨q, -1⟩ := by
    rw [page_insertInto, if_pos rfl, hpair]
  refine ⟨?_, by rw [hP]; rfl, by rw [hP]; rfl, ?_, fun x hx => ?_⟩
  · rw [hP, ← hpair]
    exact hentries
  · exact (congrArg (fun n => n.keys 0) hP).trans (IxNode.keys_zero_insertPair _ _ _ _)
  · rw [page_insertInto, if_neg hx]

/-- **One round of `insert_into_parent`**, before a split. -/
theorem Upper.addChild (hup : Upper s (A ++ p :: B) (lvl :: rest))
    (hq : (s.page q).parent = (s.page p).parent) (hnew : q ∉ A ++ p :: B ++ (lvl :: rest).flatten)
    (hqr : 2 ≤ q ∧ q < s.nextPage) (hinc : IncreasingKeys s (A ++ p :: q :: B)) :
    ∃ LA P LB, lvl = LA ++ P :: LB ∧ (s.page p).parent = P ∧
      ((s.page P).Adds (s.firstKey q) ⟨q, -1⟩ →
        LevelGrown s (s.insertInto P (s.firstKey q) ⟨q, -1⟩) P (A ++ p :: q :: B) lvl rest) := by
  -- the entry of `p` in its parent `P`, behind which the one of `q` goes
  obtain ⟨LA, P, LB, X, e, Y, rfl, heq, he, hP, hA, hB⟩ := hup.linked.slot
  have hPmem : P ∈ LA ++ P :: LB := List.mem_append_right _ List.mem_cons_self
  refine ⟨LA, P, LB, rfl, hP, fun hadds => ?_⟩
  have hseps := hup.seps _ List.mem_cons_self
  obtain ⟨hX, hY⟩ := hinc.around he (fun e' he' => hseps P hPmem e' (heq ▸ he')) hA hB
  have hadd := insertInto_childAdded heq hX hY hadds
  have hmem : ∀ x ∈ A ++ p :: q :: B, x ∈ A ++ p :: B ∨ x = q := by
    intro x hx
    simp only [List.mem_append, List.mem_cons] at hx ⊢
    tauto
  -- `q` is on no level above either
  have hdisj : ∀ x ∈ A ++ p :: q :: B, x ∉ (LA ++ P :: LB) ++ rest.flatten := by
    intro x hx hx'
    rcases hmem x hx with hx | rfl
    · exact hup.disjoint hx hx'
    · exact hnew (List.mem_append_right _ hx')
  have hPout : P ∉ A ++ p :: q :: B := fun h => hdisj P h (List.mem_append_left _ hPmem)
  have hqP : q ≠ P := fun h => hPout (h ▸ List.mem_append_right _
    (List.mem_cons_of_mem _ List.mem_cons_self))
  refine ⟨rfl, hPmem, ?_, hadd.frame, ?_, ?_, ?_, hup.filled.1, ?_, hdisj, fun x hx => ?_⟩
  · rw [← IxNode.length_entries, ← IxNode.length_entries, hadd.entries, heq]
    simp only [List.length_append, List.length_cons]
    omega
  · exact hadd.linked hup.linked heq he hA hB hup.tail.below_nodup hPout (hq.trans hP)
  · refine hadd.seps hseps hPmem heq (fun x hx c hc => ?_) ?_
    · have hcP : c ≠ P := fun h => hup.disjoint (hup.linked.mem_below hx hc)
        (List.mem_append_left _ (h ▸ hPmem))
      exact congrArg (fun n => n.keys 0) (hadd.frame c hcP)
    · exact congrArg (fun n => n.keys 0) (hadd.frame q hqP)
  · refine hup.tail.congr rfl rfl (Int.le_refl _) (fun x hx => ?_) fun x hx => ?_
    · by_cases hxP : x = P
      · subst hxP
        exact ⟨hadd.parent, hadd.firstKey⟩
      · refine ⟨by rw [hadd.frame x hxP], ?_⟩
        exact congrArg (fun n => n.keys 0) (hadd.frame x hxP)
    · refine hadd.frame x fun hxP => ?_
      subst hxP
      exact hup.tail.disjoint hPmem hx
  · rw [← List.singleton_append, ← List.append_assoc, List.nodup_middle, List.nodup_cons,
      List.append_assoc, List.singleton_append]
    exact ⟨fun h => hnew (List.mem_append_left _ h), hup.below_nodup⟩
  · rcases hmem x hx with hx | rfl
    · exact hup.range x (List.mem_append_left _ hx)
    · exact hqr

/-- **`insert_into_parent`.** It ends, and if its calls of `IxNodeHandle::insert` add their pairs, the
    levels above are right again and hold the new node. -/
theorem insertIntoParent_spec [Inhabited K] {fuel : Nat} (hfuel : levels.length < fuel)
    (hup : Upper s (A ++ p :: B) levels) (hq : (s.page q).parent = (s.page p).parent)
    (hnew : q ∉ A ++ p :: B ++ levels.flatten) (hqr : 2 ≤ q ∧ q < s.nextPage)
    (hinc : IncreasingKeys s (A ++ p :: q :: B)) (hlast : s.lastLeaf ∉ levels.flatten)
    (horder : 3 ≤ s.btreeOrder) :
    ∃ s', insertIntoParent fuel s p q = .ok s' ∧ s.insertCalls ⊆ s'.insertCalls ∧
      (InnerCallsAdd s' → ParentsFixed s s' (A ++ p :: q :: B) levels) := by
  induction levels generalizing s A B p q fuel with
  | nil =>
    obtain ⟨fuel, rfl⟩ := Nat.exists_eq_add_one_of_ne_zero (Nat.ne_of_gt hfuel)
    obtain ⟨rfl, rfl, hparent⟩ := hup.alone
    have hpr := hup.range p List.mem_cons_self
    have hpq : p ≠ q := fun h => hnew (h ▸ List.mem_cons_self)
    obtain ⟨s', hrun, hcalls, hfixed⟩ := insertIntoParent_root hparent hpr hqr hpq horder
    exact ⟨s', hrun, by rw [hcalls]; exact List.Subset.refl _, fun _ => hfixed⟩
  | cons lvl rest ih =>
    obtain ⟨fuel, rfl⟩ := Nat.exists_eq_add_one_of_ne_zero (Nat.ne_of_gt (Nat.lt_of_le_of_lt
      (Nat.zero_le _) hfuel))
    obtain ⟨LA, P, LB, rfl, hP, hadd⟩ := hup.addChild hq hnew hqr hinc
    have hPmem : P ∈ LA ++ P :: LB := List.mem_append_right _ List.mem_cons_self
    have hPr := hup.tail.range P (List.mem_append_left _ hPmem)
    have hPsize := hup.filled.1 P hPmem
    have hlast' : s.lastLeaf ≠ P := fun h => hlast (List.mem_append_left _ (h ▸ hPmem))
    generalize hs₁ : s.insertInto P (s.firstKey q) ⟨q, -1⟩ = s₁ at hadd
    have hcalls₁ : s₁.insertCalls = s.insertCalls ++ [(s.page P, s.firstKey q, ⟨q, -1⟩)] := by
      rw [← hs₁]
      rfl
    have hsub₁ : s.insertCalls ⊆ s₁.insertCalls := by
      rw [hcalls₁]
      exact List.subset_append_left _ _
    have hstep := insertIntoParent_succ fuel hP hq hPr.1
    rw [hs₁] at hstep
    rw [hstep]
    by_cases hadds : (s.page P).Adds (s.firstKey q) ⟨q, -1⟩
    case neg =>
      -- the pair is not added, so the parent is not full
      have hpage : s₁.page P = s.page P := by
        rw [← hs₁, page_insertInto, if_pos rfl, IxNode.insert_of_not_adds hadds]
      rw [hpage, if_neg (Nat.ne_of_lt hPsize.2.1)]
      refine ⟨s₁, rfl, hsub₁, fun hcalls => ?_⟩
      refine absurd (hcalls (s.page P, s.firstKey q, ⟨q, -1⟩) ?_ (hup.linked.inner P hPmem)) hadds
      rw [hcalls₁]
      exact List.mem_append_right _ List.mem_cons_self
    have hgrown := hadd hadds
    have hmax : s₁.maxSize = s.maxSize := by
      rw [hgrown.header]
      rfl
    by_cases hfull : (s₁.page P).numKey = s.maxSize
    case neg =>
      rw [if_neg hfull]
      exact ⟨s₁, rfl, hsub₁, fun _ => hgrown.fixed (hmax ▸ hfull)⟩
    -- the parent is split, and its new neighbour goes up
    obtain ⟨s₂, hsplit, hcalls₂, hlevel⟩ := hgrown.split (hmax ▸ hfull) horder
    have hhead₂ := hlevel.header
    have hnext₂ : s₂.nextPage = s.nextPage + 1 := by rw [hhead₂]
    have hinc₂ : IncreasingKeys s₂ (LA ++ P :: s.nextPage :: LB) := by
      refine hlevel.increasing ?_ hinc fun x hx => ⟨fun hx' => ?_, (hgrown.range x hx).2⟩
      · unfold minSize maxSize
        omega
      · exact hgrown.disjoint x hx (List.mem_append_left _ hx')
    have hnew₂ : s.nextPage ∉ LA ++ P :: LB ++ rest.flatten := fun h =>
      Int.lt_irrefl _ (hup.tail.range _ h).2
    obtain ⟨s₃, hrun, hsub, hfix⟩ := ih (Nat.lt_of_succ_lt_succ hfuel) hlevel.upper hlevel.parent
      hnew₂ ⟨by omega, by omega⟩ hinc₂
      (by rw [hhead₂]; exact fun h => hlast (List.mem_append_right _ h)) (by rw [hhead₂]; exact horder)
    rw [if_pos hfull]
    dsimp only
    rw [hsplit]
    dsimp only
    rw [hrun]
    have hsub₃ : s.insertCalls ⊆ s₃.insertCalls := fun c hc => hsub (hcalls₂ ▸ hsub₁ hc)
    by_cases hPl : P = s₃.lastLeaf
    · -- not if the calls add their pairs: `P` is no leaf
      refine ⟨{ s₃ with lastLeaf := s.nextPage }, ?_, hsub₃, fun hcalls => ?_⟩
      · show Except.ok (if P = s₃.lastLeaf then _ else _) = _
        rw [if_pos hPl]
      · refine absurd ?_ hlast'
        rw [hPl, (hfix hcalls).climbed.lastLeaf, hhead₂]
    · refine ⟨s₃, ?_, hsub₃, fun hcalls => ?_⟩
      · show Except.ok (if P = s₃.lastLeaf then _ else _) = _
        rw [if_neg hPl]
      · exact hlevel.fixed (hfix hcalls) horder hgrown.nodup hgrown.disjoint hgrown.range
          fun x hx => (hup.tail.range x (List.mem_append_right _ hx)).2

end Insert

end IxIndexHandle

end Rmdb
