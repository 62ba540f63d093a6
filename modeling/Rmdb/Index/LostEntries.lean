import Rmdb.Index.InsertRuns

namespace Rmdb

open Lib Std

namespace IxIndexHandle

/-!
# Insertions that lose pairs

A call of `IxNodeHandle::insert` may compare the key with a slot behind the last and insert nothing.  On
a leaf the pair is lost; on an inner node the new child is, with the pairs below it.  What is left is a
tree that can be searched.

* `ParentsKept` — what `insert_into_parent` leaves in any case;
* `SearchTree.insertEntry_kept` — `insert_entry` in any case: one pair more, if nothing is lost;
* `insertEntries_all_iff` — a run has all its pairs just if each call adds its own.
-/

variable {K : Type} {s s' s₂ s₃ : IxIndexHandle K} {below lvl lvl' LA LB A B : List Int}
  {rest levels : List (List Int)} {p q P : Int}

/-! ### Parts of levels -/

/-- If no part is empty, a sublist with the same concatenation is the list. -/
theorem sublist_eq_of_flatMap_eq {α β : Type} {f : α → List β} {l l' : List α} (h : l'.Sublist l)
    (hne : ∀ x ∈ l, f x ≠ []) (heq : l'.flatMap f = l.flatMap f) : l' = l := by
  induction h with
  | slnil => rfl
  | @cons l₁ l₂ a h ih =>
    -- the part of `a` is missing
    have hle := (h.flatMap f).length_le
    have hlen := congrArg List.length heq
    rw [List.flatMap_cons, List.length_append] at hlen
    have hpos := List.length_pos_of_ne_nil (hne a List.mem_cons_self)
    omega
  | @cons_cons l₁ l₂ a h ih =>
    rw [List.flatMap_cons, List.flatMap_cons, List.append_cancel_left_eq] at heq
    rw [ih (fun x hx => hne x (List.mem_cons_of_mem _ hx)) heq]

/-- Some nodes of a level, with their children. -/
theorem Linked.sub (h : Linked s lvl below) (hsub : lvl' ⊆ lvl) :
    Linked s lvl' (lvl'.flatMap s.children) where
  inner p hp := h.inner p (hsub hp)
  flat := rfl
  parent p hp := h.parent p (hsub hp)

/-! ### `insert_into_parent` -/

/-- What `insert_into_parent` leaves of a level: the nodes `kept`. -/
structure ParentsKept (s s' : IxIndexHandle K) (below kept : List Int) (levels : List (List Int)) :
    Prop where
  order : s'.btreeOrder = s.btreeOrder
  nextPage : s.nextPage ≤ s'.nextPage
  page : ∀ x < s.nextPage, x ∉ levels.flatten → s'.page x = { s.page x with parent := (s'.page x).parent }
  frame : ∀ x < s.nextPage, x ∉ below → x ∉ levels.flatten → s'.page x = s.page x
  sublist : kept.Sublist below
  upper : ∃ levels', Upper s' kept levels' ∧
    ∀ x ∈ levels'.flatten, x ∈ levels.flatten ∨ s.nextPage ≤ x

theorem ParentsFixed.kept (h : ParentsFixed s s' below levels) :
    ParentsKept s s' below below levels where
  order := h.climbed.order
  nextPage := h.climbed.nextPage
  page := h.climbed.page
  frame := h.climbed.frame
  sublist := List.Sublist.refl _
  upper := by
    obtain ⟨levels', -, hup, hnew⟩ := h.upper
    exact ⟨levels', hup, hnew⟩

/-- After a split, what is left of the level decides what is left of the one below. -/
theorem LevelSplit.kept (h : LevelSplit s s₂ P below LA LB rest)
    (hfix : ParentsKept s₂ s₃ (LA ++ P :: s.nextPage :: LB) lvl' rest)
    (hnodup : below.Nodup) (hdisj : ∀ x ∈ below, x ∉ (LA ++ P :: LB) ++ rest.flatten)
    (hrange : ∀ x ∈ below, 2 ≤ x ∧ x < s.nextPage) (hrest : ∀ x ∈ rest.flatten, x < s.nextPage)
    (horder : 3 ≤ s.btreeOrder) :
    ParentsKept s s₃ below (lvl'.flatMap s₂.children) ((LA ++ P :: LB) :: rest) := by
  obtain ⟨rest', hup, hnew⟩ := hfix.upper
  have hsub := hfix.sublist.subset
  have hnext₂ : s₂.nextPage = s.nextPage + 1 := by rw [h.header]
  have hnext₃ := hfix.nextPage
  have horder₃ : s₃.btreeOrder = s.btreeOrder := by rw [hfix.order, h.header]
  have hmem : ∀ x ∈ LA ++ P :: s.nextPage :: LB, x ∈ LA ++ P :: LB ∨ x = s.nextPage := by
    intro x hx
    simp only [List.mem_append, List.mem_cons] at hx ⊢
    tauto
  have hkept : (lvl'.flatMap s₂.children).Sublist below := by
    have hflat := hfix.sublist.flatMap s₂.children
    rwa [← h.linked.flat] at hflat
  -- the nodes of this level have only got other parents
  have hlvl : ∀ x ∈ LA ++ P :: s.nextPage :: LB,
      s₃.page x = { s₂.page x with parent := (s₃.page x).parent } := by
    intro x hx
    rcases hmem x hx with hx | rfl
    · exact hfix.page x (h.upper.range x (List.mem_append_left _ hx)).2 (h.upper.disjoint hx)
    · exact hfix.page _ (by omega) fun hx => Int.lt_irrefl _ (hrest _ hx)
  have hbelow : ∀ x ∈ below, s₃.page x = s₂.page x := by
    intro x hx
    have hxr := hrange x hx
    refine hfix.frame x (by omega) (fun hx' => ?_) fun hx' =>
      hdisj x hx (List.mem_append_right _ hx')
    rcases hmem x hx' with hx' | hx'
    · exact hdisj x hx (List.mem_append_left _ hx')
    · omega
  have hlinked := h.linked.sub hsub
  refine ⟨horder₃, by omega, fun x hx hxl => ?_, fun x hx hxb hxl => ?_, hkept,
    lvl' :: rest', ?_, fun x hx => ?_⟩
  · rw [List.flatten_cons, List.mem_append, not_or] at hxl
    have h₃ := hfix.page x (by omega) hxl.2
    have h₂ := h.page x hxl.1 hx
    rw [h₃, h₂]
  · rw [List.flatten_cons, List.mem_append, not_or] at hxl
    rw [hfix.frame x (by omega) (fun hx' => ?_) hxl.2, h.frame x hxl.1 hx hxb]
    rcases hmem x hx' with hx' | hx'
    · exact hxl.1 hx'
    · omega
  · refine hup.cons (hlinked.congr (fun x hx => ?_) fun x hx => ?_) (fun x hx e he => ?_)
      (fun x hx => ?_) (hnodup.sublist hkept) (fun x hx hx' => ?_) fun x hx => ?_
    · rw [hlvl x (hsub hx)]
      exact ⟨rfl, rfl⟩
    · rw [hbelow x (hkept.subset hx)]
    · have hpage := hlvl x (hsub hx)
      rw [hpage] at he
      have hchild : e.2.pageNo ∈ below :=
        h.linked.mem_below (hsub hx) (mem_children.mpr ⟨e, he, rfl⟩)
      unfold firstKey
      rw [hbelow _ hchild]
      exact h.seps x (hsub hx) e he
    · have hsize := h.size x (hsub hx)
      have hnum : (s₃.page x).numKey = (s₂.page x).numKey := by rw [hlvl x (hsub hx)]
      unfold minSize maxSize at *
      rw [hnum, horder₃]
      exact ⟨by omega, by omega, fun _ => hsize.1⟩
    · have hxb := hkept.subset hx
      have hxr := hrange x hxb
      rcases List.mem_append.mp hx' with hx' | hx'
      · rcases hmem x (hsub hx') with hx' | hx'
        · exact hdisj x hxb (List.mem_append_left _ hx')
        · omega
      · rcases hnew x hx' with hx' | hx'
        · exact hdisj x hxb (List.mem_append_right _ hx')
        · omega
    · have hxr := hrange x (hkept.subset hx)
      omega
  · rw [List.flatten_cons] at hx ⊢
    rcases List.mem_append.mp hx with hx | hx
    · rcases hmem x (hsub hx) with hx | hx
      · exact Or.inl (List.mem_append_left _ hx)
      · exact Or.inr (by omega)
    · rcases hnew x hx with hx | hx
      · exact Or.inl (List.mem_append_right _ hx)
      · exact Or.inr (by omega)

/-- The last leaf may be another. -/
theorem ParentsKept.withLast {kept : List Int} (h : ParentsKept s s' below kept levels) (x : Int) :
    ParentsKept s { s' with lastLeaf := x } below kept levels where
  order := h.order
  nextPage := h.nextPage
  page := h.page
  frame := h.frame
  sublist := h.sublist
  upper := by
    obtain ⟨levels', hup, hnew⟩ := h.upper
    exact ⟨levels', hup.congr rfl rfl (Int.le_refl _) (fun _ _ => ⟨rfl, rfl⟩) fun _ _ => rfl, hnew⟩

section Insert

variable [Ord K]

/-- The call on the parent has not added the new child: nothing has changed. -/
theorem kept_of_not_adds (hup : Upper s (A ++ p :: B) levels) {k : K} {v : Rid}
    (hadds : ¬ (s.page P).Adds k v) :
    ParentsKept s (s.insertInto P k v) (A ++ p :: q :: B) (A ++ p :: B) levels := by
  have hpage : ∀ x, (s.insertInto P k v).page x = s.page x := by
    intro x
    rw [page_insertInto]
    split
    · next hx => rw [hx, IxNode.insert_of_not_adds hadds]
    · rfl
  refine ⟨rfl, Int.le_refl _, fun x _ _ => by rw [hpage], fun x _ _ _ => hpage x, ?_, levels, ?_,
    fun x hx => .inl hx⟩
  · exact List.Sublist.append_left ((List.sublist_cons_self q B).cons_cons p) A
  · refine hup.congr rfl rfl (Int.le_refl _) (fun x _ => ?_) fun x _ => hpage x
    unfold firstKey
    rw [hpage]
    exact ⟨rfl, rfl⟩

variable [TransOrd K]

/-- **`insert_into_parent`, whatever its calls of `IxNodeHandle::insert` do.**  If all nodes of the
level are kept, they have added their pairs. -/
theorem insertIntoParent_kept [Inhabited K] {fuel : Nat} (hfuel : levels.length < fuel)
    (hup : Upper s (A ++ p :: B) levels) (hq : (s.page q).parent = (s.page p).parent)
    (hnew : q ∉ A ++ p :: B ++ levels.flatten) (hqr : 2 ≤ q ∧ q < s.nextPage)
    (hinc : IncreasingKeys s (A ++ p :: q :: B)) (horder : 3 ≤ s.btreeOrder) :
    ∃ s' kept calls, insertIntoParent fuel s p q = .ok s' ∧
      s'.insertCalls = s.insertCalls ++ calls ∧ ParentsKept s s' (A ++ p :: q :: B) kept levels ∧
      (kept = A ++ p :: q :: B → ∀ c ∈ calls, c.1.Adds c.2.1 c.2.2) := by
  induction levels generalizing s A B p q fuel with
  | nil =>
    obtain ⟨fuel, rfl⟩ := Nat.exists_eq_add_one_of_ne_zero (Nat.ne_of_gt hfuel)
    obtain ⟨rfl, rfl, hparent⟩ := hup.alone
    have hpr := hup.range p List.mem_cons_self
    have hpq : p ≠ q := fun h => hnew (h ▸ List.mem_cons_self)
    obtain ⟨s', hrun, hcalls, hfixed⟩ : ∃ s', insertIntoParent (fuel + 1) s p q = .ok s' ∧
        s'.insertCalls = s.insertCalls ∧ ParentsFixed s s' [p, q] [] :=
      insertIntoParent_root hparent hpr hqr hpq horder
    exact ⟨s', _, [], hrun, by rw [hcalls, List.append_nil], hfixed.kept, fun _ => by simp⟩
  | cons lvl rest ih =>
    obtain ⟨fuel, rfl⟩ := Nat.exists_eq_add_one_of_ne_zero (Nat.ne_of_gt (Nat.lt_of_le_of_lt
      (Nat.zero_le _) hfuel))
    obtain ⟨LA, P, LB, rfl, hP, hadd⟩ := hup.addChild hq hnew hqr hinc
    have hPmem : P ∈ LA ++ P :: LB := List.mem_append_right _ List.mem_cons_self
    have hPr := hup.tail.range P (List.mem_append_left _ hPmem)
    have hPsize := hup.filled.1 P hPmem
    rw [insertIntoParent_succ fuel hP hq hPr.1]
    have hcalls₁ : (s.insertInto P (s.firstKey q) ⟨q, -1⟩).insertCalls =
        s.insertCalls ++ [(s.page P, s.firstKey q, ⟨q, -1⟩)] := rfl
    by_cases hadds : (s.page P).Adds (s.firstKey q) ⟨q, -1⟩
    case neg =>
      -- the new child is lost, and the parent is not full
      have hpage : (s.insertInto P (s.firstKey q) ⟨q, -1⟩).page P = s.page P := by
        rw [page_insertInto, if_pos rfl, IxNode.insert_of_not_adds hadds]
      rw [hpage, if_neg (Nat.ne_of_lt hPsize.2.1)]
      refine ⟨_, _, _, rfl, hcalls₁, kept_of_not_adds hup hadds, fun hall => ?_⟩
      have hlen := congrArg List.length hall
      simp at hlen
    have hgrown := hadd hadds
    generalize s.insertInto P (s.firstKey q) ⟨q, -1⟩ = s₁ at hgrown hcalls₁
    have hmax : s₁.maxSize = s.maxSize := by
      rw [hgrown.header]
      rfl
    by_cases hfull : (s₁.page P).numKey = s.maxSize
    case neg =>
      rw [if_neg hfull]
      refine ⟨s₁, _, _, rfl, hcalls₁, (hgrown.fixed (hmax ▸ hfull)).kept, fun _ c hc => ?_⟩
      rw [List.mem_singleton] at hc
      rw [hc]
      exact hadds
    -- the parent is split, and its new neighbour goes up
    obtain ⟨s₂, hsplit, hcalls₂, hlevel⟩ := hgrown.split (hmax ▸ hfull) horder
    have hhead₂ := hlevel.header
    have hnext₂ : s₂.nextPage = s.nextPage + 1 := by rw [hhead₂]
    have hmin : 1 ≤ s.minSize := by
      unfold minSize maxSize
      omega
    have hinc₂ : IncreasingKeys s₂ (LA ++ P :: s.nextPage :: LB) := by
      refine hlevel.increasing hmin hinc fun x hx => ⟨fun hx' => ?_, (hgrown.range x hx).2⟩
      exact hgrown.disjoint x hx (List.mem_append_left _ hx')
    have hnew₂ : s.nextPage ∉ LA ++ P :: LB ++ rest.flatten := fun h =>
      Int.lt_irrefl _ (hup.tail.range _ h).2
    obtain ⟨s₃, lvl', calls, hrun, hcalls₃, hkept, hall⟩ := ih (Nat.lt_of_succ_lt_succ hfuel)
      hlevel.upper hlevel.parent hnew₂ ⟨by omega, by omega⟩ hinc₂ (by rw [hhead₂]; exact horder)
    rw [if_pos hfull]
    dsimp only
    rw [hsplit]
    dsimp only
    rw [hrun]
    have hcalls : s₃.insertCalls =
        s.insertCalls ++ ((s.page P, s.firstKey q, (⟨q, -1⟩ : Rid)) :: calls) := by
      rw [hcalls₃, hcalls₂, hcalls₁, List.append_assoc]
      rfl
    have hbelow := hlevel.kept hkept hgrown.nodup hgrown.disjoint hgrown.range
      (fun x hx => (hup.tail.range x (List.mem_append_right _ hx)).2) horder
    have hadded : lvl'.flatMap s₂.children = A ++ p :: q :: B →
        ∀ c ∈ (s.page P, s.firstKey q, (⟨q, -1⟩ : Rid)) :: calls, c.1.Adds c.2.1 c.2.2 := by
      intro heq c hc
      rw [hlevel.linked.flat] at heq
      have hlvl := sublist_eq_of_flatMap_eq hkept.sublist (fun x hx hnil => ?_) heq
      · rcases List.mem_cons.mp hc with rfl | hc
        · exact hadds
        · exact hall hlvl c hc
      · have hsize := (hlevel.size x hx).1
        rw [← length_children, hnil, List.length_nil] at hsize
        omega
    by_cases hPl : P = s₃.lastLeaf
    · refine ⟨{ s₃ with lastLeaf := s.nextPage }, _, _, ?_, hcalls, hbelow.withLast _, hadded⟩
      show Except.ok (if P = s₃.lastLeaf then _ else _) = _
      rw [if_pos hPl]
    · refine ⟨s₃, _, _, ?_, hcalls, hbelow, hadded⟩
      show Except.ok (if P = s₃.lastLeaf then _ else _) = _
      rw [if_neg hPl]

/-! ### `insert_entry` -/

/-- The leaves that are kept, after the new leaf has gone into the levels above. -/
theorem LeafCut.kept [Inhabited K] (h : LeafCut s s₂ A p B levels) (hup : Upper s (A ++ p :: B) levels)
    (horder : 3 ≤ s.btreeOrder) (hfull : (s.page p).numKey = s.maxSize)
    (hsorted : Increasing (s.contents (A ++ p :: B)))
    (hfilled : ∀ x ∈ A ++ p :: B, x ≠ p → (s.page x).numKey < s.maxSize ∧
      s.minSize ≤ (s.page x).numKey) :
    ∃ s' kept levels' calls, insertIntoParent s₂.fuel s₂ p s.nextPage = .ok s' ∧
      s'.insertCalls = s₂.insertCalls ++ calls ∧ SearchTree s' kept levels' ∧
      (s'.contents kept).Sublist (s.contents (A ++ p :: B)) ∧
      (s'.contents kept = s.contents (A ++ p :: B) → ∀ c ∈ calls, c.1.Adds c.2.1 c.2.2) := by
  have hnext : s₂.nextPage = s.nextPage + 1 := by rw [h.header]
  have horder₂ : s₂.btreeOrder = s.btreeOrder := by rw [h.header]
  have hp := hup.range p (List.mem_append_left _ (List.mem_append_right _ List.mem_cons_self))
  have hnew : s.nextPage ∉ A ++ p :: B ++ levels.flatten := fun hx =>
    Int.lt_irrefl _ (hup.range _ hx).2
  have hmem : ∀ x ∈ A ++ p :: s.nextPage :: B, x ∈ A ++ p :: B ∨ x = s.nextPage := by
    intro x hx
    simp only [List.mem_append, List.mem_cons] at hx ⊢
    tauto
  have hsize := sizes_of_halves hfull horder h.left h.right h.frame hfilled
  have hmin : 1 ≤ s.minSize := by
    unfold minSize maxSize
    omega
  have hinc : IncreasingKeys s₂ (A ++ p :: s.nextPage :: B) := by
    refine increasingKeys_of_contents (by rw [h.contents]; exact hsorted) fun x hx => ?_
    have hx := (hsize x hx).2
    omega
  obtain ⟨s', kept, calls, hrun, hcalls, hkept, hall⟩ := insertIntoParent_kept
    (Nat.lt_of_succ_lt h.upper.length_lt_fuel) h.upper h.parent hnew ⟨by omega, by omega⟩ hinc
    (horder₂ ▸ horder)
  obtain ⟨levels', hup', -⟩ := hkept.upper
  have hsub := hkept.sublist.subset
  -- only the parents of the leaves have changed
  have hleaf : ∀ x ∈ A ++ p :: s.nextPage :: B,
      s'.page x = { s₂.page x with parent := (s'.page x).parent } := by
    intro x hx
    rcases hmem x hx with hx | rfl
    · have hxr := (hup.range x (List.mem_append_left _ hx)).2
      exact hkept.page x (by omega) (hup.disjoint hx)
    · exact hkept.page _ (by omega) fun hx => hnew (List.mem_append_right _ hx)
  have hentries : ∀ x ∈ A ++ p :: s.nextPage :: B, (s'.page x).entries = (s₂.page x).entries := by
    intro x hx
    rw [hleaf x hx]
    rfl
  have hcontents : s'.contents kept = s₂.contents kept :=
    contents_congr fun x hx => hentries x (hsub hx)
  have hsublist : (s'.contents kept).Sublist (s.contents (A ++ p :: B)) := by
    rw [hcontents, ← h.contents]
    exact hkept.sublist.flatMap _
  refine ⟨s', kept, levels', calls, hrun, hcalls, ⟨hup', fun x hx => ?_, fun x hx => ?_,
    hsorted.sublist hsublist, ?_⟩, hsublist, fun heq => hall ?_⟩
  · rw [hleaf x (hsub hx)]
    exact h.isLeaf x (hsub hx)
  · have hnum : (s'.page x).numKey = (s₂.page x).numKey := by rw [hleaf x (hsub hx)]
    have hmax : s'.btreeOrder = s.btreeOrder := hkept.order.trans horder₂
    have hsz := hsize x (hsub hx)
    unfold minSize maxSize at hsz ⊢
    rw [hnum, hmax]
    exact ⟨hsz.1, fun _ => hsz.2⟩
  · rw [hkept.order, horder₂]
    exact horder
  · -- a leaf that is lost has pairs
    rw [hcontents, ← h.contents] at heq
    refine sublist_eq_of_flatMap_eq hkept.sublist (fun x hx hnil => ?_) heq
    have hsz := (hsize x hx).2
    rw [← IxNode.length_entries, hnil, List.length_nil] at hsz
    omega

variable [DecidableEq K] [Inhabited K]

/-- The call for the leaf is over, and `maintain_parent` is done: the leaf is what `IxNodeHandle::insert` has
    made of it, and the other ones are as before. -/
structure LeafGiven (s s₂ : IxIndexHandle K) (A : List Int) (p : Int) (B : List Int) (levels : List (List Int))
    (k : K) (v : Rid) : Prop where
  upper : Upper s₂ (A ++ p :: B) levels
  page : s₂.page p = (s.page p).insert k v
  calls : s₂.insertCalls = s.insertCalls ++ [(s.page p, k, v)]
  order : s₂.btreeOrder = s.btreeOrder
  sorted : Increasing (s₂.contents (A ++ p :: B))
  isLeaf : ∀ x ∈ A ++ p :: B, (s₂.page x).isLeaf = true
  others : ∀ x ∈ A ++ p :: B, x ≠ p → (s₂.page x).numKey < s₂.maxSize ∧ s₂.minSize ≤ (s₂.page x).numKey
  length : (s₂.contents (A ++ p :: B)).length + (s.page p).numKey =
    (s.contents (A ++ p :: B)).length + ((s.page p).insert k v).numKey
  size : ((s.page p).insert k v).numKey = (s.page p).numKey ∨
    ((s.page p).insert k v).numKey = (s.page p).numKey + 1
  run : s.insertEntry k v = if (s₂.page p).numKey = s₂.maxSize then do
      let s' ← insertIntoParent (s₂.split p).2.fuel (s₂.split p).2 p (s₂.split p).1
      return (p, if p = s'.lastLeaf then { s' with lastLeaf := (s₂.split p).1 } else s')
    else .ok (p, s₂)

/-- **The first call** of an insertion is for the leaf that the search leads to. -/
theorem SearchTree.leafGiven {leaves : List Int} (h : SearchTree s leaves levels) (k : K) (v : Rid) :
    ∃ A p B s₂, leaves = A ++ p :: B ∧ LeafGiven s s₂ A p B levels k v := by
  obtain ⟨A, p, B, rfl, hfind, hA, hB⟩ := h.target k
  have hp : p ∈ A ++ p :: B := List.mem_append_right _ List.mem_cons_self
  obtain ⟨hnode, hnum, hsorted, -⟩ := h.insert_leaf (v := v) hA hB
  have hp₁ : (s.insertInto p k v).page p = (s.page p).insert k v := by
    rw [page_insertInto, if_pos rfl]
  have hframe₁ : ∀ x ≠ p, (s.insertInto p k v).page x = s.page x := fun x hx => by
    rw [page_insertInto, if_neg hx]
  have hparent : ((s.insertInto p k v).page p).parent = (s.page p).parent := by rw [hp₁, hnode]
  obtain ⟨s₂, hrun₂, hhead, hleaf, hup⟩ := h.upper.leafChanged hp rfl hparent hframe₁
  have hpage : s₂.page p = (s.page p).insert k v := (hleaf p hp).trans hp₁
  have hframe : ∀ x ∈ A ++ p :: B, x ≠ p → s₂.page x = s.page x := fun x hx hxp =>
    (hleaf x hx).trans (hframe₁ x hxp)
  have hcontents : s₂.contents (A ++ p :: B) =
      s.contents A ++ ((s.page p).insert k v).entries ++ s.contents B := by
    rw [← hpage]
    exact contents_frame h.upper.below_nodup fun x hx hxp => by rw [hframe x hx hxp]
  have horder₂ : s₂.btreeOrder = s.btreeOrder := by
    rw [hhead]
    rfl
  have hmax : s₂.maxSize = s.maxSize := by
    unfold maxSize
    rw [horder₂]
  refine ⟨A, p, B, s₂, rfl, hup, hpage, ?_, horder₂, ?_, fun x hx => ?_, fun x hx hxp => ?_, ?_, hnum, ?_⟩
  · rw [hhead]
    rfl
  · rw [hcontents]
    exact hsorted
  · by_cases hxp : x = p
    · rw [hxp, hpage, hnode]
      exact h.isLeaf p hp
    · rw [hframe x hx hxp]
      exact h.isLeaf x hx
  · -- there is another leaf, so that there are levels above
    have hlevels : levels ≠ [] := by
      rintro rfl
      obtain ⟨r, hr⟩ := h.upper.leaves_eq_singleton
      rw [hr, List.mem_singleton] at hx hp
      exact hxp (hx.trans hp.symm)
    have hsz := h.filled x hx
    rw [hframe x hx hxp]
    unfold minSize
    rw [hmax]
    exact ⟨hsz.1, hsz.2 hlevels⟩
  · rw [hcontents, contents_append, contents_cons]
    simp only [List.length_append, IxNode.length_entries]
    omega
  · unfold insertEntry
    rw [hfind]
    show (maintainParent s.fuel (s.insertInto p k v) p).bind _ = _
    rw [hrun₂]
    rfl

omit [TransOrd K] in
/-- A leaf that has got the pair has added it. -/
theorem LeafGiven.adds {p : Int} {k : K} {v : Rid} (h : LeafGiven s s₂ A p B levels k v)
    (hlen : (s.contents (A ++ p :: B)).length + 1 ≤ (s₂.contents (A ++ p :: B)).length) :
    (s.page p).Adds k v := by
  have hlength := h.length
  have hgrown : ((s.page p).insert k v).numKey = (s.page p).numKey + 1 := by
    rcases h.size with hsize | hsize
    · omega
    · exact hsize
  exact fun _ => hgrown

omit [TransOrd K] in
/-- A leaf that is not full ends the insertion. -/
theorem LeafGiven.search {p : Int} {k : K} {v : Rid} (h : LeafGiven s s₂ A p B levels k v)
    (hs : SearchTree s (A ++ p :: B) levels) (hroom : (s₂.page p).numKey ≠ s₂.maxSize) :
    SearchTree s₂ (A ++ p :: B) levels := by
  refine ⟨h.upper, h.isLeaf, fun x hx => ?_, h.sorted, h.order ▸ hs.order⟩
  by_cases hxp : x = p
  · subst hxp
    have hsz := hs.filled x hx
    have hsize := h.size
    have hmax : s₂.maxSize = s.maxSize := by
      unfold maxSize
      rw [h.order]
    rw [h.page, hmax] at hroom
    unfold minSize at hsz ⊢
    rw [h.page, hmax]
    refine ⟨by omega, fun hl => ?_⟩
    have hmin := hsz.2 hl
    omega
  · exact ⟨(h.others x hx hxp).1, fun _ => (h.others x hx hxp).2⟩

/-- **`insert_entry`, whatever its calls of `IxNodeHandle::insert` do**: what is left can be searched, has
at most one pair more, and if it has, all calls have added their pairs. -/
theorem SearchTree.insertEntry_kept {leaves : List Int} (h : SearchTree s leaves levels) (k : K)
    (v : Rid) : ∃ p s' calls leaves' levels', s.insertEntry k v = .ok (p, s') ∧
      s'.insertCalls = s.insertCalls ++ calls ∧ SearchTree s' leaves' levels' ∧
      (s'.contents leaves').length ≤ (s.contents leaves).length + 1 ∧
      ((s'.contents leaves').length = (s.contents leaves).length + 1 →
        ∀ c ∈ calls, c.1.Adds c.2.1 c.2.2) := by
  obtain ⟨A, p, B, s₂, rfl, hg⟩ := h.leafGiven k v
  have hp : p ∈ A ++ p :: B := List.mem_append_right _ List.mem_cons_self
  have hlen := hg.length
  have hsize := hg.size
  rw [hg.run]
  by_cases hfull : (s₂.page p).numKey = s₂.maxSize
  case neg =>
    rw [if_neg hfull]
    refine ⟨p, s₂, _, _, levels, rfl, hg.calls, hg.search h hfull, by omega, fun heq c hc => ?_⟩
    rw [List.mem_singleton] at hc
    rw [hc]
    exact hg.adds heq.ge
  rw [if_pos hfull]
  obtain ⟨s₃, hsplit, hcut⟩ := cut_leaf hg.upper hg.isLeaf
  obtain ⟨s₄, kept, levels', calls, hrun₄, hcalls₄, htree, hsub, hall⟩ :=
    hcut.kept hg.upper (hg.order ▸ h.order) hfull hg.sorted hg.others
  have hcalls : s₄.insertCalls = s.insertCalls ++ ((s.page p, k, v) :: calls) := by
    have hcalls₃ : s₃.insertCalls = s₂.insertCalls := by rw [hcut.header]
    rw [hcalls₄, hcalls₃, hg.calls, List.append_assoc]
    rfl
  have hle := hsub.length_le
  have hadded : (s₄.contents kept).length = (s.contents (A ++ p :: B)).length + 1 →
      ∀ c ∈ (s.page p, k, v) :: calls, c.1.Adds c.2.1 c.2.2 := by
    intro heq c hc
    rcases List.mem_cons.mp hc with rfl | hc
    · exact hg.adds (by omega)
    · exact hall (hsub.eq_of_length (by omega)) c hc
  rw [hsplit]
  dsimp only
  rw [hrun₄]
  by_cases hlast : p = s₄.lastLeaf
  · refine ⟨p, { s₄ with lastLeaf := s₂.nextPage }, _, kept, levels', ?_, hcalls, ⟨?_, htree.isLeaf,
      htree.filled, htree.sorted, htree.order⟩, by
        show (s₄.contents kept).length ≤ _
        omega, hadded⟩
    · show Except.ok (p, if p = s₄.lastLeaf then _ else _) = _
      rw [if_pos hlast]
    · exact htree.upper.congr rfl rfl (Int.le_refl _) (fun _ _ => ⟨rfl, rfl⟩) fun _ _ => rfl
  · refine ⟨p, s₄, _, kept, levels', ?_, hcalls, htree, by omega, hadded⟩
    show Except.ok (p, if p = s₄.lastLeaf then _ else _) = _
    rw [if_neg hlast]

/-! ### Runs -/

/-- **The invariant along any run**: a tree that can be searched, with a pair for each insertion just if
all calls have added theirs. -/
theorem searchTree_insertEntries {btreeOrder : Nat} (horder : 3 ≤ btreeOrder)
    (ops : List (K × Rid)) : ∃ s leaves levels, (create btreeOrder).insertEntries ops = .ok s ∧
      SearchTree s leaves levels ∧ (s.contents leaves).length ≤ ops.length ∧
      ((s.contents leaves).length = ops.length → CallsAdd s) := by
  induction ops using List.reverseRecOn with
  | nil =>
    refine ⟨_, [2], [], rfl, (tree_create horder).search, Nat.le_refl _, fun _ c hc => ?_⟩
    cases hc
  | append_singleton ops op ih =>
    obtain ⟨s, leaves, levels, hrun, htree, hle, hcalls⟩ := ih
    obtain ⟨p, s', calls, leaves', levels', hop, hnew, htree', hle', hadds⟩ :=
      htree.insertEntry_kept op.1 op.2
    refine ⟨s', leaves', levels', insertEntries_snoc.mpr ⟨s, p, hrun, hop⟩, htree', ?_, fun heq => ?_⟩
    · rw [List.length_append, List.length_singleton]
      omega
    · rw [List.length_append, List.length_singleton] at heq
      intro c hc
      rw [hnew] at hc
      rcases List.mem_append.mp hc with hc | hc
      · exact hcalls (by omega) c hc
      · exact hadds (by omega) c hc

omit [Inhabited K] [DecidableEq K] in
/-- Among different keys each one is the first. -/
theorem lookup_of_distinct {ops : List (K × Rid)}
    (hdistinct : ops.Pairwise fun a b => compare a.1 b.1 ≠ .eq) {op : K × Rid} (hop : op ∈ ops) :
    lookup op.1 ops = some op.2 := by
  induction ops with
  | nil => cases hop
  | cons a ops ih =>
    obtain ⟨ha, hops⟩ := List.pairwise_cons.mp hdistinct
    rw [lookup_cons]
    rcases List.mem_cons.mp hop with rfl | hop
    · rw [if_pos ReflCmp.compare_self]
    · have hne : compare op.1 a.1 ≠ .eq := fun heq => ha op hop (OrientedCmp.eq_comm.mp heq)
      rw [if_neg hne, ih hops hop]

omit [Inhabited K] [DecidableEq K] in
/-- Keys that are different are found in different places. -/
theorem length_le_of_found {ops entries : List (K × Rid)}
    (hdistinct : ops.Pairwise fun a b => compare a.1 b.1 ≠ .eq)
    (hfound : ∀ op ∈ ops, ∃ e ∈ entries, compare op.1 e.1 = .eq) : ops.length ≤ entries.length := by
  induction ops generalizing entries with
  | nil => exact Nat.zero_le _
  | cons a ops ih =>
    obtain ⟨ha, hops⟩ := List.pairwise_cons.mp hdistinct
    obtain ⟨e, he, hae⟩ := hfound a List.mem_cons_self
    obtain ⟨X, Y, rfl⟩ := List.append_of_mem he
    -- the others are found elsewhere
    have hrest : ∀ op ∈ ops, ∃ e' ∈ X ++ Y, compare op.1 e'.1 = .eq := by
      intro op hop
      obtain ⟨e', he', heq⟩ := hfound op (List.mem_cons_of_mem _ hop)
      refine ⟨e', ?_, heq⟩
      have hne : e' ≠ e := by
        rintro rfl
        exact ha op hop (TransCmp.eq_trans hae (OrientedCmp.eq_comm.mp heq))
      simp only [List.mem_append, List.mem_cons] at he' ⊢
      tauto
    have hle := ih hops hrest
    simp only [List.length_append, List.length_cons] at hle ⊢
    omega

/-- **A run has all its pairs** just if each call has added its own. -/
theorem insertEntries_all_iff {btreeOrder : Nat} (horder : 3 ≤ btreeOrder) {ops : List (K × Rid)}
    (hdistinct : ops.Pairwise fun a b => compare a.1 b.1 ≠ .eq) {s : IxIndexHandle K}
    (hrun : (create btreeOrder).insertEntries ops = .ok s) :
    (∀ op ∈ ops, s.getValue op.1 = .ok (some op.2)) ↔ CallsAdd s := by
  constructor
  · intro hall
    obtain ⟨s', leaves, levels, hrun', htree, hle, hcalls⟩ := searchTree_insertEntries horder ops
    obtain rfl : s = s' := Except.ok.inj (hrun.symm.trans hrun')
    refine hcalls (Nat.le_antisymm hle (length_le_of_found hdistinct fun op hop => ?_))
    have hlook := hall op hop
    rw [htree.getValue_eq, Except.ok.injEq] at hlook
    unfold lookup at hlook
    obtain ⟨e, hfind, -⟩ := Option.map_eq_some_iff.mp hlook
    exact ⟨e, List.mem_of_find?_eq_some hfind, by simpa using List.find?_some hfind⟩
  · intro hcalls op hop
    obtain ⟨leaves, levels, htree, hlook⟩ := tree_insertEntries horder hrun hcalls
    rw [htree.getValue_eq, hlook, lookup_of_distinct hdistinct hop]

end Insert

end IxIndexHandle

end Rmdb
