import Rmdb.Index.MergeLeaves

namespace Rmdb

open Lib Std

namespace IxIndexHandle

/-!
# Deleting from the tree (`delete_entry`)

A leaf loses a pair.  If it has too few pairs now, it gets one from its sibling or merges with it; after
a merge the parent has lost a child, and the same is done there.

* `LeafErased` — a tree in which a leaf has lost a pair;
* `LeafErased.maintained`, `LeafErased.redistributed`, `LeafErased.merged` — what is done about it;
* `SafeLeaf`, `SafeDelete` — the deletions that go well;
* `deleteEntry_spec` — these keep the invariant, and the contents lose the pair.

Four things go wrong otherwise: the sibling of the third and later children is the first child; the
position of a leaf whose first key is gone is that of its neighbour; the list of leaves is followed
backwards although insertions do not keep it so; and of two inner nodes that merge some children keep
their old parent.
-/

variable {K : Type} {s s' s₁ : IxIndexHandle K} {left right p : Int} {leaves lvl A B : List Int}
  {levels rest : List (List Int)}

section Ord

variable [Ord K]

/-! ### A leaf that has lost a pair -/

/-- The leaf `p` of a tree has lost its pair number `pos`. -/
structure LeafErased (s s₁ : IxIndexHandle K) (leaves : List Int) (levels : List (List Int)) (p : Int)
    (pos : Nat) : Prop where
  tree : Tree s leaves levels
  mem : p ∈ leaves
  pos_lt : pos < (s.page p).numKey
  eq : s₁ = s.set p ((s.page p).shiftDown pos)

namespace LeafErased

variable {pos : Nat}

/-- The header stays. -/
theorem header (h : LeafErased s s₁ leaves levels p pos) : s₁ = { s with page := s₁.page } := by
  rw [h.eq]
  rfl

/-- The pair is taken out of its leaf. -/
theorem page (h : LeafErased s s₁ leaves levels p pos) :
    s₁.page p = (s.page p).shiftDown pos := by
  rw [h.eq, page_set, if_pos rfl]

/-- The other nodes stay. -/
theorem frame (h : LeafErased s s₁ leaves levels p pos) {x : Int} (hx : x ≠ p) :
    s₁.page x = s.page x := by
  rw [h.eq, page_set, if_neg hx]

/-- One pair less. -/
theorem numKey (h : LeafErased s s₁ leaves levels p pos) :
    (s₁.page p).numKey = (s.page p).numKey - 1 := by
  rw [h.page]
  rfl

/-- The smallest size stays. -/
theorem minSize_eq (h : LeafErased s s₁ leaves levels p pos) : s₁.minSize = s.minSize := by
  rw [h.eq]
  rfl

/-- The largest size stays. -/
theorem maxSize_eq (h : LeafErased s s₁ leaves levels p pos) : s₁.maxSize = s.maxSize := by
  rw [h.eq]
  rfl

/-- The levels above see at most another first key. -/
theorem alike (h : LeafErased s s₁ leaves levels p pos) : AlikeBut s s₁ p leaves levels := by
  refine ⟨by rw [h.header], by rw [h.header], by rw [h.header], fun x _ => ?_, fun x _ hxp => ?_,
    fun x hx => ?_⟩
  · by_cases hxp : x = p
    · rw [hxp, h.page]
      rfl
    · rw [h.frame hxp]
  · unfold firstKey
    rw [h.frame hxp]
  · rw [h.frame fun hxp => h.tree.upper.disjoint h.mem (hxp ▸ hx)]
    rfl

/-- The first key stays if another is erased. -/
theorem firstKey_eq (h : LeafErased s s₁ leaves levels p pos) (hpos : pos ≠ 0) :
    s₁.firstKey p = s.firstKey p := by
  unfold firstKey
  rw [h.page]
  exact IxNode.keys_zero_shiftDown _ hpos

/-- **The contents lose the pair.** -/
theorem contents (h : LeafErased s s₁ leaves levels p pos) :
    ∃ X Y, s.contents leaves = X ++ ((s.page p).keys pos, (s.page p).rids pos) :: Y ∧
      s₁.contents leaves = X ++ Y := by
  obtain ⟨A, B, rfl⟩ := List.append_of_mem h.mem
  have hnew : s₁.contents (A ++ p :: B) = s.contents A ++ (s₁.page p).entries ++ s.contents B :=
    contents_frame h.tree.upper.below_nodup fun x _ hxp => by rw [h.frame hxp]
  refine ⟨s.contents A ++ (s.page p).entries.take pos,
    (s.page p).entries.drop (pos + 1) ++ s.contents B, ?_, ?_⟩
  · rw [contents_append, contents_cons]
    conv_lhs => rw [(s.page p).entries_split h.pos_lt]
    simp only [List.append_assoc, List.cons_append]
  · rw [hnew, h.page, IxNode.entries_shiftDown _ h.pos_lt]
    simp only [List.append_assoc]

/-- The leaves are still a row. -/
theorem row (h : LeafErased s s₁ leaves levels p pos) : LeafRow s₁ leaves := by
  refine ⟨fun x hx => ?_, ?_, ?_, ?_⟩
  · by_cases hxp : x = p
    · rw [hxp, h.page]
      exact h.tree.isLeaf p h.mem
    · rw [h.frame hxp]
      exact h.tree.isLeaf x hx
  · obtain ⟨X, Y, hold, hnew⟩ := h.contents
    have hsorted := h.tree.sorted
    rw [hold] at hsorted
    rw [hnew]
    exact hsorted.sublist (List.Sublist.append_left (List.sublist_cons_self _ _) X)
  · refine h.tree.chain.congr (fun x _ => ?_) (by rw [h.header]) (by rw [h.header])
    by_cases hxp : x = p
    · rw [hxp, h.page]
      rfl
    · rw [h.frame hxp]
  · rw [h.header]
    exact h.tree.order

/-- The keys still stand in order. -/
theorem increasingKeys (h : LeafErased s s₁ leaves levels p pos) (hlevels : levels ≠ []) :
    IncreasingKeys s₁ leaves := by
  refine increasingKeys_of_contents h.row.sorted fun x hx => ?_
  have hmin := (h.tree.filled x hx).2 hlevels
  have horder := h.tree.order
  unfold minSize maxSize at hmin
  by_cases hxp : x = p
  · rw [hxp, h.numKey]
    rw [hxp] at hmin
    omega
  · rw [h.frame hxp]
    omega

/-- The levels above stay if the first key does. -/
theorem upper (h : LeafErased s s₁ leaves levels p pos) (hpos : pos ≠ 0) : Upper s₁ leaves levels :=
  h.alike.upper h.tree.upper (h.firstKey_eq hpos)

/-- The leaf is the root. -/
theorem tree_root (h : LeafErased s s₁ leaves [] p pos) : Tree s₁ leaves [] := by
  refine h.row.tree ⟨h.alike.shape h.tree.upper.shape, fun _ hl => absurd hl List.not_mem_nil, trivial,
    h.tree.upper.nodup, fun x hx => ?_⟩ fun x hx => ⟨?_, fun hl => absurd rfl hl⟩
  · rw [h.alike.nextPage]
    exact h.tree.upper.range x hx
  · have hmax := (h.tree.filled x hx).1
    rw [h.maxSize_eq]
    by_cases hxp : x = p
    · rw [hxp, h.numKey]
      rw [hxp] at hmax
      omega
    · rw [h.frame hxp]
      exact hmax

/-- **The leaf has enough pairs**: its separator is corrected. -/
theorem maintained [DecidableEq K] (h : LeafErased s s₁ leaves levels p pos)
    (hmin : s.minSize < (s.page p).numKey) : ∃ s', s₁.maintainParent s₁.fuel p = .ok s' ∧
      Tree s' leaves levels ∧ s'.contents leaves = s₁.contents leaves := by
  obtain ⟨s', hrun, hmoved, hup⟩ := h.alike.repair h.tree.upper h.mem
  have hpage : ∀ x ∈ leaves, s'.page x = s₁.page x := fun x hx =>
    hmoved.frame x (h.tree.upper.disjoint hx)
  obtain ⟨hrow, hcontents⟩ := h.row.congr (t := s') (by rw [hmoved.header]) (by rw [hmoved.header])
    (by rw [hmoved.header]) fun x hx => by rw [hpage x hx]
  have horder : s'.btreeOrder = s.btreeOrder := by rw [hmoved.header, h.header]
  refine ⟨s', hrun, hrow.tree hup fun x hx => ?_, hcontents⟩
  have hsz := h.tree.filled x hx
  unfold minSize maxSize at hsz hmin ⊢
  rw [horder, hpage x hx]
  by_cases hxp : x = p
  · rw [hxp, h.numKey]
    rw [hxp] at hsz
    exact ⟨by omega, fun _ => by omega⟩
  · rw [h.frame hxp]
    exact hsz

/-- What `coalesce_or_redistribute` passes on for one of the first two leaves of a parent. -/
theorem args [TransOrd K] (h : LeafErased s s₁ leaves (lvl :: rest) p pos) {i : Nat} (hi : i ≤ 1)
    (hval : (s.page (s.page p).parent).valueAt i = p) : ∃ pos',
      s₁.siblingArgs p = .ok ((s.page (s.page p).parent).valueAt (1 - i), pos') ∧
        (pos ≠ 0 → pos' = i) ∧ (i = 1 → pos' ≠ 0) := by
  obtain ⟨j, hj, htwo, hfind, hval', hkey, hinc, hnd⟩ :=
    h.tree.upper.exists_place h.tree.increasingKeys h.mem
  obtain rfl : i = j := valueAt_inj hnd (by omega) hj (hval.trans hval'.symm)
  have hparent : (s₁.page p).parent = (s.page p).parent := h.alike.parent p h.mem
  have hfather : s₁.page (s.page p).parent = s.page (s.page p).parent := by
    refine h.frame fun hc => h.tree.upper.disjoint h.mem (List.mem_append_left _ ?_)
    have := (h.tree.upper.linked.exists_parent h.mem).1
    rwa [hc] at this
  generalize hP : (s.page p).parent = P at *
  have hget : ∀ g < (s.page P).numKey,
      (s.page P).entries[g]? = some ((s.page P).keys g, (s.page P).rids g) := fun g hg => by
    rw [IxNode.getElem?_entries, if_pos hg]
  have hbrother : (if i = 0 then (s.page P).valueAt 1 else (s.page P).valueAt 0) =
      (s.page P).valueAt (1 - i) := by
    by_cases h0 : i = 0
    · rw [if_pos h0, h0]
    · rw [if_neg h0, show 1 - i = 0 by omega]
  refine ⟨(s.page P).lowerBound (s₁.firstKey p), ?_, fun hpos => ?_, fun hone => ?_⟩
  · unfold siblingArgs
    dsimp only
    rw [hparent, hfather, hfind]
    show Except.ok (_, (s.page P).lowerBound (s₁.firstKey p)) = _
    rw [hbrother]
  · rw [IxNode.lowerBound_eq, h.firstKey_eq hpos, ← hkey]
    exact hinc.lowerIdx_eq (hget i hj)
  · -- the first child's key is below all keys of the second
    intro hzero
    rw [IxNode.lowerBound_eq] at hzero
    have hle := (hinc.lowerIdx_le_iff (k := s₁.firstKey p) (hget 0 (by omega))).mp
      (Nat.le_of_eq hzero)
    have hlt := lt_of_increasing hinc (show 0 < i by omega) hj
    rw [hkey] at hlt
    have hge : (compare (s.firstKey p) (s₁.firstKey p)).isLE := by
      have hne : (s₁.page p).numKey ≠ 0 := by
        have hmin := (h.tree.filled p h.mem).2 (List.cons_ne_nil _ _)
        have horder := h.tree.order
        unfold minSize maxSize at hmin
        rw [h.numKey]
        omega
      obtain ⟨e, l, hl, he⟩ := entries_eq_cons hne
      rw [← he]
      refine firstKey_le (h.tree.leaf_sorted h.mem) ?_
      have hmem : e ∈ (s₁.page p).entries := by
        rw [hl]
        exact List.mem_cons_self
      rw [h.page, IxNode.entries_shiftDown _ h.pos_lt] at hmem
      exact (List.mem_append.mp hmem).elim List.mem_of_mem_take List.mem_of_mem_drop
    have hlt' := TransCmp.lt_of_lt_of_isLE hlt hge
    rw [OrientedCmp.gt_of_lt hlt'] at hle
    cases hle

/-- The leaf and its sibling share their pairs in another way. -/
theorem balanced (h : LeafErased s s₁ (A ++ left :: right :: B) (lvl :: rest) p pos) {l r : IxNode K}
    {e : K × Rid} {c q : Int} (hb : Balanced s₁ s' left right l r c q (lvl :: rest))
    (hsh : Shared s₁ left right l r e q)
    (hl : l = { s₁.page left with keys := l.keys, rids := l.rids, numKey := l.numKey })
    (hr : r = { s₁.page right with keys := r.keys, rids := r.rids, numKey := r.numKey })
    (hup : Upper s' (A ++ left :: right :: B) (lvl :: rest)) (hp : p = left ∨ p = right)
    (hsl : s.minSize ≤ l.numKey ∧ l.numKey < s.maxSize)
    (hsr : s.minSize ≤ r.numKey ∧ r.numKey < s.maxSize) :
    Tree s' (A ++ left :: right :: B) (lvl :: rest) ∧
      s'.contents (A ++ left :: right :: B) = s₁.contents (A ++ left :: right :: B) := by
  have hnd := h.tree.upper.below_nodup
  have hlev : ∀ x ∈ A ++ left :: right :: B, x ∉ (lvl :: rest).flatten := fun x hx =>
    h.tree.upper.disjoint hx
  obtain ⟨hrow, hcontents⟩ := hb.leafRow hsh hl hr h.row hnd hlev
  obtain ⟨hpl, hpr, hsame⟩ := hb.pages hnd hlev fun hc => by
    have hleaf := h.row.isLeaf left (List.mem_append_right _ List.mem_cons_self)
    rw [hl] at hc
    rw [hleaf] at hc
    cases hc
  refine ⟨hrow.tree hup fun x hx => ?_, hcontents⟩
  have horder : s'.btreeOrder = s.btreeOrder := by rw [hb.header, h.header]
  have hsz : s.minSize ≤ (s'.page x).numKey ∧ (s'.page x).numKey < s.maxSize := by
    rcases mem_or_of_mem hx with hx' | rfl | rfl
    · obtain ⟨-, hxl, hxr⟩ := others_ne hnd hx'
      rw [hsame x hx', h.frame fun hxp => hp.elim (fun hpl => hxl (hxp.trans hpl))
        fun hpr => hxr (hxp.trans hpr)]
      exact ⟨(h.tree.filled x hx).2 (List.cons_ne_nil _ _), (h.tree.filled x hx).1⟩
    · rw [hpl]
      exact hsl
    · rw [hpr]
      exact hsr
  unfold minSize maxSize at hsz ⊢
  rw [horder]
  exact ⟨hsz.2, fun _ => hsz.1⟩

/-- **The leaf gets a pair from its sibling.** -/
theorem redistributed [DecidableEq K] (h : LeafErased s s₁ leaves (lvl :: rest) p pos) {i pos' : Nat}
    (hi : i ≤ 1) (hval : (s.page (s.page p).parent).valueAt i = p)
    (hpos : pos ≠ 0 → pos' = i) (hone : i = 1 → pos' ≠ 0) (hcond : i = 1 ∨ pos ≠ 0)
    (hsize : (s.page p).numKey ≤ s.minSize)
    (hsum : 2 * s.minSize <
      (s.page p).numKey + (s.page ((s.page (s.page p).parent).valueAt (1 - i))).numKey) :
    ∃ s', s₁.redistribute ((s.page (s.page p).parent).valueAt (1 - i)) p pos' = .ok s' ∧
      Tree s' leaves (lvl :: rest) ∧ s'.contents leaves = s₁.contents leaves := by
  have hup := h.tree.upper
  have hP := (hup.linked.exists_parent h.mem).1
  generalize (s.page p).parent = P at hval hsum hP ⊢
  obtain ⟨A, left, right, B, hleft, hright, hne, rfl⟩ := hup.first_two hP
  have hlmem : left ∈ A ++ left :: right :: B := List.mem_append_right _ List.mem_cons_self
  have hrmem : right ∈ A ++ left :: right :: B :=
    List.mem_append_right _ (List.mem_cons_of_mem _ List.mem_cons_self)
  have hleaf := h.row.isLeaf
  have hmin : ∀ x ∈ A ++ left :: right :: B, s.minSize ≤ (s.page x).numKey ∧
      (s.page x).numKey < s.maxSize := fun x hx =>
    ⟨(h.tree.filled x hx).2 (List.cons_ne_nil _ _), (h.tree.filled x hx).1⟩
  have horder := h.tree.order
  have hms : s.minSize = (s.btreeOrder + 1) / 2 := rfl
  have hmx : s.maxSize = s.btreeOrder + 1 := rfl
  have hnum := h.numKey
  obtain rfl | rfl := Nat.le_one_iff_eq_zero_or_eq_one.mp hi
  · -- the leaf is the left one, and its first key has stayed
    obtain rfl : left = p := hleft.symm.trans hval
    rw [show (s.page P).valueAt (1 - 0) = right from hright] at hsum ⊢
    have hpos0 : pos ≠ 0 := hcond.resolve_left Nat.zero_ne_one
    rw [hpos hpos0]
    have hnb : Neighbours s s₁ left right (A ++ left :: right :: B) (lvl :: rest) :=
      ⟨hup, h.alike.of_firstKey (h.firstKey_eq hpos0) right, hlmem, hrmem, hne⟩
    have hr1 := hmin right hrmem
    have hl1 := hmin left hlmem
    have hnumr : (s₁.page right).numKey = (s.page right).numKey := by rw [h.frame hne.symm]
    obtain ⟨s', l, r, hrun, hpassed, hl, hr, hb, hup'⟩ := redistribute_first hnb (by omega) (by omega)
      fun hc => by
        rw [hleaf left hlmem] at hc
        cases hc
    obtain ⟨hnl, hnr⟩ := hpassed.numKey
    exact ⟨s', hrun, h.balanced hb (Or.inl ⟨rfl, hpassed⟩) hl hr hup' (Or.inl rfl) (by omega)
      (by omega)⟩
  · -- the leaf is the right one
    obtain rfl : right = p := hright.symm.trans hval
    rw [show (s.page P).valueAt (1 - 1) = left from hleft] at hsum ⊢
    have hnb : Neighbours s s₁ left right (A ++ left :: right :: B) (lvl :: rest) :=
      ⟨hup, h.alike, hlmem, hrmem, hne⟩
    have hr1 := hmin right hrmem
    have hl1 := hmin left hlmem
    have hnuml : (s₁.page left).numKey = (s.page left).numKey := by rw [h.frame hne]
    obtain ⟨s', l, r, hrun, hpassed, hl, hr, hb, hup'⟩ := redistribute_second hnb (hone rfl) (by omega)
      ((hleaf right hrmem).trans (hleaf left hlmem).symm) fun hc => by
        rw [hleaf left hlmem] at hc
        cases hc
    obtain ⟨hnl, hnr⟩ := hpassed.numKey
    exact ⟨s', hrun, h.balanced hb (Or.inr ⟨rfl, hpassed⟩) hl hr hup' (Or.inr rfl) (by omega)
      (by omega)⟩

/-- **The leaf and its sibling merge.** -/
theorem merged [TransOrd K] (h : LeafErased s s₁ leaves (lvl :: rest) p pos) {i : Nat} (hi : i ≤ 1)
    (hval : (s.page (s.page p).parent).valueAt i = p) (hpos : pos ≠ 0)
    (hprev : (s.page ((s.page (s.page p).parent).valueAt 1)).prevLeaf =
      (s.page (s.page p).parent).valueAt 0)
    (hsize : (s.page p).numKey ≤ s.minSize)
    (hsum : (s.page p).numKey + (s.page ((s.page (s.page p).parent).valueAt (1 - i))).numKey ≤
      2 * s.minSize) :
    ∃ s₂ leaves', s₁.coalesce ((s.page (s.page p).parent).valueAt (1 - i)) p (s.page p).parent i =
        .ok s₂ ∧ Thinned s₂ leaves' lvl rest (s.page p).parent ∧
      s₂.contents leaves' = s₁.contents leaves ∧
      ChildLost s₁ s₂ leaves lvl rest (s.page p).parent := by
  have hup := h.upper hpos
  have hP := (h.tree.upper.linked.exists_parent h.mem).1
  have hPp : (s.page p).parent ≠ p := fun hc =>
    h.tree.upper.disjoint h.mem (List.mem_append_left _ (hc ▸ hP))
  have hfather : s₁.page (s.page p).parent = s.page (s.page p).parent := h.frame hPp
  generalize (s.page p).parent = P at hval hprev hsum hP hfather ⊢
  obtain ⟨LA, LB, cs, rfl, hkids, hleaves⟩ := hup.linked.first_two hP (hup.filled.1 P hP).1
  have htwo : 1 < (s₁.page P).numKey := (hup.filled.1 P hP).1
  have hplace := hup.lowerBound_valueAt (h.increasingKeys (List.cons_ne_nil _ _)) hP htwo
  rw [hfather] at hkids hleaves hplace
  generalize hleft : (s.page P).valueAt 0 = left at hkids hleaves hprev
  generalize hright : (s.page P).valueAt 1 = right at hkids hleaves hplace hprev
  have hlmem : left ∈ leaves := hleaves ▸ List.mem_append_right _ List.mem_cons_self
  have hrmem : right ∈ leaves :=
    hleaves ▸ List.mem_append_right _ (List.mem_cons_of_mem _ List.mem_cons_self)
  have hne : left ≠ right := by
    have hnd := hup.below_nodup
    rw [hleaves, List.nodup_append, List.nodup_cons] at hnd
    exact fun hlr => hnd.2.1.1 (hlr ▸ List.mem_cons_self)
  have hmin : ∀ x ∈ leaves, s.minSize ≤ (s.page x).numKey ∧ (s.page x).numKey < s.maxSize :=
    fun x hx => ⟨(h.tree.filled x hx).2 (List.cons_ne_nil _ _), (h.tree.filled x hx).1⟩
  have horder := h.tree.order
  have hms : s.minSize = (s.btreeOrder + 1) / 2 := rfl
  have hmx : s.maxSize = s.btreeOrder + 1 := rfl
  have hnum := h.numKey
  have hprev₁ : (s₁.page right).prevLeaf = left := by
    by_cases hrp : right = p
    · rw [hrp, h.page]
      rw [hrp] at hprev
      exact hprev
    · rw [h.frame hrp]
      exact hprev
  have hm := mergeNodes_leaves hne (h.row.isLeaf left hlmem) (h.row.isLeaf right hrmem) hprev₁
  -- one of the two is the leaf
  have hcall : (i = 0 ∧ p = left ∧ (s.page P).valueAt (1 - i) = right) ∨
      (i = 1 ∧ p = right ∧ (s.page P).valueAt (1 - i) = left) := by
    obtain rfl | rfl := Nat.le_one_iff_eq_zero_or_eq_one.mp hi
    · exact Or.inl ⟨rfl, hval.symm.trans hleft, hright⟩
    · exact Or.inr ⟨rfl, hval.symm.trans hright, hleft⟩
  have hsizes : (s₁.page left).numKey ≠ 0 ∧
      s.minSize ≤ (s₁.page left).numKey + (s₁.page right).numKey ∧
      (s₁.page left).numKey + (s₁.page right).numKey < s.maxSize := by
    have hl := hmin left hlmem
    have hr := hmin right hrmem
    rcases hcall with ⟨-, rfl, hbrother⟩ | ⟨-, rfl, hbrother⟩
    · have hnumr : (s₁.page right).numKey = (s.page right).numKey := by rw [h.frame hne.symm]
      rw [hbrother] at hsum
      omega
    · have hnuml : (s₁.page left).numKey = (s.page left).numKey := by rw [h.frame hne]
      rw [hbrother] at hsum
      omega
  have hlost := hm.childLost hup hlmem hsizes.1 hP
  have hother : ∀ x, x ∈ LA.flatMap s₁.children ∨ x ∈ cs ++ LB.flatMap s₁.children →
      s₁.minSize ≤ (s₁.page x).numKey ∧ (s₁.page x).numKey < s₁.maxSize := by
    intro x hx
    obtain ⟨hxm, hxl, hxr⟩ := others_ne (hleaves ▸ hup.below_nodup) hx
    have hxp : x ≠ p := by
      rcases hcall with ⟨-, rfl, -⟩ | ⟨-, rfl, -⟩
      · exact hxl
      · exact hxr
    rw [h.minSize_eq, h.maxSize_eq, h.frame hxp]
    exact hmin x (hleaves ▸ hxm)
  rw [hleaves] at hup
  obtain ⟨hthin, hcontents⟩ := hm.thinned hup (hleaves ▸ h.row) hkids rfl rfl hsizes.1
    (by rw [h.minSize_eq, h.maxSize_eq]; exact hsizes.2) hother
  refine ⟨_, _, ?_, hthin, ?_, hlost⟩
  · have hPl : P ≠ left := fun hc => h.tree.upper.disjoint hlmem (List.mem_append_left _ (hc ▸ hP))
    have hpage := hm.frame P hPl
    have hfind : ((s₁.mergeNodes left right).page P).lowerBound
        (((s₁.mergeNodes left right).page right).keys 0) = 1 := by
      have hkey : ((s₁.mergeNodes left right).page right).keys 0 = s₁.firstKey right :=
        hm.firstKey hsizes.1 right
      rw [hkey, IxNode.lowerBound_eq, hm.entries hPl, ← IxNode.lowerBound_eq, hfather]
      exact hplace
    have herase : ((s₁.mergeNodes left right).page P).erasePair 1 =
        .ok (((s₁.mergeNodes left right).page P).shiftDown 1) := by
      rw [IxNode.erasePair, if_neg]
      rw [hpage]
      exact Nat.not_le.mpr htwo
    rw [coalesce_eq]
    rcases hcall with ⟨rfl, rfl, hbrother⟩ | ⟨rfl, rfl, hbrother⟩
    · rw [hbrother, if_pos rfl, if_pos rfl]
      dsimp only
      rw [hfind, herase]
      rfl
    · rw [hbrother, if_neg Nat.one_ne_zero, if_neg Nat.one_ne_zero]
      dsimp only
      rw [hfind, herase]
      rfl
  · rw [hcontents, hleaves]

end LeafErased

/-! ### The deletions that go well -/

omit [Ord K] in
/-- The node can lose a child: it is the root, or keeps enough children, or is one of the first two
    children of its parent and the other one can give it a child. -/
def SafeParent (s : IxIndexHandle K) (f : Int) : Prop :=
  (s.page f).isRootPage = true ∨ s.minSize < (s.page f).numKey ∨
    ∃ j ≤ 1, (s.page (s.page f).parent).valueAt j = f ∧ 2 * s.minSize <
      (s.page f).numKey + (s.page ((s.page (s.page f).parent).valueAt (1 - j))).numKey

/-- The leaf can lose its pair number `pos`: it is the root, or keeps enough pairs, or is one of the
    first two children of its parent.  Then, if the other one can give it a pair, the leaf must be the
    second child or keep its first key; if they merge, the leaf must keep its first key, the second leaf
    must name the first one as its left neighbour, and the parent must be able to lose a child. -/
def SafeLeaf (s : IxIndexHandle K) (p : Int) (pos : Nat) : Prop :=
  (s.page p).isRootPage = true ∨ s.minSize < (s.page p).numKey ∨
    ∃ i ≤ 1, (s.page (s.page p).parent).valueAt i = p ∧
      if 2 * s.minSize <
          (s.page p).numKey + (s.page ((s.page (s.page p).parent).valueAt (1 - i))).numKey then
        i = 1 ∨ pos ≠ 0
      else
        pos ≠ 0 ∧ (s.page ((s.page (s.page p).parent).valueAt 1)).prevLeaf =
          (s.page (s.page p).parent).valueAt 0 ∧ s.SafeParent (s.page p).parent

/-- The deletion of a key goes well. -/
def SafeDelete (s : IxIndexHandle K) (key : K) : Prop :=
  ∃ p, s.findLeafPage key = .ok p ∧ s.SafeLeaf p ((s.page p).lowerBound key)

omit [Ord K] in
/-- Only leaves are different. -/
theorem SafeParent.congr {P : Int} (hsafe : s.SafeParent P) (hup : Upper s₁ lvl rest) (hP : P ∈ lvl)
    (hsame : ∀ x ∈ lvl ++ rest.flatten, s₁.page x = s.page x) (hmin : s₁.minSize = s.minSize) :
    s₁.SafeParent P := by
  have hpage : s₁.page P = s.page P := hsame P (List.mem_append_left _ hP)
  rcases hsafe with hroot | hlt | ⟨j, hj, hval, hsum⟩
  · exact Or.inl (by rw [hpage, hroot])
  · exact Or.inr (Or.inl (by rw [hpage, hmin]; exact hlt))
  cases rest with
  | nil =>
    refine Or.inl ?_
    unfold IxNode.isRootPage
    cases hup.shape with
    | root hr hp => rw [List.mem_singleton.mp hP, hp, decide_eq_true_eq]
  | cons lvl' rest =>
    have hG := (hup.linked.exists_parent hP).1
    have hGpage : s₁.page (s₁.page P).parent = s.page (s₁.page P).parent :=
      hsame _ (List.mem_append_right _ (List.mem_append_left _ hG))
    have htwo : 1 < (s₁.page (s₁.page P).parent).numKey := (hup.filled.1 _ hG).1
    have hb : (s₁.page (s₁.page P).parent).valueAt (1 - j) ∈ lvl :=
      hup.linked.mem_below hG (valueAt_mem_children (by omega))
    refine Or.inr (Or.inr ⟨j, hj, ?_, ?_⟩)
    · rw [hGpage, hpage]
      exact hval
    · rw [hsame _ (List.mem_append_left _ hb), hGpage, hpage, hmin]
      exact hsum

omit [Ord K] in
/-- A parent that can lose a child, after the merge. -/
theorem SafeParent.repaired {P : Int} (hsafe : s.SafeParent P) (hup : Upper s lvl rest)
    (hlost : ChildLost s s' leaves lvl rest P) (hrest : rest ≠ [])
    (hsize : (s'.page P).numKey < s'.minSize) : ∃ j ≤ 1,
      (s'.page (s'.page P).parent).valueAt j = P ∧ 2 * s'.minSize ≤
        (s'.page P).numKey + (s'.page ((s'.page (s'.page P).parent).valueAt (1 - j))).numKey := by
  obtain ⟨lvl', rest', rfl⟩ := List.exists_cons_of_ne_nil hrest
  have hG := (hup.linked.exists_parent hlost.mem).1
  have hGflat : (s.page P).parent ∈ (lvl' :: rest').flatten := List.mem_append_left _ hG
  have hGpos := (hup.range _ (List.mem_append_right _ hGflat)).1
  have hnum : (s'.page P).numKey = (s.page P).numKey - 1 := by
    rw [hlost.page]
    rfl
  have hparent : (s'.page P).parent = (s.page P).parent := by
    rw [hlost.page]
    rfl
  have hmin : s'.minSize = s.minSize := by
    unfold minSize maxSize
    rw [hlost.btreeOrder]
  have hvalue : ∀ j, (s'.page (s.page P).parent).valueAt j = (s.page (s.page P).parent).valueAt j := by
    intro j
    rw [hlost.above _ (List.mem_append_right _ hGflat) fun hc =>
      hup.disjoint hlost.mem (by rw [hc] at hGflat; exact hGflat)]
    rfl
  rcases hsafe with hroot | hlt | ⟨j, hj, hval, hsum⟩
  · unfold IxNode.isRootPage at hroot
    rw [decide_eq_true_eq] at hroot
    omega
  · rw [hnum, hmin] at hsize
    omega
  · refine ⟨j, hj, by rw [hparent, hvalue, hval], ?_⟩
    rw [hparent, hvalue, hnum, hmin]
    have htwo : 1 < (s.page (s.page P).parent).numKey := (hup.filled.1 _ hG).1
    -- the neighbour is another node of the level
    have hb : (s.page (s.page P).parent).valueAt (1 - j) ∈ lvl :=
      hup.linked.mem_below hG (valueAt_mem_children (by omega))
    have hne : (s.page (s.page P).parent).valueAt (1 - j) ≠ P := by
      intro hc
      have hnd := hup.linked.children_nodup hup.below_nodup hG
      have := valueAt_inj hnd (by omega) (by omega) (hc.trans hval.symm)
      omega
    have hnumb : (s'.page ((s.page (s.page P).parent).valueAt (1 - j))).numKey =
        (s.page ((s.page (s.page P).parent).valueAt (1 - j))).numKey := by
      rw [hlost.above _ (List.mem_append_left _ hb) hne]
    rw [hnumb]
    omega

/-- **`coalesce_or_redistribute` of a leaf** that has lost a pair, if this goes well. -/
theorem LeafErased.repaired [DecidableEq K] [TransOrd K] {pos : Nat}
    (h : LeafErased s s₁ leaves levels p pos) (hsafe : s.SafeLeaf p pos) (fuel : Nat) :
    ∃ s', coalesceOrRedistribute (fuel + 2) s₁ p = .ok s' ∧ ∃ leaves' levels',
      Tree s' leaves' levels' ∧ s'.contents leaves' = s₁.contents leaves := by
  have hparent : (s₁.page p).parent = (s.page p).parent := h.alike.parent p h.mem
  cases levels with
  | nil =>
    -- the leaf is the root, and stays it
    have hroot : (s₁.page p).isRootPage = true := by
      unfold IxNode.isRootPage
      have hmem := h.mem
      cases h.tree.upper.shape with
      | root hr hp => rw [hparent, List.mem_singleton.mp hmem, hp, decide_eq_true_eq]
    have hadjust : s₁.adjustRoot p = s₁ := by
      unfold adjustRoot
      dsimp only
      rw [if_neg]
      rintro ⟨hinner, -⟩
      rw [h.row.isLeaf p h.mem] at hinner
      cases hinner
    refine ⟨s₁, ?_, leaves, [], h.tree_root, rfl⟩
    rw [coalesceOrRedistribute, if_pos hroot, hadjust]
  | cons lvl rest =>
    -- below other levels: enough pairs, or a sibling to share or merge with
    have hup := h.tree.upper
    have hP := (hup.linked.exists_parent h.mem).1
    have hPpos := (hup.range _ (List.mem_append_right _ (List.mem_append_left _ hP))).1
    have hnotRoot : (s.page p).isRootPage = false := by
      unfold IxNode.isRootPage
      rw [decide_eq_false_iff_not]
      omega
    have hroot : (s₁.page p).isRootPage = false := by
      unfold IxNode.isRootPage at hnotRoot ⊢
      rw [hparent]
      exact hnotRoot
    have hpos := h.pos_lt
    have hnum := h.numKey
    have hmin := h.minSize_eq
    by_cases henough : s.minSize < (s.page p).numKey
    · obtain ⟨s', hrun, htree, hcontents⟩ := h.maintained henough
      refine ⟨s', ?_, _, _, htree, hcontents⟩
      rw [coalesceOrRedistribute]
      dsimp only
      rw [hroot, if_neg Bool.false_ne_true, if_pos (by omega)]
      exact hrun
    obtain ⟨i, hi, hval, hcond⟩ := (hsafe.resolve_left (by rw [hnotRoot]; exact Bool.false_ne_true)
      ).resolve_left henough
    obtain ⟨pos', hargs, hpos', hone⟩ := h.args hi hval
    have hne : (s.page (s.page p).parent).valueAt (1 - i) ≠ p := by
      intro hc
      have htwo : 1 < (s.page (s.page p).parent).numKey := (hup.filled.1 _ hP).1
      have hnd := hup.linked.children_nodup hup.below_nodup hP
      have := valueAt_inj hnd (by omega) (by omega) (hc.trans hval.symm)
      omega
    have hbrother : (s₁.page ((s.page (s.page p).parent).valueAt (1 - i))).numKey =
        (s.page ((s.page (s.page p).parent).valueAt (1 - i))).numKey := by rw [h.frame hne]
    have hstep : coalesceOrRedistribute (fuel + 2) s₁ p =
        if 2 * s₁.minSize ≤ (s₁.page p).numKey +
            (s₁.page ((s.page (s.page p).parent).valueAt (1 - i))).numKey then
          s₁.redistribute ((s.page (s.page p).parent).valueAt (1 - i)) p pos'
        else
          (s₁.coalesce ((s.page (s.page p).parent).valueAt (1 - i)) p (s.page p).parent pos').bind
            fun s' => coalesceOrRedistribute (fuel + 1) s' (s.page p).parent := by
      rw [coalesceOrRedistribute_eq (fuel + 1) hroot (by omega), hargs, hparent]
      rfl
    rw [hstep]
    -- both together have enough for two nodes, or too few
    split at hcond
    · rename_i hsum
      obtain ⟨s', hrun, htree, hcontents⟩ := h.redistributed hi hval hpos' hone hcond
        (Nat.le_of_not_lt henough) hsum
      refine ⟨s', ?_, _, _, htree, hcontents⟩
      rw [if_pos (by omega), hrun]
    · rename_i hsum
      obtain ⟨hpos0, hprev, hparent'⟩ := hcond
      obtain ⟨s₂, leaves', hco, hthin, hcontents, hlost⟩ := h.merged hi hval hpos0 hprev
        (Nat.le_of_not_lt henough) (Nat.le_of_not_lt hsum)
      have hsafe₁ := hparent'.congr (h.upper hpos0).tail hP
        (fun x hx => h.frame fun hxp => hup.disjoint h.mem (hxp ▸ hx)) hmin
      obtain ⟨s', hrun, levels', htree, hcontents'⟩ := hthin.repaired
        (fun hrest hsize => hsafe₁.repaired (h.upper hpos0).tail hlost hrest hsize) fuel
      refine ⟨s', ?_, leaves', levels', htree, hcontents'.trans hcontents⟩
      rw [if_neg (by omega), hpos' hpos0, hco]
      exact hrun

/-! ### `delete_entry` -/

/-- **The pair that `delete_entry` takes out.** If the deletion goes well, the index is a tree again. -/
theorem Tree.deleteEntry [DecidableEq K] [TransOrd K] (h : Tree s leaves levels) {key : K}
    (hfind : s.findLeafPage key = .ok p) (hsafe : s.SafeLeaf p ((s.page p).lowerBound key))
    (hpos : (s.page p).lowerBound key < (s.page p).numKey) :
    ∃ s', s.deleteEntry key = .ok s' ∧ ∃ leaves' levels' X Y, Tree s' leaves' levels' ∧
      s.contents leaves = X ++ ((s.page p).keys ((s.page p).lowerBound key),
        (s.page p).rids ((s.page p).lowerBound key)) :: Y ∧ s'.contents leaves' = X ++ Y := by
  obtain ⟨A, p', B, hleaves, hfind', -⟩ := h.target key
  obtain rfl : p' = p := Except.ok.inj (hfind'.symm.trans hfind)
  have hp : p' ∈ leaves := hleaves ▸ List.mem_append_right _ List.mem_cons_self
  have herased : LeafErased s _ leaves levels p' _ := ⟨h, hp, hpos, rfl⟩
  obtain ⟨fuel, hfuel⟩ : ∃ fuel, s.fuel = fuel + 2 := by
    have hrange := h.upper.range p' (List.mem_append_left _ hp)
    refine ⟨s.fuel - 2, ?_⟩
    unfold IxIndexHandle.fuel
    omega
  obtain ⟨s', hrun, leaves', levels', htree, hcontents⟩ := herased.repaired hsafe fuel
  obtain ⟨X, Y, hold, hnew⟩ := herased.contents
  refine ⟨s', ?_, leaves', levels', X, Y, htree, hold, hcontents.trans hnew⟩
  have herase : (s.page p').erasePair ((s.page p').lowerBound key) =
      .ok ((s.page p').shiftDown ((s.page p').lowerBound key)) := by
    rw [IxNode.erasePair, if_neg (Nat.not_le.mpr hpos)]
  unfold IxIndexHandle.deleteEntry
  rw [hfind]
  show ((s.page p').erasePair _ >>= fun n => (s.set p' n).coalesceOrRedistribute s.fuel p') = _
  rw [herase, hfuel]
  exact hrun

/-- The place of a key of the tree in its leaf. -/
theorem Tree.lowerBound_of_mem [TransOrd K] (h : Tree s leaves levels) {key : K} {e : K × Rid}
    (he : e ∈ s.contents leaves) (hkey : compare key e.1 = .eq) (hfind : s.findLeafPage key = .ok p) :
    (s.page p).lowerBound key < (s.page p).numKey ∧
      ((s.page p).keys ((s.page p).lowerBound key), (s.page p).rids ((s.page p).lowerBound key)) = e := by
  obtain ⟨A, p', B, rfl, hfind', hA, hB⟩ := h.target key
  obtain rfl : p' = p := Except.ok.inj (hfind'.symm.trans hfind)
  have hinc := h.leaf_sorted (List.mem_append_right _ List.mem_cons_self : p' ∈ A ++ p' :: B)
  have hmem : e ∈ (s.page p').entries := by
    rw [contents_append, contents_cons, List.mem_append, List.mem_append] at he
    rcases he with he | he | he
    · have hlt := hA e he
      rw [OrientedCmp.eq_comm, hlt] at hkey
      cases hkey
    · exact he
    · rw [hB e he] at hkey
      cases hkey
  obtain ⟨g, hg⟩ := List.mem_iff_getElem?.mp hmem
  have hidx : (s.page p').lowerBound key = g := by
    rw [IxNode.lowerBound_eq, lowerIdx_congr hkey]
    exact hinc.lowerIdx_eq hg
  rw [IxNode.getElem?_entries] at hg
  split at hg
  · rename_i hlt
    rw [hidx]
    exact ⟨hlt, Option.some.inj hg⟩
  · cases hg

/-- **Deleting a key of the tree**, if it goes well: the contents lose its pair. -/
theorem deleteEntry_spec [DecidableEq K] [TransOrd K] (h : Tree s leaves levels) {key : K}
    (hsafe : s.SafeDelete key) {e : K × Rid} (he : e ∈ s.contents leaves)
    (hkey : compare key e.1 = .eq) : ∃ s', s.deleteEntry key = .ok s' ∧ ∃ leaves' levels',
      Tree s' leaves' levels' ∧
        ∀ e', e' ∈ s'.contents leaves' ↔ e' ∈ s.contents leaves ∧ compare key e'.1 ≠ .eq := by
  obtain ⟨p, hfind, hleaf⟩ := hsafe
  obtain ⟨hpos, hpair⟩ := h.lowerBound_of_mem he hkey hfind
  obtain ⟨s', hrun, leaves', levels', X, Y, htree, hold, hnew⟩ := h.deleteEntry hfind hleaf hpos
  refine ⟨s', hrun, leaves', levels', htree, fun e' => ?_⟩
  rw [hpair] at hold
  rw [hnew, hold]
  exact (hold ▸ h.sorted).mem_erase hkey

end Ord

end IxIndexHandle

end Rmdb
