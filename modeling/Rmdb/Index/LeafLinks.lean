import Rmdb.Index.InsertRuns

namespace Rmdb

open Lib Std

namespace IxIndexHandle

/-!
# The list of leaves, backwards

`split` links the new leaf to its left neighbour and into the forward list.  It writes neither
`prev_leaf` of the leaf that follows nor the leaf header page.

* `DoublyLinked` — the list of leaves can be followed in both directions, and the leaf header page
  names its ends;
* `LinksKept` — what an insertion leaves alone: `prev_leaf` of every page that exists; the last leaf
  stays or is a new page;
* `OneLeaf` — the index before its first split;
* `doublyLinked_iff` — the list of leaves is doubly linked as long as no leaf is split.
-/

variable {K : Type} {s s' s'' : IxIndexHandle K}

/-- `IX_LEAF_HEADER_PAGE`. -/
def ixLeafHeaderPage : Int := 1

/-- The leaves, followed from `first_leaf_` by `next_leaf` to `last_leaf_`. -/
inductive OnChain (s : IxIndexHandle K) : Int → Prop
  | first : OnChain s s.firstLeaf
  | next {p : Int} (h : OnChain s p) (hlast : p ≠ s.lastLeaf) : OnChain s (s.page p).nextLeaf

/-- **The list of leaves is doubly linked**, and the header page names the first and the last. -/
structure DoublyLinked (s : IxIndexHandle K) : Prop where
  back : ∀ p, OnChain s p → p ≠ s.lastLeaf → (s.page (s.page p).nextLeaf).prevLeaf = p
  headerNext : (s.page ixLeafHeaderPage).nextLeaf = s.firstLeaf
  headerPrev : (s.page ixLeafHeaderPage).prevLeaf = s.lastLeaf

/-- The insertion fills its leaf, which is then split. -/
def SplitsLeaf [Ord K] (s : IxIndexHandle K) (k : K) (v : Rid) : Prop :=
  ∃ p, s.findLeafPage k = .ok p ∧ ((s.page p).insert k v).numKey = s.maxSize

/-! ### What an insertion leaves alone -/

/-- The pages that exist keep `prev_leaf`; the last leaf stays or is a new page. -/
structure LinksKept (s s' : IxIndexHandle K) : Prop where
  nextPage : s.nextPage ≤ s'.nextPage
  prev : ∀ x < s.nextPage, (s'.page x).prevLeaf = (s.page x).prevLeaf
  last : s'.lastLeaf = s.lastLeaf ∨ s.nextPage ≤ s'.lastLeaf

theorem LinksKept.refl (s : IxIndexHandle K) : LinksKept s s :=
  ⟨Int.le_refl _, fun _ _ => rfl, Or.inl rfl⟩

/-- One change after another. -/
theorem LinksKept.trans (h : LinksKept s s') (h' : LinksKept s' s'') : LinksKept s s'' where
  nextPage := Int.le_trans h.nextPage h'.nextPage
  prev x hx := by
    rw [h'.prev x (Int.lt_of_lt_of_le hx h.nextPage), h.prev x hx]
  last := by
    rcases h'.last with hl | hl
    · rw [hl]
      exact h.last
    · exact Or.inr (Int.le_trans h.nextPage hl)

/-- The root may be another. -/
theorem LinksKept.setRoot (h : LinksKept s s') (r : Int) : LinksKept s { s' with rootPage := r } :=
  ⟨h.nextPage, h.prev, h.last⟩

/-- A page is changed, but not its `prev_leaf`. -/
theorem linksKept_modify (s : IxIndexHandle K) (p : Int) (f : IxNode K → IxNode K)
    (hf : (f (s.page p)).prevLeaf = (s.page p).prevLeaf) : LinksKept s (s.modify p f) where
  nextPage := Int.le_refl _
  prev x _ := by
    show (Function.update s.page p (f (s.page p)) x).prevLeaf = _
    by_cases hx : x = p
    · subst hx
      rw [Function.update_self, hf]
    · rw [Function.update_of_ne hx]
  last := Or.inl rfl

/-- A parent is no link between leaves. -/
theorem linksKept_setParent (s : IxIndexHandle K) (p parent : Int) :
    LinksKept s (s.setParent p parent) := linksKept_modify s p _ rfl

/-- Nor are the parents of the children. -/
theorem linksKept_maintainChild (s : IxIndexHandle K) (p : Int) (i : Nat) :
    LinksKept s (s.maintainChild p i) := by
  unfold maintainChild
  split
  · exact LinksKept.refl s
  · exact linksKept_setParent s _ _

/-- Nor are the separators. -/
theorem linksKept_maintainParent [DecidableEq K] {fuel : Nat} {p : Int}
    (h : maintainParent fuel s p = .ok s') : LinksKept s s' := by
  induction fuel generalizing s p with
  | zero => cases h
  | succ fuel ih =>
    rw [maintainParent] at h
    split at h
    · cases h
      exact LinksKept.refl _
    · obtain ⟨rank, -, h⟩ := bind_eq_ok.mp h
      split at h
      · cases h
        exact LinksKept.refl _
      · exact (linksKept_modify s (s.page p).parent _ rfl).trans (ih h)

/-- A write to the page that comes next. -/
theorem linksKept_new {page : Int → IxNode K} {numPages : Int} {calls : List (IxNode K × K × Rid)}
    {root last : Int} (hpage : ∀ x < s.nextPage, (page x).prevLeaf = (s.page x).prevLeaf)
    (hlast : last = s.lastLeaf ∨ s.nextPage ≤ last) :
    LinksKept s { s with
      page := page, numPages := numPages, insertCalls := calls, rootPage := root, lastLeaf := last
      nextPage := s.nextPage + 1 } where
  nextPage := by
    show s.nextPage ≤ s.nextPage + 1
    omega
  prev := hpage
  last := hlast

/-- The last leaf becomes a new page, or stays. -/
theorem linksKept_setLast {q : Int} (h : LinksKept s s') (hq : s.nextPage ≤ q) (p : Int) :
    LinksKept s (if p = s'.lastLeaf then { s' with lastLeaf := q } else s') := by
  split
  · exact ⟨h.nextPage, h.prev, Or.inr hq⟩
  · exact h

/-- An insertion leaves the links of its leaf. -/
theorem prevLeaf_insert [Ord K] (n : IxNode K) (k : K) (v : Rid) :
    (n.insert k v).prevLeaf = n.prevLeaf := by
  unfold IxNode.insert
  dsimp only
  split <;> rfl

/-- An insertion into a leaf keeps the links. -/
theorem linksKept_insertInto [Ord K] (s : IxIndexHandle K) (p : Int) (k : K) (v : Rid) :
    LinksKept s (s.insertInto p k v) :=
  ⟨Int.le_refl _, (linksKept_modify s p (·.insert k v) (prevLeaf_insert _ k v)).prev, Or.inl rfl⟩

section Insert

variable [Inhabited K]

/-- `split` writes `prev_leaf` of the new page only. -/
theorem linksKept_split (s : IxIndexHandle K) (p : Int) : LinksKept s (s.split p).2 := by
  have hnew : ∀ (n m : IxNode K), n.prevLeaf = (s.page p).prevLeaf → ∀ x < s.nextPage,
      (Function.update (Function.update (Function.update s.page s.nextPage IxNode.zero) s.nextPage m)
        p n x).prevLeaf = (s.page x).prevLeaf := by
    intro n m hn x hx
    have hne : x ≠ s.nextPage := Int.ne_of_lt hx
    by_cases hxp : x = p
    · subst hxp
      rw [Function.update_self, hn]
    · rw [Function.update_of_ne hxp, Function.update_of_ne hne, Function.update_of_ne hne]
  have hloop : ∀ (l : List Nat) (q : Int) (t : IxIndexHandle K),
      LinksKept t (l.foldl (fun s i => s.maintainChild q i) t) := by
    intro l q
    induction l with
    | nil => exact LinksKept.refl
    | cons i l ih => exact fun t => (linksKept_maintainChild t q i).trans (ih _)
  unfold split
  dsimp only
  split
  · split
    · exact linksKept_new (hnew _ _ rfl) (Or.inr (Int.le_refl _))
    · exact linksKept_new (hnew _ _ rfl) (Or.inl rfl)
  · refine LinksKept.trans ?_ (hloop _ _ _)
    exact linksKept_new (hnew _ _ rfl) (Or.inl rfl)

/-- The new page is the one that came next. -/
theorem split_fst (s : IxIndexHandle K) (p : Int) : (s.split p).1 = s.nextPage := by
  unfold split
  dsimp only
  split <;> rfl

variable [Ord K]

/-- The way up keeps the links between the leaves. -/
theorem linksKept_insertIntoParent {fuel : Nat} {p q : Int}
    (h : insertIntoParent fuel s p q = .ok s') : LinksKept s s' := by
  induction fuel generalizing s s' p q with
  | zero => cases h
  | succ fuel ih =>
    rw [insertIntoParent] at h
    split at h
    · cases h
      have hroot : ∀ n : IxNode K, LinksKept s
          ((((s.createNode).2.set s.nextPage n).setParent p s.nextPage).setParent q s.nextPage) := by
        intro n
        refine LinksKept.trans ?_ (linksKept_setParent _ _ _)
        refine LinksKept.trans ?_ (linksKept_setParent _ _ _)
        refine linksKept_new (fun x hx => ?_) (Or.inl rfl)
        have hne : x ≠ s.nextPage := Int.ne_of_lt hx
        show (Function.update (Function.update s.page s.nextPage IxNode.zero) s.nextPage n x).prevLeaf = _
        rw [Function.update_of_ne hne, Function.update_of_ne hne]
      exact (hroot _).setRoot _
    · dsimp only at h
      have hins := linksKept_insertInto s (s.page q).parent ((s.page q).keys 0) ⟨q, -1⟩
      split at h
      · obtain ⟨s₁, hs₁, h⟩ := bind_eq_ok.mp h
        have hkept := (hins.trans (linksKept_split _ (s.page q).parent)).trans (ih hs₁)
        rw [← Except.ok.inj h]
        refine linksKept_setLast hkept ?_ _
        rw [split_fst]
        exact hins.nextPage
      · cases h
        exact hins

/-- **An insertion keeps `prev_leaf`** of every page that exists. -/
theorem linksKept_insertEntry [DecidableEq K] {k : K} {v : Rid} {p : Int}
    (h : s.insertEntry k v = .ok (p, s')) : LinksKept s s' := by
  unfold insertEntry at h
  obtain ⟨q, -, h⟩ := bind_eq_ok.mp h
  obtain ⟨s₁, hs₁, h⟩ := bind_eq_ok.mp h
  have hkept := (linksKept_insertInto s q k v).trans (linksKept_maintainParent hs₁)
  split at h
  · have hnew := split_fst s₁ q
    have hsplit := linksKept_split s₁ q
    generalize s₁.split q = r at h hnew hsplit
    obtain ⟨q', t⟩ := r
    obtain ⟨s₂, hs₂, h⟩ := bind_eq_ok.mp h
    have hkept₂ := (hkept.trans hsplit).trans (linksKept_insertIntoParent hs₂)
    cases h
    refine linksKept_setLast hkept₂ ?_ _
    exact Int.le_trans hkept.nextPage (Int.le_of_eq hnew.symm)
  · cases h
    exact hkept

end Insert

/-! ### Before the first split -/

/-- The root is the only leaf. -/
structure OneLeaf [Inhabited K] (s : IxIndexHandle K) : Prop where
  root : s.rootPage = 2
  first : s.firstLeaf = 2
  last : s.lastLeaf = 2
  nextPage : s.nextPage = 3
  isLeaf : (s.page 2).isLeaf = true
  parent : (s.page 2).parent = -1
  header : s.page ixLeafHeaderPage = leafHeader

variable [Inhabited K]

/-- A new index has one leaf. -/
theorem oneLeaf_create (btreeOrder : Nat) : OneLeaf (create btreeOrder : IxIndexHandle K) :=
  ⟨rfl, rfl, rfl, rfl, rfl, rfl, rfl⟩

/-- One leaf is linked in both directions. -/
theorem OneLeaf.doublyLinked (h : OneLeaf s) : DoublyLinked s where
  back p hp hne := by
    have hp2 : p = 2 := by
      induction hp with
      | first => exact h.first
      | next _ hlast ih => exact absurd ((ih hlast).trans h.last.symm) hlast
    exact absurd (hp2.trans h.last.symm) hne
  headerNext := by
    rw [h.header, h.first]
    rfl
  headerPrev := by
    rw [h.header, h.last]
    rfl

variable [Ord K]

/-- Every search ends there. -/
theorem OneLeaf.findLeafPage (h : OneLeaf s) (k : K) : s.findLeafPage k = .ok 2 := by
  unfold IxIndexHandle.findLeafPage fuel
  rw [h.nextPage, h.root]
  show (if (s.page 2).isLeaf = true then _ else _) = _
  rw [if_pos h.isLeaf]

/-- It is split when it is full. -/
theorem OneLeaf.splitsLeaf_iff (h : OneLeaf s) (k : K) (v : Rid) :
    s.SplitsLeaf k v ↔ ((s.page 2).insert k v).numKey = s.maxSize := by
  unfold SplitsLeaf
  rw [h.findLeafPage]
  constructor
  · rintro ⟨p, hp, hsize⟩
    cases hp
    exact hsize
  · exact fun hsize => ⟨2, rfl, hsize⟩

omit [Inhabited K] in
/-- The leaf into which the pair is inserted. -/
theorem page_insertInto_self (s : IxIndexHandle K) (p : Int) (k : K) (v : Rid) :
    (s.insertInto p k v).page p = (s.page p).insert k v := by
  show Function.update s.page p ((s.page p).insert k v) p = _
  rw [Function.update_self]

/-- The root after the insertion of a pair. -/
theorem OneLeaf.insertInto (h : OneLeaf s) (k : K) (v : Rid) : OneLeaf (s.insertInto 2 k v) := by
  have hkind : ∀ n : IxNode K, (n.insert k v).isLeaf = n.isLeaf ∧ (n.insert k v).parent = n.parent := by
    intro n
    unfold IxNode.insert
    dsimp only
    split <;> exact ⟨rfl, rfl⟩
  refine ⟨h.root, h.first, h.last, h.nextPage, ?_, ?_, ?_⟩
  · rw [page_insertInto_self, (hkind _).1]
    exact h.isLeaf
  · rw [page_insertInto_self, (hkind _).2]
    exact h.parent
  · show Function.update s.page 2 ((s.page 2).insert k v) ixLeafHeaderPage = _
    rw [Function.update_of_ne (by decide)]
    exact h.header

variable [DecidableEq K]

/-- **The first split ends it.** Without a split the root stays the only leaf; with one the last leaf
    is another page. -/
theorem OneLeaf.insertEntry (h : OneLeaf s) {k : K} {v : Rid} {p : Int}
    (hins : s.insertEntry k v = .ok (p, s')) :
    (s.SplitsLeaf k v → 3 ≤ s'.lastLeaf) ∧ (¬ s.SplitsLeaf k v → OneLeaf s') := by
  have hone := h.insertInto k v
  -- the leaf is the root, so there is no separator to maintain
  have hmp : maintainParent s.fuel (s.insertInto 2 k v) 2 = .ok (s.insertInto 2 k v) := by
    unfold fuel
    rw [h.nextPage]
    show (if ((s.insertInto 2 k v).page 2).parent = -1 then _ else _) = _
    rw [if_pos hone.parent]
  unfold IxIndexHandle.insertEntry at hins
  obtain ⟨q, hq, hins⟩ := bind_eq_ok.mp hins
  rw [h.findLeafPage] at hq
  cases hq
  obtain ⟨s₁, hs₁, hins⟩ := bind_eq_ok.mp hins
  rw [hmp] at hs₁
  cases hs₁
  rw [h.splitsLeaf_iff, ← page_insertInto_self]
  split at hins
  · -- a full leaf is split, and the new one is behind it
    rename_i hsize
    refine ⟨fun _ => ?_, fun hno => absurd hsize hno⟩
    have hnew := split_fst (s.insertInto 2 k v) 2
    have hlast : ((s.insertInto 2 k v).split 2).2.lastLeaf = 3 := by
      rw [splitLeaf_spec hone.isLeaf]
      show (if s.lastLeaf = 2 then s.nextPage else s.lastLeaf) = 3
      rw [if_pos h.last]
      exact h.nextPage
    have hnext := (linksKept_split (s.insertInto 2 k v) 2).nextPage
    rw [hone.nextPage] at hnew hnext
    generalize (s.insertInto 2 k v).split 2 = r at hins hnew hlast hnext
    obtain ⟨q, t⟩ := r
    obtain ⟨s₂, hs₂, hins⟩ := bind_eq_ok.mp hins
    have hkept := (linksKept_insertIntoParent hs₂).last
    dsimp only at hnew hlast hnext
    cases hins
    split
    · exact Int.le_of_eq hnew.symm
    · omega
  · rename_i hsize
    refine ⟨fun hc => absurd hc hsize, fun _ => ?_⟩
    cases hins
    exact hone

/-! ### Runs -/

/-- No insertion of the run splits a leaf. -/
def NoSplits (s : IxIndexHandle K) (ops : List (K × Rid)) : Prop :=
  ∀ pre op suf s₁, ops = pre ++ op :: suf → s.insertEntries pre = .ok s₁ → ¬ s₁.SplitsLeaf op.1 op.2

/-- One more insertion. -/
theorem noSplits_snoc {s s₁ : IxIndexHandle K} {ops : List (K × Rid)} {op : K × Rid}
    (hrun : s.insertEntries ops = .ok s₁) :
    NoSplits s (ops ++ [op]) ↔ NoSplits s ops ∧ ¬ s₁.SplitsLeaf op.1 op.2 := by
  constructor
  · intro h
    refine ⟨fun pre op' suf s₂ heq hpre => ?_, h ops op [] s₁ rfl hrun⟩
    exact h pre op' (suf ++ [op]) s₂ (by rw [heq, List.append_assoc]; rfl) hpre
  · rintro ⟨h, hop⟩ pre op' suf s₂ heq hpre
    rcases List.eq_nil_or_concat suf with rfl | ⟨suf, last, rfl⟩
    · obtain ⟨rfl, hlast⟩ := List.append_inj' heq rfl
      cases hlast
      rw [hrun] at hpre
      cases hpre
      exact hop
    · rw [List.concat_eq_append, ← List.cons_append, ← List.append_assoc] at heq
      obtain ⟨heq', -⟩ := List.append_inj' heq rfl
      exact h pre op' suf s₂ heq' hpre

/-- **The list along a run**: one leaf, or a last leaf that the header page does not name. -/
theorem oneLeaf_or_split {s₀ s : IxIndexHandle K} (h₀ : OneLeaf s₀) {ops : List (K × Rid)}
    (hrun : s₀.insertEntries ops = .ok s) :
    (NoSplits s₀ ops ∧ OneLeaf s) ∨ (¬ NoSplits s₀ ops ∧ 3 ≤ s.nextPage ∧ 3 ≤ s.lastLeaf ∧
      (s.page ixLeafHeaderPage).prevLeaf = 2) := by
  induction ops using List.reverseRecOn generalizing s with
  | nil =>
    cases hrun
    refine Or.inl ⟨fun pre op suf s₁ heq _ => ?_, h₀⟩
    simp at heq
  | append_singleton ops op ih =>
    obtain ⟨s₁, p, hrun₁, hop⟩ := insertEntries_snoc.mp hrun
    have hkept := linksKept_insertEntry hop
    rw [noSplits_snoc hrun₁]
    rcases ih hrun₁ with ⟨hno, hone⟩ | ⟨hno, hnext, hlast, hprev⟩
    · have hstep := hone.insertEntry hop
      by_cases hsplit : s₁.SplitsLeaf op.1 op.2
      · have hnext := hkept.nextPage
        rw [hone.nextPage] at hnext
        refine Or.inr ⟨fun h => h.2 hsplit, hnext, hstep.1 hsplit, ?_⟩
        rw [hkept.prev _ (by rw [hone.nextPage]; decide), hone.header]
        rfl
      · exact Or.inl ⟨⟨hno, hsplit⟩, hstep.2 hsplit⟩
    · refine Or.inr ⟨fun h => hno h.1, Int.le_trans hnext hkept.nextPage, ?_, ?_⟩
      · rcases hkept.last with hl | hl
        · rw [hl]
          exact hlast
        · exact Int.le_trans hnext hl
      · rw [hkept.prev _ (Int.lt_of_lt_of_le (by decide) hnext)]
        exact hprev

/-- **The leaves are doubly linked exactly until a leaf is split.** -/
theorem doublyLinked_iff (cols : List IxCol) (s₀ s : IxIndexHandle (RawKey cols))
    (hcreate : createIndex cols = .ok s₀) (ops : List (RawKey cols × Rid))
    (hrun : s₀.insertEntries ops = .ok s) : DoublyLinked s ↔ NoSplits s₀ ops := by
  obtain ⟨btreeOrder, -, rfl⟩ := createIndex_ok hcreate
  rcases oneLeaf_or_split (oneLeaf_create btreeOrder) hrun with ⟨hno, hone⟩ | ⟨hno, -, hlast, hprev⟩
  · exact ⟨fun _ => hno, fun _ => hone.doublyLinked⟩
  · refine ⟨fun h => ?_, fun h => absurd h hno⟩
    have hheader := h.headerPrev
    rw [hprev] at hheader
    omega

/-- A key of an index on a `CHAR(512)` column, of which a node holds at most six. -/
def longKey (b : UInt8) : RawKey [(.string, 512)] := ⟨b :: List.replicate 511 0⟩

/-- The theorem at the insertion of one key. -/
theorem doublyLinked_one_key : ∃ s₀ s : IxIndexHandle (RawKey [(.string, 512)]),
    createIndex [(.string, 512)] = .ok s₀ ∧ s₀.insertEntries [(longKey 1, ⟨1, 0⟩)] = .ok s ∧
      DoublyLinked s := by
  have hcreate : createIndex [(.string, 512)] =
      .ok (create 6 : IxIndexHandle (RawKey [(.string, 512)])) := rfl
  obtain ⟨s, hs⟩ : ∃ s, (create 6 : IxIndexHandle (RawKey [(.string, 512)])).insertEntries
      [(longKey 1, ⟨1, 0⟩)] = .ok s := ⟨_, rfl⟩
  refine ⟨create 6, s, hcreate, hs, ?_⟩
  refine (doublyLinked_iff [(.string, 512)] (create 6) s hcreate _ hs).mpr ?_
  rintro pre op suf s₁ heq hpre hsplit
  rcases pre with _ | ⟨a, pre⟩
  · cases heq
    cases hpre
    rw [(oneLeaf_create 6).splitsLeaf_iff] at hsplit
    cases hsplit
  · have hlen := congrArg List.length heq
    simp at hlen

/-- **A split breaks the list.** Seven keys fill the root and split it: the last leaf is page 3, and the
    header page still names page 2. -/
theorem seven_keys_not_linked : ∃ s₀ s : IxIndexHandle (RawKey [(.string, 512)]),
    createIndex [(.string, 512)] = .ok s₀ ∧
    s₀.insertEntries ((List.range 7).map fun i => (longKey (UInt8.ofNat i), ⟨1, i⟩)) = .ok s ∧
    ¬ DoublyLinked s := by
  have hends : ((create 6 : IxIndexHandle (RawKey [(.string, 512)])).insertEntries
      ((List.range 7).map fun i => (longKey (UInt8.ofNat i), ⟨1, i⟩))).toOption.map
        (fun s => (s.lastLeaf, (s.page ixLeafHeaderPage).prevLeaf)) = some (3, 2) := by
    decide +kernel
  obtain ⟨s, hrun, hpair⟩ := toOption_map_eq_some.mp hends
  refine ⟨create 6, s, rfl, hrun, fun h => ?_⟩
  have hheader := h.headerPrev
  rw [(Prod.mk.inj hpair).1, (Prod.mk.inj hpair).2] at hheader
  cases hheader

end IxIndexHandle

end Rmdb
