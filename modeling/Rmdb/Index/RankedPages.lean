import Rmdb.Index.DeleteLatches

namespace Rmdb

open Lib Std

namespace IxIndexHandle

/-!
# The pages of the tree, whatever its keys

Deletions may leave a tree whose keys are out of order and whose nodes are partly lost.  What stays
true of it is about page numbers only: the pages below the root have numbers that the disk manager has
given out, each with its height over the leaves.

* `Ranked` — a set of pages that contains the root and the children of its inner nodes;
* `Ranked.congr` — it survives a change of keys, of leaves, and of the header;
* `Pending`, `split_pending` — a node that has been split, and its new neighbour;
* `Pending.newRoot`, `Pending.link` — the new neighbour under a new root, or in the parent.
-/

variable {K : Type} {s s' s'' : IxIndexHandle K} {T new : Set Int} {rank : Int → Nat} {p q : Int}

/-! ### Ranked pages -/

/-- The parent of a page is an inner node one level up. -/
def HasParent (s : IxIndexHandle K) (T : Set Int) (rank : Int → Nat) (p : Int) : Prop :=
  (s.page p).parent ∈ T ∧ (s.page (s.page p).parent).isLeaf = false ∧
    rank (s.page p).parent = rank p + 1

/-- **Ranked pages**: `T` contains the root and the children of its inner nodes, and `rank` is the
    height over the leaves.  The pages `new` are not linked to their parents yet. -/
structure Ranked (s : IxIndexHandle K) (T : Set Int) (rank : Int → Nat) (new : Set Int) : Prop where
  order : 3 ≤ s.btreeOrder
  rootMem : s.rootPage ∈ T
  rootParent : (s.page s.rootPage).parent = -1
  range : ∀ p ∈ T, 2 ≤ p ∧ p < s.nextPage
  leaf : ∀ p ∈ T, ((s.page p).isLeaf = true ↔ rank p = 0)
  size : ∀ p ∈ T, (s.page p).isLeaf = false → 2 ≤ (s.page p).numKey
  child : ∀ p ∈ T, (s.page p).isLeaf = false → ∀ c ∈ s.children p,
    c ∈ T ∧ rank c + 1 = rank p ∧ (s.page c).parent = p
  nodup : ∀ p ∈ T, (s.page p).isLeaf = false → (s.children p).Nodup
  parent : ∀ p ∈ T, p ≠ s.rootPage → p ∉ new → HasParent s T rank p

/-- What the page numbers depend on is the same for the pages of `T`. -/
structure SameLevels (s s' : IxIndexHandle K) (T : Set Int) : Prop where
  order : s'.btreeOrder = s.btreeOrder
  root : s'.rootPage = s.rootPage
  next : s.nextPage ≤ s'.nextPage
  isLeaf : ∀ p ∈ T, (s'.page p).isLeaf = (s.page p).isLeaf
  parent : ∀ p ∈ T, (s'.page p).parent = (s.page p).parent
  children : ∀ p ∈ T, (s.page p).isLeaf = false → s'.children p = s.children p

theorem SameLevels.refl (s : IxIndexHandle K) (T : Set Int) : SameLevels s s T :=
  ⟨rfl, rfl, Int.le_refl _, fun _ _ => rfl, fun _ _ => rfl, fun _ _ _ => rfl⟩

/-- One change after another. -/
theorem SameLevels.trans (h : SameLevels s s' T) (h' : SameLevels s' s'' T) : SameLevels s s'' T where
  order := h'.order.trans h.order
  root := h'.root.trans h.root
  next := Int.le_trans h.next h'.next
  isLeaf p hp := (h'.isLeaf p hp).trans (h.isLeaf p hp)
  parent p hp := (h'.parent p hp).trans (h.parent p hp)
  children p hp hi := (h'.children p hp ((h.isLeaf p hp).trans hi)).trans (h.children p hp hi)

/-- Only `last_leaf_` and `num_pages_` change. -/
theorem SameLevels.of_pages (horder : s'.btreeOrder = s.btreeOrder) (hroot : s'.rootPage = s.rootPage)
    (hnext : s'.nextPage = s.nextPage) (hpage : s'.page = s.page) : SameLevels s s' T := by
  refine ⟨horder, hroot, Int.le_of_eq hnext.symm, ?_, ?_, ?_⟩ <;> intro p _
  · rw [hpage]
  · rw [hpage]
  · intro _
    unfold IxIndexHandle.children
    rw [hpage]

/-- One page changes, but neither its kind nor its parent, nor its children if it is an inner node. -/
theorem SameLevels.modify (f : IxNode K → IxNode K)
    (hleaf : (f (s.page p)).isLeaf = (s.page p).isLeaf)
    (hparent : (f (s.page p)).parent = (s.page p).parent)
    (hentries : (s.page p).isLeaf = false → (f (s.page p)).entries.map (fun e => e.2.pageNo) =
      s.children p) : SameLevels s (s.modify p f) T := by
  refine ⟨rfl, rfl, Int.le_refl _, fun x _ => ?_, fun x _ => ?_, fun x _ hx => ?_⟩
  · rw [page_modify]
    split
    · rw [hleaf, ‹x = p›]
    · rfl
  · rw [page_modify]
    split
    · rw [hparent, ‹x = p›]
    · rfl
  · show ((s.modify p f).page x).entries.map _ = _
    rw [page_modify]
    split
    · rename_i hxp
      subst hxp
      exact hentries hx
    · rfl

namespace Ranked

/-- The ranks depend on the levels only. -/
theorem congr (h : Ranked s T rank new) (hs : SameLevels s s' T) : Ranked s' T rank new where
  order := by
    rw [hs.order]
    exact h.order
  rootMem := by
    rw [hs.root]
    exact h.rootMem
  rootParent := by
    rw [hs.root, hs.parent _ h.rootMem]
    exact h.rootParent
  range p hp := ⟨(h.range p hp).1, Int.lt_of_lt_of_le (h.range p hp).2 hs.next⟩
  leaf p hp := by
    rw [hs.isLeaf p hp]
    exact h.leaf p hp
  size p hp hi := by
    rw [hs.isLeaf p hp] at hi
    rw [← length_children, hs.children p hp hi, length_children]
    exact h.size p hp hi
  child p hp hi c hc := by
    rw [hs.isLeaf p hp] at hi
    rw [hs.children p hp hi] at hc
    obtain ⟨hcT, hrank, hparent⟩ := h.child p hp hi c hc
    exact ⟨hcT, hrank, by rw [hs.parent c hcT]; exact hparent⟩
  nodup p hp hi := by
    rw [hs.isLeaf p hp] at hi
    rw [hs.children p hp hi]
    exact h.nodup p hp hi
  parent p hp hroot hnew := by
    rw [hs.root] at hroot
    obtain ⟨h1, h2, h3⟩ := h.parent p hp hroot hnew
    unfold HasParent
    rw [hs.parent p hp, hs.isLeaf _ h1]
    exact ⟨h1, h2, h3⟩

/-- The nodes of the tree are among the pages. -/
theorem mem_of_node (h : Ranked s T rank new) {d : Nat} (hp : s.Node p d) : p ∈ T := by
  induction hp with
  | root => exact h.rootMem
  | child hp hinner hi ih => exact (h.child _ ih hinner _ (valueAt_mem_children hi)).1

/-- A page without a parent is the root. -/
theorem eq_root (h : Ranked s T rank new) (hp : p ∈ T) (hnew : p ∉ new)
    (hparent : (s.page p).parent = -1) : p = s.rootPage := by
  by_contra hne
  have hmem := (h.parent p hp hne hnew).1
  rw [hparent] at hmem
  have := (h.range _ hmem).1
  omega

/-- A page is not its own child. -/
theorem ne_of_child (h : Ranked s T rank new) (hp : p ∈ T) (hinner : (s.page p).isLeaf = false) {c : Int}
    (hc : c ∈ s.children p) : c ≠ p ∧ c ≠ s.nextPage := by
  obtain ⟨hcT, hrank, -⟩ := h.child p hp hinner c hc
  refine ⟨?_, ?_⟩
  · rintro rfl
    omega
  · have := (h.range c hcT).2
    omega

/-- **The descent ends at a leaf of the set.** -/
theorem findLeafFrom [Ord K] (h : Ranked s T rank new) {key : K} {fuel : Nat} (hp : p ∈ T)
    (hrun : s.findLeafFrom key fuel p = .ok q) : q ∈ T ∧ (s.page q).isLeaf = true := by
  induction fuel generalizing p with
  | zero => cases hrun
  | succ fuel ih =>
    rw [IxIndexHandle.findLeafFrom] at hrun
    split at hrun
    · cases hrun
      exact ⟨hp, by assumption⟩
    · rename_i hleaf
      have hinner : (s.page p).isLeaf = false := Bool.not_eq_true _ ▸ hleaf
      have hsize := h.size p hp hinner
      obtain ⟨j, hj, hlt, -⟩ := (s.page p).upperBound_spec key (by omega)
      have hchild : (s.page p).internalLookup key ∈ s.children p := by
        unfold IxNode.internalLookup
        rw [hj]
        exact valueAt_mem_children hlt
      exact ih (h.child p hp hinner _ hchild).1 hrun

end Ranked

/-! ### Changes of keys and of leaves -/

/-- `maintain_parent` changes keys only. -/
theorem SameLevels.maintainParent [DecidableEq K] {fuel : Nat}
    (h : maintainParent fuel s p = .ok s') : SameLevels s s' T := by
  induction fuel generalizing s p with
  | zero => cases h
  | succ fuel ih =>
    rw [IxIndexHandle.maintainParent] at h
    split at h
    · cases h
      exact SameLevels.refl _ _
    · obtain ⟨rank, -, h⟩ := bind_eq_ok.mp h
      split at h
      · cases h
        exact SameLevels.refl _ _
      · refine SameLevels.trans ?_ (ih h)
        refine SameLevels.modify _ rfl rfl fun _ => ?_
        unfold IxIndexHandle.children IxNode.entries
        rw [List.map_map, List.map_map]
        rfl

/-- The pairs of a leaf change. -/
theorem SameLevels.set_leaf {n : IxNode K} (hp : (s.page p).isLeaf = true) (hn : n.isLeaf = true)
    (hparent : n.parent = (s.page p).parent) : SameLevels s (s.set p n) T :=
  SameLevels.modify (fun _ => n) (hn.trans hp.symm) hparent fun hi => by
    rw [hp] at hi
    cases hi

/-- A leaf has no children to maintain. -/
theorem maintainChild_leaf (hp : (s.page p).isLeaf = true) (i : Nat) : s.maintainChild p i = s := by
  unfold maintainChild
  rw [if_pos hp]

/-- A leaf stays a leaf when a pair is erased. -/
theorem isLeaf_erasePair {n n' : IxNode K} {pos : Nat} (h : n.erasePair pos = .ok n') :
    n'.isLeaf = n.isLeaf := by
  unfold IxNode.erasePair at h
  split at h
  · cases h
  · cases h
    rfl

section Insert

variable [Ord K]

/-- And when one is inserted. -/
theorem isLeaf_insert (n : IxNode K) (k : K) (v : Rid) : (n.insert k v).isLeaf = n.isLeaf := by
  unfold IxNode.insert
  dsimp only
  split <;> rfl

/-- Its parent stays. -/
theorem parent_insert (n : IxNode K) (k : K) (v : Rid) : (n.insert k v).parent = n.parent := by
  unfold IxNode.insert
  dsimp only
  split <;> rfl

/-- `insert` adds its pair somewhere, or changes nothing. -/
theorem entries_insert (n : IxNode K) (k : K) (v : Rid) : (n.insert k v).entries = n.entries ∨
    ∃ X Y, n.entries = X ++ Y ∧ (n.insert k v).entries = X ++ (k, v) :: Y := by
  unfold IxNode.insert
  dsimp only
  split
  · exact Or.inl rfl
  · right
    have hle : n.lowerBound k ≤ n.numKey := by
      rw [IxNode.lowerBound_eq, ← IxNode.length_entries]
      exact List.findIdx_le_length
    refine ⟨n.entries.take (n.lowerBound k), n.entries.drop (n.lowerBound k), ?_, ?_⟩
    · rw [List.take_append_drop]
    · exact IxNode.entries_insertPair n hle k v

/-- `insert` into a leaf. -/
theorem SameLevels.insertInto_leaf (hp : (s.page p).isLeaf = true) (k : K) (v : Rid) :
    SameLevels s (s.insertInto p k v) T := by
  suffices hmodify : SameLevels s (s.modify p (·.insert k v)) T from
    hmodify.trans (SameLevels.of_pages rfl rfl rfl rfl)
  refine SameLevels.modify _ (isLeaf_insert _ k v) (parent_insert _ k v) fun hi => ?_
  rw [hp] at hi
  cases hi

end Insert

/-! ### A split node -/

/-- The node `p` has been split; its new neighbour `q` is not linked yet. -/
structure Pending (s : IxIndexHandle K) (T : Set Int) (rank : Int → Nat) (p q : Int) : Prop where
  ranked : Ranked s T rank {q}
  mem : p ∈ T
  memNew : q ∈ T
  ne : q ≠ p
  notRoot : q ≠ s.rootPage
  rank_eq : rank q = rank p
  parent_eq : (s.page q).parent = (s.page p).parent
  alone : ∀ f ∈ T, (s.page f).isLeaf = false → q ∉ s.children f

/-- A node that waits for its parent depends on the levels only. -/
theorem Pending.congr (h : Pending s T rank p q) (hs : SameLevels s s' T) : Pending s' T rank p q where
  ranked := h.ranked.congr hs
  mem := h.mem
  memNew := h.memNew
  ne := h.ne
  notRoot := by
    rw [hs.root]
    exact h.notRoot
  rank_eq := h.rank_eq
  parent_eq := by
    rw [hs.parent q h.memNew, hs.parent p h.mem]
    exact h.parent_eq
  alone f hf hi := by
    rw [hs.isLeaf f hf] at hi
    rw [hs.children f hf hi]
    exact h.alone f hf hi

section Split

variable [Inhabited K]

/-- The right half is a leaf if the node was. -/
theorem isLeaf_splitOff (n : IxNode K) : (splitOff n).isLeaf = n.isLeaf := rfl

/-- It has the same parent. -/
theorem parent_splitOff (n : IxNode K) : (splitOff n).parent = n.parent := rfl

/-- The rank of the pages with the new neighbour of `p`. -/
def withNew (s : IxIndexHandle K) (rank : Int → Nat) (p : Int) : Int → Nat :=
  Function.update rank s.nextPage (rank p)

omit [Inhabited K] in
/-- The old pages keep their ranks. -/
theorem Ranked.withNew_eq (h : Ranked s T rank new) (p : Int) {x : Int} (hx : x ∈ T) :
    s.withNew rank p x = rank x :=
  Function.update_of_ne (by have := (h.range x hx).2; omega) _ _

/-- **A leaf is split.** -/
theorem Ranked.split_leaf (h : Ranked s T rank ∅) (hp : p ∈ T) (hleaf : (s.page p).isLeaf = true) :
    ∃ s', s.split p = (s.nextPage, s') ∧
      Pending s' (insert s.nextPage T) (s.withNew rank p) p s.nextPage := by
  refine ⟨_, splitLeaf_spec hleaf, ?_⟩
  generalize hs' : ({ s with numPages := _, nextPage := _, lastLeaf := _, page := _ } :
    IxIndexHandle K) = s'
  have hfresh : ∀ x ∈ T, x ≠ s.nextPage := fun x hx => by
    have := (h.range x hx).2
    omega
  have hroot : s'.rootPage = s.rootPage := by rw [← hs']
  have hnext : s'.nextPage = s.nextPage + 1 := by rw [← hs']
  have horder : s'.btreeOrder = s.btreeOrder := by rw [← hs']
  have hleafNew : (s'.page s.nextPage).isLeaf = (s.page p).isLeaf := by
    rw [← hs']
    simp [(hfresh p hp).symm, isLeaf_splitOff]
  have hparentNew : (s'.page s.nextPage).parent = (s.page p).parent := by
    rw [← hs']
    simp [(hfresh p hp).symm, parent_splitOff]
  -- the old pages keep their kinds, their parents and their children
  have hsame : SameLevels s s' T := by
    refine ⟨horder, hroot, by omega, fun x hx => ?_, fun x hx => ?_, fun x hx hi => ?_⟩
    all_goals by_cases hxp : x = p
    · subst hxp
      rw [← hs']
      simp
    · rw [← hs']
      simp [hxp, hfresh x hx]
    · subst hxp
      rw [← hs']
      simp
    · rw [← hs']
      simp [hxp, hfresh x hx]
    · rw [hxp, hleaf] at hi
      cases hi
    · rw [← hs']
      simp [IxIndexHandle.children, hxp, hfresh x hx]
  have hold := h.congr hsame
  have hrank : ∀ x ∈ T, s.withNew rank p x = rank x := fun x hx => h.withNew_eq p hx
  have hrankNew : s.withNew rank p s.nextPage = rank p := Function.update_self _ _ _
  have hinner : ∀ x ∈ insert s.nextPage T, (s'.page x).isLeaf = false → x ∈ T := by
    rintro x (rfl | hx) hi
    · rw [hleafNew, hleaf] at hi
      cases hi
    · exact hx
  have hroot2 := (h.range _ h.rootMem).1
  have hroot3 := (h.range _ h.rootMem).2
  refine ⟨⟨hold.order, Or.inr hold.rootMem, hold.rootParent, ?_, ?_, fun x hx hi =>
    hold.size x (hinner x hx hi) hi, fun x hx hi c hc => ?_, fun x hx hi =>
    hold.nodup x (hinner x hx hi) hi, ?_⟩, Or.inr hp, Or.inl rfl, (hfresh p hp).symm, ?_, ?_, ?_, ?_⟩
  · rintro x (rfl | hx)
    · omega
    · exact hold.range x hx
  · rintro x (rfl | hx)
    · rw [hleafNew, hrankNew]
      exact h.leaf p hp
    · rw [hrank x hx]
      exact hold.leaf x hx
  · obtain ⟨hcT, hcr, hcp⟩ := hold.child x (hinner x hx hi) hi c hc
    rw [hrank c hcT, hrank x (hinner x hx hi)]
    exact ⟨Or.inr hcT, hcr, hcp⟩
  · rintro x (rfl | hx) hxr hxn
    · exact absurd rfl hxn
    · obtain ⟨h1, h2, h3⟩ := hold.parent x hx hxr (Set.notMem_empty x)
      exact ⟨Or.inr h1, h2, by rw [hrank _ h1, hrank x hx]; exact h3⟩
  · rw [hroot]
    omega
  · rw [hrankNew, hrank p hp]
  · rw [hparentNew, hsame.parent p hp]
  · intro f hf hi hc
    have hf' := hinner f hf hi
    exact hfresh _ (hold.child f hf' hi _ hc).1 rfl

/-- An inner node is cut: the children behind its middle move to the next page, which has its rank and
    becomes their parent. -/
structure InnerCut (s s' : IxIndexHandle K) (T : Set Int) (rank rank' : Int → Nat) (p : Int)
    (kept moved : List Int) : Prop where
  rankOld : ∀ x ∈ T, rank' x = rank x
  rankNew : rank' s.nextPage = rank p
  isLeaf : ∀ x ∈ T, (s'.page x).isLeaf = (s.page x).isLeaf
  isLeafNew : (s'.page s.nextPage).isLeaf = false
  old : s.children p = kept ++ moved
  left : s'.children p = kept
  right : s'.children s.nextPage = moved
  others : ∀ x ∈ T, x ≠ p → s'.children x = s.children x
  parent : ∀ x ∈ T, x ∉ moved → (s'.page x).parent = (s.page x).parent
  parentMoved : ∀ x ∈ moved, (s'.page x).parent = s.nextPage

/-- `split` of an inner node cuts it. -/
theorem Ranked.cut (h : Ranked s T rank ∅) (hinner : (s.page p).isLeaf = false)
    (hsplit : InnerSplit s s' p s.nextPage) :
    InnerCut s s' T rank (s.withNew rank p) p ((s.children p).take ((s.page p).numKey / 2))
      ((s.children p).drop ((s.page p).numKey / 2)) := by
  have hfresh : ∀ x ∈ T, x ≠ s.nextPage := fun x hx => by
    have := (h.range x hx).2
    omega
  refine ⟨fun x hx => h.withNew_eq p hx, Function.update_self _ _ _, fun x hx => ?_, ?_,
    (List.take_append_drop _ _).symm, hsplit.children_left, hsplit.children_right, fun x hx hxp => ?_,
    fun x hx hxd => ?_, fun x hx => ?_⟩
  · by_cases hxp : x = p
    · rw [hxp, hsplit.left]
    · exact (hsplit.entries_eq hxp (hfresh x hx)).2.1
  · rw [hsplit.right, isLeaf_splitOff, hinner]
  · unfold children
    rw [(hsplit.entries_eq hxp (hfresh x hx)).1]
  · by_cases hxp : x = p
    · rw [hxp, hsplit.left]
    · rw [hsplit.frame x hxp (hfresh x hx) hxd]
  · rw [hsplit.moved x hx]

section Cut

variable {rank' : Int → Nat} {kept moved : List Int} (hc : InnerCut s s' T rank rank' p kept moved)
  (h : Ranked s T rank ∅) (hp : p ∈ T) (hinner : (s.page p).isLeaf = false)
include hc h hp hinner

omit [Inhabited K]

/-- The pages that move are children of `p`. -/
theorem InnerCut.child_moved : ∀ x ∈ moved, x ∈ T ∧ rank x + 1 = rank p ∧ (s.page x).parent = p := fun x hx =>
  h.child p hp hinner x (by rw [hc.old]; exact List.mem_append_right _ hx)

/-- The root does not move, because it has no parent. -/
theorem InnerCut.root_notMem : s.rootPage ∉ moved := fun hx => by
  have hparent := (hc.child_moved h hp hinner _ hx).2.2
  have hrootParent := h.rootParent
  have hrange := (h.range p hp).1
  omega

/-- A child is one of the tree, a rank below its parent. -/
theorem InnerCut.child {x c : Int} (hx : x ∈ insert s.nextPage T) (hi : (s'.page x).isLeaf = false)
    (hchild : c ∈ s'.children x) :
    c ∈ insert s.nextPage T ∧ rank' c + 1 = rank' x ∧ (s'.page c).parent = x := by
  rcases hx with rfl | hx
  · rw [hc.right] at hchild
    obtain ⟨hcT, hcr, -⟩ := hc.child_moved h hp hinner c hchild
    rw [hc.rankOld c hcT, hc.rankNew]
    exact ⟨Or.inr hcT, hcr, hc.parentMoved c hchild⟩
  · rw [hc.isLeaf x hx] at hi
    -- a child that another node has kept or always had
    have hstays : c ∈ s.children x → c ∉ moved →
        c ∈ insert s.nextPage T ∧ rank' c + 1 = rank' x ∧ (s'.page c).parent = x := by
      intro hold hcd
      obtain ⟨hcT, hcr, hcp⟩ := h.child x hx hi c hold
      rw [hc.rankOld c hcT, hc.rankOld x hx, hc.parent c hcT hcd]
      exact ⟨Or.inr hcT, hcr, hcp⟩
    by_cases hxp : x = p
    · subst hxp
      have hnodup := h.nodup x hx hi
      rw [hc.old] at hnodup
      rw [hc.left] at hchild
      refine hstays ?_ fun hcd => (List.nodup_append.mp hnodup).2.2 c hchild c hcd rfl
      rw [hc.old]
      exact List.mem_append_left _ hchild
    · rw [hc.others x hx hxp] at hchild
      refine hstays hchild fun hcd => hxp ?_
      rw [← (h.child x hx hi c hchild).2.2, (hc.child_moved h hp hinner c hcd).2.2]

/-- No child of a half is listed twice. -/
theorem InnerCut.nodup {x : Int} (hx : x ∈ insert s.nextPage T) (hi : (s'.page x).isLeaf = false) :
    (s'.children x).Nodup := by
  have hnodup := h.nodup p hp hinner
  rw [hc.old] at hnodup
  rcases hx with rfl | hx
  · rw [hc.right]
    exact (List.nodup_append.mp hnodup).2.1
  · by_cases hxp : x = p
    · rw [hxp, hc.left]
      exact (List.nodup_append.mp hnodup).1
    · rw [hc.others x hx hxp]
      exact h.nodup x hx ((hc.isLeaf x hx).symm.trans hi)

/-- The parent of a page: the new node for those that have moved. -/
theorem InnerCut.hasParent {x : Int} (hx : x ∈ T) (hxr : x ≠ s.rootPage) :
    HasParent s' (insert s.nextPage T) rank' x := by
  obtain ⟨h1, h2, h3⟩ := h.parent x hx hxr (Set.notMem_empty x)
  unfold HasParent
  by_cases hxd : x ∈ moved
  · rw [hc.parentMoved x hxd]
    refine ⟨Or.inl rfl, hc.isLeafNew, ?_⟩
    rw [hc.rankNew, hc.rankOld x hx]
    exact (hc.child_moved h hp hinner x hxd).2.1.symm
  · rw [hc.parent x hx hxd, hc.isLeaf _ h1, hc.rankOld _ h1, hc.rankOld x hx]
    exact ⟨Or.inr h1, h2, h3⟩

/-- Nobody has the new node as a child yet. -/
theorem InnerCut.alone {f : Int} (hf : f ∈ insert s.nextPage T) (hi : (s'.page f).isLeaf = false) :
    s.nextPage ∉ s'.children f := by
  have hfresh : s.nextPage ∉ T := fun hx => by
    have := (h.range _ hx).2
    omega
  intro hchild
  rcases hf with rfl | hf
  · rw [hc.right] at hchild
    exact hfresh (hc.child_moved h hp hinner _ hchild).1
  · rw [hc.isLeaf f hf] at hi
    by_cases hfp : f = p
    · subst hfp
      rw [hc.left] at hchild
      refine hfresh (h.child f hf hi _ ?_).1
      rw [hc.old]
      exact List.mem_append_left _ hchild
    · rw [hc.others f hf hfp] at hchild
      exact hfresh (h.child f hf hi _ hchild).1

end Cut

/-- **An inner node is split.** The children of the new neighbour get it as their parent. -/
theorem Ranked.split_inner (h : Ranked s T rank ∅) (hp : p ∈ T)
    (hinner : (s.page p).isLeaf = false) (hsize : 4 ≤ (s.page p).numKey) :
    ∃ s', s.split p = (s.nextPage, s') ∧
      Pending s' (insert s.nextPage T) (s.withNew rank p) p s.nextPage := by
  have hfresh := (h.range p hp).2
  obtain ⟨s', hrun, hsplit, hs'⟩ :=
    IxIndexHandle.split_inner hinner (by omega) fun c hc => h.ne_of_child hp hinner hc
  have hc := h.cut hinner hsplit
  have hroot : s'.rootPage = s.rootPage := by rw [hs']
  have hnext : s'.nextPage = s.nextPage + 1 := by rw [hs']
  have hroot2 := h.range _ h.rootMem
  refine ⟨s', hrun, ⟨?_, ?_, ?_, ?_, ?_, ?_, fun x hx hi c => hc.child h hp hinner hx hi,
    fun x hx => hc.nodup h hp hinner hx, ?_⟩, Or.inr hp, Or.inl rfl, by omega, ?_, ?_, ?_,
    fun f hf => hc.alone h hp hinner hf⟩
  · rw [hs']
    exact h.order
  · rw [hroot]
    exact Or.inr h.rootMem
  · rw [hroot, hc.parent _ h.rootMem (hc.root_notMem h hp hinner)]
    exact h.rootParent
  · rintro x (rfl | hx)
    · omega
    · have := h.range x hx
      omega
  · rintro x (rfl | hx)
    · rw [hc.isLeafNew, hc.rankNew, ← h.leaf p hp, hinner]
    · rw [hc.isLeaf x hx, hc.rankOld x hx]
      exact h.leaf x hx
  · rintro x (rfl | hx) hi
    · rw [hsplit.right, numKey_splitOff]
      omega
    · by_cases hxp : x = p
      · rw [hxp, hsplit.left]
        show 2 ≤ (s.page p).numKey / 2
        omega
      · rw [← length_children, hc.others x hx hxp, length_children]
        exact h.size x hx ((hc.isLeaf x hx).symm.trans hi)
  · rintro x (rfl | hx) hxr hxn
    · exact absurd rfl hxn
    · exact hc.hasParent h hp hinner hx (hroot ▸ hxr)
  · rw [hroot]
    omega
  · rw [hc.rankNew, hc.rankOld p hp]
  · rw [hsplit.right, hsplit.left]
    rfl

end Split

/-! ### Linking the new neighbour -/

/-- **A new root** over the two halves of the old one. -/
theorem Pending.newRoot (h : Pending s T rank p q) (hparent : (s.page p).parent = -1)
    (hnew : NewRoot s s' p q) :
    Ranked s' (insert s.nextPage T) (Function.update rank s.nextPage (rank p + 1)) ∅ := by
  obtain ⟨hr, hpT, hqT, hqp, -, hrankq, -, halone⟩ := h
  have hfresh : ∀ x ∈ T, x ≠ s.nextPage := fun x hx => by
    have := (hr.range x hx).2
    omega
  have hp : p = s.rootPage := hr.eq_root hpT (Ne.symm hqp) hparent
  have hroot : s'.rootPage = s.nextPage := by rw [hnew.header]
  have hnext : s'.nextPage = s.nextPage + 1 := by rw [hnew.header]
  have horder : s'.btreeOrder = s.btreeOrder := by rw [hnew.header]
  have hrank : ∀ x ∈ T, Function.update rank s.nextPage (rank p + 1) x = rank x :=
    fun x hx => Function.update_of_ne (hfresh x hx) _ _
  have hrankNew : Function.update rank s.nextPage (rank p + 1) s.nextPage = rank p + 1 :=
    Function.update_self _ _ _
  -- the old pages have at most got another parent
  have hpage : ∀ x ∈ T, s'.page x = { s.page x with parent := (s'.page x).parent } := by
    intro x hx
    by_cases hxp : x = p
    · rw [hxp, hnew.left]
    by_cases hxq : x = q
    · rw [hxq, hnew.right]
    · rw [hnew.frame x hxp hxq (hfresh x hx)]
  have hleaf : ∀ x ∈ T, (s'.page x).isLeaf = (s.page x).isLeaf := fun x hx => by rw [hpage x hx]
  have hchildren : ∀ x ∈ T, s'.children x = s.children x := fun x hx => by
    unfold children
    rw [hpage x hx]
    rfl
  have hchildrenNew : s'.children s.nextPage = [p, q] := by
    unfold children
    rw [hnew.entries]
    rfl
  have hroot2 := hr.range _ hr.rootMem
  refine ⟨?_, ?_, ?_, ?_, ?_, ?_, ?_, ?_, ?_⟩
  · rw [horder]
    exact hr.order
  · rw [hroot]
    exact Or.inl rfl
  · rw [hroot]
    exact hnew.parent
  · rintro x (rfl | hx)
    · omega
    · have := hr.range x hx
      omega
  · rintro x (rfl | hx)
    · rw [hnew.isLeaf, hrankNew]
      simp
    · rw [hleaf x hx, hrank x hx]
      exact hr.leaf x hx
  · rintro x (rfl | hx) hi
    · rw [← length_children, hchildrenNew]
      simp
    · rw [hleaf x hx] at hi
      rw [← length_children, hchildren x hx, length_children]
      exact hr.size x hx hi
  · rintro x (rfl | hx) hi c hc
    · rw [hchildrenNew] at hc
      have hc' : c = p ∨ c = q := by simpa using hc
      rw [hrankNew]
      rcases hc' with rfl | rfl
      · rw [hrank c hpT, hnew.left]
        exact ⟨Or.inr hpT, rfl, rfl⟩
      · rw [hrank c hqT, hnew.right, hrankq]
        exact ⟨Or.inr hqT, rfl, rfl⟩
    · rw [hleaf x hx] at hi
      rw [hchildren x hx] at hc
      obtain ⟨hcT, hcr, hcp⟩ := hr.child x hx hi c hc
      -- neither half is a child of an old page
      have hcp' : c ≠ p := by
        rintro rfl
        rw [hparent] at hcp
        have := (hr.range x hx).1
        omega
      have hcq : c ≠ q := by
        rintro rfl
        exact halone x hx hi hc
      rw [hrank c hcT, hrank x hx, hnew.frame c hcp' hcq (hfresh c hcT)]
      exact ⟨Or.inr hcT, hcr, hcp⟩
  · rintro x (rfl | hx) hi
    · rw [hchildrenNew]
      simpa using Ne.symm hqp
    · rw [hleaf x hx] at hi
      rw [hchildren x hx]
      exact hr.nodup x hx hi
  · rintro x (rfl | hx) hxr -
    · exact absurd hroot.symm hxr
    · unfold HasParent
      by_cases hxp : x = p
      · rw [hxp, hnew.left, hrankNew, hrank p hpT]
        exact ⟨Or.inl rfl, hnew.isLeaf, rfl⟩
      by_cases hxq : x = q
      · rw [hxq, hnew.right, hrankNew, hrank q hqT, hrankq]
        exact ⟨Or.inl rfl, hnew.isLeaf, rfl⟩
      · obtain ⟨h1, h2, h3⟩ := hr.parent x hx (fun hxr => hxp (hxr.trans hp.symm)) hxq
        rw [hnew.frame x hxp hxq (hfresh x hx), hleaf _ h1, hrank _ h1, hrank x hx]
        exact ⟨Or.inr h1, h2, h3⟩

/-- **The new neighbour goes into the parent**, or is lost. -/
theorem Pending.link [Ord K] (h : Pending s T rank p q) (hroot : p ≠ s.rootPage) (k : K) :
    Ranked (s.insertInto (s.page p).parent k ⟨q, -1⟩) T rank ∅ ∧
      HasParent s T rank p := by
  obtain ⟨hr, hpT, hqT, hqp, hqroot, hrankq, hparentq, halone⟩ := h
  have hparent := hr.parent p hpT hroot (Ne.symm hqp)
  refine ⟨?_, hparent⟩
  obtain ⟨hPT, hPinner, hPrank⟩ := hparent
  generalize (s.page p).parent = P at *
  generalize hs₁ : s.insertInto P k ⟨q, -1⟩ = s₁
  have hpage : ∀ x, s₁.page x = if x = P then (s.page P).insert k ⟨q, -1⟩ else s.page x := by
    intro x
    rw [← hs₁, page_insertInto]
  have hleaf : ∀ x, (s₁.page x).isLeaf = (s.page x).isLeaf := by
    intro x
    rw [hpage]
    split
    · rw [isLeaf_insert, ‹x = P›]
    · rfl
  have hpar : ∀ x, (s₁.page x).parent = (s.page x).parent := by
    intro x
    rw [hpage]
    split
    · rw [parent_insert, ‹x = P›]
    · rfl
  have hother : ∀ x, x ≠ P → s₁.children x = s.children x := by
    intro x hx
    unfold children
    rw [hpage, if_neg hx]
  -- the children of the parent: as before, or with the new neighbour
  have hchildren : s₁.children P = s.children P ∨
      ∃ X Y, s.children P = X ++ Y ∧ s₁.children P = X ++ q :: Y := by
    unfold children
    rw [hpage, if_pos rfl]
    rcases entries_insert (s.page P) k ⟨q, -1⟩ with heq | ⟨X, Y, hX, hY⟩
    · exact Or.inl (by rw [heq])
    · refine Or.inr ⟨X.map fun e => e.2.pageNo, Y.map fun e => e.2.pageNo, ?_, ?_⟩
      · rw [hX, List.map_append]
      · rw [hY, List.map_append, List.map_cons]
  have hheader : s₁.rootPage = s.rootPage ∧ s₁.nextPage = s.nextPage ∧
      s₁.btreeOrder = s.btreeOrder := by
    rw [← hs₁]
    exact ⟨rfl, rfl, rfl⟩
  have hqP : q ∉ s.children P := halone P hPT hPinner
  refine ⟨?_, ?_, ?_, ?_, ?_, ?_, ?_, ?_, ?_⟩
  · rw [hheader.2.2]
    exact hr.order
  · rw [hheader.1]
    exact hr.rootMem
  · rw [hheader.1, hpar]
    exact hr.rootParent
  · rw [hheader.2.1]
    exact hr.range
  · intro x hx
    rw [hleaf]
    exact hr.leaf x hx
  · intro x hx hi
    rw [hleaf] at hi
    have hsize := hr.size x hx hi
    rw [← length_children] at hsize ⊢
    by_cases hxP : x = P
    · rw [hxP] at hsize ⊢
      rcases hchildren with heq | ⟨X, Y, hX, hY⟩
      · rw [heq]
        exact hsize
      · rw [hX, List.length_append] at hsize
        rw [hY, List.length_append, List.length_cons]
        omega
    · rw [hother x hxP]
      exact hsize
  · intro x hx hi c hc
    rw [hleaf] at hi
    rw [hpar]
    by_cases hxP : x = P
    · subst hxP
      have hold : c ∈ s.children x ∨ c = q := by
        rcases hchildren with heq | ⟨X, Y, hX, hY⟩
        · exact Or.inl (heq ▸ hc)
        · rw [hY] at hc
          rw [hX]
          simp only [List.mem_append, List.mem_cons] at hc ⊢
          tauto
      rcases hold with hc | rfl
      · exact hr.child x hx hi c hc
      · exact ⟨hqT, by omega, hparentq⟩
    · rw [hother x hxP] at hc
      exact hr.child x hx hi c hc
  · intro x hx hi
    rw [hleaf] at hi
    have hnd := hr.nodup x hx hi
    by_cases hxP : x = P
    · rw [hxP] at hnd ⊢
      rcases hchildren with heq | ⟨X, Y, hX, hY⟩
      · rw [heq]
        exact hnd
      · rw [hX] at hnd hqP
        rw [hY, List.nodup_middle, List.nodup_cons]
        exact ⟨hqP, hnd⟩
    · rw [hother x hxP]
      exact hnd
  · intro x hx hxr _
    rw [hheader.1] at hxr
    unfold HasParent
    rw [hpar, hleaf]
    by_cases hxq : x = q
    · rw [hxq, hparentq]
      exact ⟨hPT, hPinner, by omega⟩
    · exact hr.parent x hx hxr hxq

end IxIndexHandle

end Rmdb
