import Rmdb.Index.Coalesce

namespace Rmdb

open Lib Std

/-!
# `delete_entry` with its latches

What `delete_entry` locks and pins on its way, and the pointers it passes on: `coalesce` calls
`coalesce_or_redistribute` without the transaction and without the pointer to `root_is_latch`.

* `Latches` — `root_latch_`, the latched and the pinned pages, `index_latch_page_set_`;
* `deleteEntryLatched` — the operation; where it stops early, the latches at that point;
* `deleteEntry_of_latched` — what it does to the tree is `deleteEntry`;
* `LeavesUntouched`, `not_leavesUntouched` — no deletion leaves the index as it was and gives back all
  it took.

`maintain_parent`, `maintain_child`, `erase_leaf` and `adjust_root` unpin every page they fetch.
-/

/-- What stops a deletion. -/
inductive IxFault where
  | error (e : IxError)
  /-- A null pointer is used. -/
  | nullPointer
  deriving DecidableEq, Repr

/-- What a deletion holds.  `rootIsLatched` is the variable of `delete_entry`, `latchSet` the list of
    pages in the transaction. -/
structure Latches where
  rootLatch : Bool
  rootIsLatched : Bool
  pages : List Int
  latchSet : List Int
  pins : List Int
  deriving DecidableEq, Repr

namespace Latches

/-- `root_latch_` and the root are latched. -/
def start (root : Int) : Latches where
  rootLatch := true
  rootIsLatched := true
  pages := [root]
  latchSet := [root]
  pins := [root]

/-- `fetch_node`. -/
def fetch (l : Latches) (p : Int) : Latches := { l with pins := p :: l.pins }

/-- `unpin_page`. -/
def unpin (l : Latches) (p : Int) : Latches := { l with pins := l.pins.erase p }

/-- `WLock`. -/
def wLock (l : Latches) (p : Int) : Latches := { l with pages := p :: l.pages }

/-- `WUnLock`. -/
def wUnlock (l : Latches) (p : Int) : Latches := { l with pages := l.pages.erase p }

/-- `append_index_latch_page_set`. -/
def append (l : Latches) (p : Int) : Latches := { l with latchSet := l.latchSet ++ [p] }

/-- `if (*root_is_latched)`: unlock `root_latch_`. -/
def releaseRoot (l : Latches) : Latches :=
  if l.rootIsLatched then { l with rootLatch := false, rootIsLatched := false } else l

/-- `unlock_unpin_all_pages` of a transaction. -/
def unlockUnpinAll (l : Latches) : Latches :=
  l.latchSet.foldl (fun l p => (l.wUnlock p).unpin p) { l with latchSet := [] }

/-- Nothing is held. -/
def Released (l : Latches) : Prop := l.rootLatch = false ∧ l.pages = [] ∧ l.pins = []

/-- The variable tells whether `root_latch_` is held. -/
def Agrees (l : Latches) : Prop := l.rootIsLatched = l.rootLatch

/-- All pages of the latch set are unlatched and unpinned. -/
theorem unlockUnpinAll_eq (l : Latches) : l.unlockUnpinAll = { l with
    pages := l.pages.diff l.latchSet, pins := l.pins.diff l.latchSet, latchSet := [] } := by
  have hloop : ∀ (ps : List Int) (l : Latches),
      ps.foldl (fun l p => (l.wUnlock p).unpin p) l =
        { l with pages := l.pages.diff ps, pins := l.pins.diff ps } := by
    intro ps
    induction ps with
    | nil => exact fun _ => rfl
    | cons p ps ih =>
      intro l
      rw [List.foldl_cons, ih, List.diff_cons, List.diff_cons]
      rfl
  exact hloop l.latchSet _

/-- Latches and pins still agree. -/
theorem agrees_unlockUnpinAll {l : Latches} (h : l.Agrees) : l.unlockUnpinAll.Agrees := by
  rw [unlockUnpinAll_eq]
  exact h

/-- The root latch is counted apart. -/
theorem agrees_releaseRoot {l : Latches} (h : l.Agrees) : l.releaseRoot.Agrees := by
  unfold releaseRoot
  split
  · rfl
  · exact h

/-- Afterwards `root_latch_` is free. -/
theorem rootLatch_releaseRoot {l : Latches} (h : l.Agrees) : l.releaseRoot.rootLatch = false := by
  unfold releaseRoot
  split
  · rfl
  · rename_i hflag
    rw [← h]
    exact Bool.not_eq_true _ ▸ hflag

/-- It is no page's latch. -/
theorem pages_releaseRoot (l : Latches) : l.releaseRoot.pages = l.pages := by
  unfold releaseRoot
  split <;> rfl

/-- Nor is it in the latch set. -/
theorem latchSet_releaseRoot (l : Latches) : l.releaseRoot.latchSet = l.latchSet := by
  unfold releaseRoot
  split <;> rfl

end Latches

namespace IxIndexHandle

variable {K : Type}

/-- An operation that holds these latches when it fails. -/
def underLatches {α : Type} (l : Latches) (x : Except IxError α) : Except (IxFault × Latches) α :=
  x.mapError fun e => (.error e, l)

/-- `is_secure` for a deletion. -/
def isSecure (s : IxIndexHandle K) (p : Int) : Bool :=
  if (s.page p).isRootPage then 3 ≤ (s.page p).numKey else s.minSize + 1 ≤ (s.page p).numKey

section Ord

variable [Ord K]

/-- The loop of `find_leaf_page`, for a deletion. -/
def descendLatched (s : IxIndexHandle K) (key : K) :
    Nat → Int → Latches → Except (IxFault × Latches) (Int × Latches)
  | 0, _, l => .error (.error .outOfFuel, l)
  | fuel + 1, p, l =>
    if (s.page p).isLeaf then .ok (p, l)
    else
      let child := (s.page p).internalLookup key
      let l := ((l.unpin p).fetch child).wLock child
      let l := if s.isSecure child then l.releaseRoot.unlockUnpinAll else l
      descendLatched s key fuel child (l.append child)

/-- `find_leaf_page`, for a deletion: the leaf, which is not in the list any more. -/
def findLeafLatched (s : IxIndexHandle K) (key : K) :
    Except (IxFault × Latches) (Int × Latches) := do
  let root := s.rootPage
  let (p, l) ← s.descendLatched key s.fuel root (Latches.start root)
  return (p, { l with latchSet := l.latchSet.dropLast })

variable [DecidableEq K]

/-- `coalesce_or_redistribute`.  `ptrs` says whether the transaction and the pointer to
    `root_is_latch` are given. -/
def coalesceOrRedistributeLatched : Nat → Bool → IxIndexHandle K → Latches → Int →
    Except (IxFault × Latches) (Bool × IxIndexHandle K × Latches)
  | 0, _, _, l, _ => .error (.error .outOfFuel, l)
  | fuel + 1, ptrs, s, l, p =>
    let n := s.page p
    if n.isRootPage then
      if ptrs then .ok (false, s.adjustRoot p, l.releaseRoot.unlockUnpinAll)
      else .error (.nullPointer, l)
    else if s.minSize ≤ n.numKey then do
      let s ← underLatches l (s.maintainParent s.fuel p)
      return (false, s, if ptrs then l.unlockUnpinAll else l)
    else do
      let father := n.parent
      let l := l.fetch father
      let (brother, pos) ← underLatches l (s.siblingArgs p)
      let l := (l.fetch brother).wLock brother
      if 2 * s.minSize ≤ n.numKey + (s.page brother).numKey then
        let s ← underLatches l (s.redistribute brother p pos)
        let l := ((l.wUnlock brother).unpin brother).unpin father
        if ptrs then return (false, s, l.unlockUnpinAll.releaseRoot)
        else throw (.nullPointer, l)
      else
        let s ← underLatches l (s.coalesce brother p father pos)
        let (_, s, l) ← coalesceOrRedistributeLatched fuel false s l father
        let l := ((l.wUnlock brother).unpin brother).unpin father
        if ptrs then return (true, s, l.unlockUnpinAll.releaseRoot)
        else throw (.nullPointer, l)

/-- `delete_entry`. -/
def deleteEntryLatched (s : IxIndexHandle K) (key : K) :
    Except (IxFault × Latches) (IxIndexHandle K × Latches) := do
  let (p, l) ← s.findLeafLatched key
  let n ← underLatches l ((s.page p).erasePair ((s.page p).lowerBound key))
  let (_, s, l) ← coalesceOrRedistributeLatched s.fuel true (s.set p n) l p
  return (s, (l.wUnlock p).unpin p)

end Ord

/-! ### The way down -/

section Descent

variable [Ord K] {s : IxIndexHandle K} {key : K}

/-- On the way down: the list ends with the current page, the pages before it are inner nodes, and a
    leaf is latched. -/
structure OnPath (s : IxIndexHandle K) (l : Latches) (p : Int) : Prop where
  agrees : l.Agrees
  path : ∃ init, l.latchSet = init ++ [p] ∧ ∀ x ∈ init, (s.page x).isLeaf = false
  latched : (s.page p).isLeaf = true → p ∈ l.pages

omit [Ord K] in
/-- One level down. -/
theorem OnPath.child {l : Latches} {p : Int} (h : OnPath s l p) (hinner : (s.page p).isLeaf = false)
    (child : Int) : OnPath s
      ((if s.isSecure child then
          (((l.unpin p).fetch child).wLock child).releaseRoot.unlockUnpinAll
        else ((l.unpin p).fetch child).wLock child).append child) child := by
  obtain ⟨init, hset, hinit⟩ := h.path
  have hall : ∀ x ∈ l.latchSet, (s.page x).isLeaf = false := by
    intro x hx
    rw [hset] at hx
    rcases List.mem_append.mp hx with hx | hx
    · exact hinit x hx
    · rw [List.mem_singleton.mp hx]
      exact hinner
  have hagree : (((l.unpin p).fetch child).wLock child).Agrees := h.agrees
  split
  · have heq := Latches.unlockUnpinAll_eq (((l.unpin p).fetch child).wLock child).releaseRoot
    refine ⟨Latches.agrees_unlockUnpinAll (Latches.agrees_releaseRoot hagree), ⟨[], ?_, ?_⟩, ?_⟩
    · show Latches.latchSet (Latches.unlockUnpinAll _) ++ [child] = _
      rw [heq]
    · exact fun x hx => absurd hx List.not_mem_nil
    · intro hleaf
      show child ∈ Latches.pages (Latches.unlockUnpinAll _)
      rw [heq]
      show child ∈ List.diff (Latches.pages (Latches.releaseRoot _))
        (Latches.latchSet (Latches.releaseRoot _))
      rw [Latches.pages_releaseRoot, Latches.latchSet_releaseRoot]
      -- the pages that are unlocked are inner nodes
      refine List.mem_diff_of_mem List.mem_cons_self fun hx => ?_
      rw [hall child hx] at hleaf
      cases hleaf
  · exact ⟨hagree, ⟨l.latchSet, rfl, hall⟩, fun _ => List.mem_cons_self⟩

/-- The way down takes the latches of its path, or stops where the search stops. -/
theorem descendLatched_spec (key : K) (fuel : Nat) (p : Int) (l : Latches) (h : OnPath s l p) :
    match s.findLeafFrom key fuel p with
    | .ok q => ∃ l', s.descendLatched key fuel p l = .ok (q, l') ∧ OnPath s l' q ∧
        (s.page q).isLeaf = true
    | .error e => ∃ l', s.descendLatched key fuel p l = .error (.error e, l') ∧ e = .outOfFuel := by
  induction fuel generalizing p l with
  | zero => exact ⟨l, rfl, rfl⟩
  | succ fuel ih =>
    rw [findLeafFrom, descendLatched]
    cases hleaf : (s.page p).isLeaf with
    | true => exact ⟨l, rfl, h, hleaf⟩
    | false => exact ih _ _ (h.child hleaf _)

/-- **`find_leaf_page`, for a deletion.** The leaf is latched, and the list holds inner nodes only. -/
theorem findLeafLatched_spec (s : IxIndexHandle K) (key : K) :
    match s.findLeafPage key with
    | .ok p => ∃ l, s.findLeafLatched key = .ok (p, l) ∧ l.Agrees ∧ p ∈ l.pages
    | .error e => ∃ l, s.findLeafLatched key = .error (.error e, l) ∧ e = .outOfFuel := by
  have hstart : OnPath s (Latches.start s.rootPage) s.rootPage :=
    ⟨rfl, ⟨[], rfl, fun x hx => absurd hx List.not_mem_nil⟩, fun _ => List.mem_singleton_self _⟩
  have hdescent := descendLatched_spec key s.fuel s.rootPage _ hstart
  unfold findLeafPage findLeafLatched
  revert hdescent
  cases s.findLeafFrom key s.fuel s.rootPage with
  | error e =>
    rintro ⟨l, hl, he⟩
    exact ⟨l, by dsimp only; rw [hl]; rfl, he⟩
  | ok p =>
    rintro ⟨l, hl, hpath, hleaf⟩
    exact ⟨{ l with latchSet := l.latchSet.dropLast }, by dsimp only; rw [hl]; rfl, hpath.agrees,
      hpath.latched hleaf⟩

end Descent

/-! ### The tree and the latches -/

section Run

variable [Ord K] [DecidableEq K] {s s' : IxIndexHandle K} {l l' : Latches} {p : Int}

/-- **What happens to the tree** is `coalesceOrRedistribute`. -/
theorem coalesceOrRedistribute_of_latched {fuel : Nat} {ptrs b : Bool}
    (h : coalesceOrRedistributeLatched fuel ptrs s l p = .ok (b, s', l')) :
    coalesceOrRedistribute fuel s p = .ok s' := by
  -- each branch of the latched version is the branch of the other, or fails
  induction fuel generalizing ptrs b s s' l l' p with
  | zero => cases h
  | succ fuel ih =>
    rw [coalesceOrRedistributeLatched] at h
    cases hroot : (s.page p).isRootPage with
    | true =>
      rw [hroot, if_pos rfl] at h
      rw [coalesceOrRedistribute, hroot, if_pos rfl]
      split at h
      · cases h
        rfl
      · cases h
    | false =>
      rw [hroot, if_neg Bool.false_ne_true] at h
      -- enough pairs, redistribution, or coalescence and the parent
      by_cases hsize : s.minSize ≤ (s.page p).numKey
      · rw [if_pos hsize] at h
        obtain ⟨s₁, hs₁, h⟩ := bind_eq_ok.mp h
        cases h
        rw [coalesceOrRedistribute, hroot, if_neg Bool.false_ne_true, if_pos hsize]
        exact mapError_eq_ok.mp hs₁
      · rw [if_neg hsize] at h
        rw [coalesceOrRedistribute_eq fuel hroot (Nat.lt_of_not_le hsize)]
        obtain ⟨⟨brother, pos⟩, hargs, h⟩ := bind_eq_ok.mp h
        rw [mapError_eq_ok.mp hargs]
        show (if _ then _ else _) = _
        dsimp only at h
        split at h
        · rename_i hsum
          rw [if_pos hsum]
          obtain ⟨s₁, hs₁, h⟩ := bind_eq_ok.mp h
          split at h
          · cases h
            exact mapError_eq_ok.mp hs₁
          · cases h
        · rename_i hsum
          rw [if_neg hsum]
          obtain ⟨s₁, hs₁, h⟩ := bind_eq_ok.mp h
          obtain ⟨⟨b₁, s₂, l₂⟩, hs₂, h⟩ := bind_eq_ok.mp h
          rw [mapError_eq_ok.mp hs₁]
          split at h
          · cases h
            exact ih hs₂
          · cases h

/-- **A call that throws keeps its latches**: what was latched before still is. -/
theorem pages_of_throw {fuel : Nat} {ptrs : Bool} {e : IxError} {x : Int} (hx : x ∈ l.pages)
    (h : coalesceOrRedistributeLatched fuel ptrs s l p = .error (.error e, l')) : x ∈ l'.pages := by
  induction fuel generalizing ptrs s l p with
  | zero =>
    cases h
    exact hx
  | succ fuel ih =>
    -- an operation on the tree fails
    have hop : ∀ {α : Type} {l₁ : Latches} {r : Except IxError α}, x ∈ l₁.pages →
        underLatches l₁ r = .error (.error e, l') → x ∈ l'.pages := by
      intro α l₁ r hx₁ hr
      obtain ⟨e', -, he⟩ := mapError_eq_error.mp hr
      cases he
      exact hx₁
    rw [coalesceOrRedistributeLatched] at h
    split at h
    · split at h <;> cases h
    · split at h
      · rcases bind_eq_error.mp h with h | ⟨s₁, -, h⟩
        · exact hop hx h
        · cases h
      · have hx₁ : x ∈ (l.fetch (s.page p).parent).pages := hx
        rcases bind_eq_error.mp h with h | ⟨⟨brother, pos⟩, -, h⟩
        · exact hop hx₁ h
        have hx' : x ∈ ((((l.fetch (s.page p).parent).fetch brother).wLock brother)).pages :=
          List.mem_cons_of_mem _ hx
        dsimp only at h
        split at h
        · rcases bind_eq_error.mp h with h | ⟨s₁, -, h⟩
          · exact hop hx' h
          · split at h <;> cases h
        · rcases bind_eq_error.mp h with h | ⟨s₁, -, h⟩
          · exact hop hx' h
          rcases bind_eq_error.mp h with h | ⟨⟨b₁, s₂, l₂⟩, -, h⟩
          · exact ih hx' h
          · dsimp only at h
            split at h <;> cases h

/-- `delete_entry` does to the tree what `deleteEntry` does. -/
theorem deleteEntry_of_latched {key : K} (h : s.deleteEntryLatched key = .ok (s', l')) :
    s.deleteEntry key = .ok s' := by
  unfold deleteEntryLatched at h
  obtain ⟨⟨p, l⟩, hfind, h⟩ := bind_eq_ok.mp h
  obtain ⟨n, hn, h⟩ := bind_eq_ok.mp h
  obtain ⟨⟨b, s₁, l₁⟩, hrun, h⟩ := bind_eq_ok.mp h
  cases h
  have hspec := findLeafLatched_spec s key
  unfold deleteEntry
  revert hspec
  cases s.findLeafPage key with
  | error e =>
    rintro ⟨l₂, hl₂, -⟩
    rw [hfind] at hl₂
    cases hl₂
  | ok q =>
    rintro ⟨l₂, hl₂, -⟩
    rw [hfind] at hl₂
    cases hl₂
    show ((s.page p).erasePair _ >>= _) = _
    rw [mapError_eq_ok.mp hn]
    exact coalesceOrRedistribute_of_latched hrun

end Run

/-! ### Sizes -/

section Sizes

variable {s s' s'' : IxIndexHandle K} {p : Int}

/-- The number of pages and the sizes of the nodes stay. -/
structure SizesKept (s s' : IxIndexHandle K) : Prop where
  numPages : s'.numPages = s.numPages
  numKey : ∀ x, (s'.page x).numKey = (s.page x).numKey

theorem SizesKept.refl (s : IxIndexHandle K) : SizesKept s s := ⟨rfl, fun _ => rfl⟩

/-- One change after another. -/
theorem SizesKept.trans (h : SizesKept s s') (h' : SizesKept s' s'') : SizesKept s s'' :=
  ⟨h'.numPages.trans h.numPages, fun x => (h'.numKey x).trans (h.numKey x)⟩

/-- A node changes but not its size. -/
theorem sizesKept_modify (s : IxIndexHandle K) (p : Int) (f : IxNode K → IxNode K)
    (hf : (f (s.page p)).numKey = (s.page p).numKey) : SizesKept s (s.modify p f) where
  numPages := rfl
  numKey x := by
    rw [page_modify]
    split
    · rename_i hx
      rw [hx, hf]
    · rfl

/-- The parents of the children change. -/
theorem sizesKept_maintainChild (s : IxIndexHandle K) (p : Int) (i : Nat) :
    SizesKept s (s.maintainChild p i) := by
  unfold maintainChild
  split
  · exact SizesKept.refl s
  · exact sizesKept_modify s _ _ rfl

/-- The separators change. -/
theorem sizesKept_maintainParent [DecidableEq K] {fuel : Nat}
    (h : maintainParent fuel s p = .ok s') : SizesKept s s' := by
  induction fuel generalizing s p with
  | zero => cases h
  | succ fuel ih =>
    rw [maintainParent] at h
    split at h
    · cases h
      exact SizesKept.refl _
    · obtain ⟨rank, -, h⟩ := bind_eq_ok.mp h
      split at h
      · cases h
        exact SizesKept.refl _
      · exact (sizesKept_modify s (s.page p).parent _ rfl).trans (ih h)

/-- One pair less. -/
theorem numKey_erasePair {n n' : IxNode K} {pos : Nat} (h : n.erasePair pos = .ok n') :
    n'.numKey + 1 = n.numKey := by
  unfold IxNode.erasePair at h
  split at h
  · cases h
  · cases h
    show n.numKey - 1 + 1 = n.numKey
    omega

/-- The parent stays. -/
theorem parent_erasePair {n n' : IxNode K} {pos : Nat} (h : n.erasePair pos = .ok n') :
    n'.parent = n.parent := by
  unfold IxNode.erasePair at h
  split at h
  · cases h
  · cases h
    rfl

/-- **`redistribute`** moves one pair. -/
theorem redistribute_sizes [DecidableEq K] {neighbor : Int} {index : Nat}
    (h : s.redistribute neighbor p index = .ok s') : s'.numPages = s.numPages ∧
      if neighbor = p then (s'.page p).numKey = (s.page p).numKey
      else (s'.page neighbor).numKey + 1 = (s.page neighbor).numKey := by
  -- the pair is inserted and erased; the rest keeps the sizes
  have hmove : ∀ {s₁ : IxIndexHandle K} {m : IxNode K} {i j : Nat} {k : K} {r : Rid},
      ((s.modify p fun n => n.insertPair i k r).page neighbor).erasePair j = .ok m →
      SizesKept ((s.modify p fun n => n.insertPair i k r).set neighbor m) s₁ →
      s₁.numPages = s.numPages ∧
        if neighbor = p then (s₁.page p).numKey = (s.page p).numKey
        else (s₁.page neighbor).numKey + 1 = (s.page neighbor).numKey := by
    intro s₁ m i j k r hm hkept
    refine ⟨hkept.numPages, ?_⟩
    have hset : (((s.modify p fun n => n.insertPair i k r).set neighbor m).page neighbor).numKey =
        m.numKey := by
      show (Function.update (s.modify p fun n => n.insertPair i k r).page neighbor m neighbor).numKey = _
      rw [Function.update_self]
    have hsize := numKey_erasePair hm
    rw [page_modify] at hsize
    by_cases hnp : neighbor = p
    · subst hnp
      rw [if_pos rfl] at hsize
      rw [if_pos rfl, hkept.numKey, hset]
      have hins : ((s.page neighbor).insertPair i k r).numKey = (s.page neighbor).numKey + 1 := rfl
      omega
    · rw [if_neg hnp] at hsize
      rw [if_neg hnp, hkept.numKey, hset]
      exact hsize
  unfold redistribute at h
  dsimp only at h
  split at h
  · obtain ⟨m, hm, h⟩ := bind_eq_ok.mp h
    exact hmove hm ((sizesKept_maintainChild _ _ _).trans (sizesKept_maintainParent h))
  · obtain ⟨m, hm, h⟩ := bind_eq_ok.mp h
    obtain ⟨s₁, hs₁, h⟩ := bind_eq_ok.mp h
    cases h
    exact hmove hm ((sizesKept_maintainParent hs₁).trans (sizesKept_maintainChild _ _ _))

/-- **`coalesce`** gives up a page. -/
theorem numPages_coalesce [Ord K] {neighbor parent : Int} {index : Nat}
    (h : s.coalesce neighbor p parent index = .ok s') : s'.numPages = s.numPages - 1 := by
  rw [coalesce_eq] at h
  obtain ⟨m, -, h⟩ := bind_eq_ok.mp h
  cases h
  exact numPages_mergeNodes s _ _

/-- **What a deletion does to the sizes** after the pair is gone: a page less, or no more pairs in
    `p` than a sibling has lost. -/
theorem coalesceOrRedistribute_sizes [Ord K] [DecidableEq K] {fuel : Nat}
    (h : coalesceOrRedistribute fuel s p = .ok s') : s'.numPages < s.numPages ∨
      (s'.numPages = s.numPages ∧ ((s'.page p).numKey = (s.page p).numKey ∨
        ∃ b ≠ p, (s'.page b).numKey + 1 = (s.page b).numKey)) := by
  induction fuel generalizing s s' p with
  | zero => cases h
  | succ fuel ih =>
    cases hroot : (s.page p).isRootPage with
    | true =>
      rw [coalesceOrRedistribute, hroot, if_pos rfl] at h
      cases h
      unfold adjustRoot
      dsimp only
      split
      · refine Or.inl ?_
        show s.numPages - 1 < s.numPages
        omega
      · exact Or.inr ⟨rfl, Or.inl rfl⟩
    | false =>
      by_cases hsize : s.minSize ≤ (s.page p).numKey
      · rw [coalesceOrRedistribute, hroot, if_neg Bool.false_ne_true, if_pos hsize] at h
        have hkept := sizesKept_maintainParent h
        exact Or.inr ⟨hkept.numPages, Or.inl (hkept.numKey p)⟩
      · rw [coalesceOrRedistribute_eq fuel hroot (Nat.lt_of_not_le hsize)] at h
        obtain ⟨⟨brother, pos⟩, -, h⟩ := bind_eq_ok.mp h
        dsimp only at h
        split at h
        · obtain ⟨hpages, hkeys⟩ := redistribute_sizes h
          refine Or.inr ⟨hpages, ?_⟩
          split at hkeys
          · exact Or.inl hkeys
          · rename_i hne
            exact Or.inr ⟨brother, hne, hkeys⟩
        · obtain ⟨s₁, hs₁, h⟩ := bind_eq_ok.mp h
          have hpages := numPages_coalesce hs₁
          left
          rcases ih h with hlt | ⟨heq, -⟩ <;> omega

end Sizes

/-! ### Nothing is left as it was -/

/-- The same tree: its pages, their pairs and their links. -/
structure SameTree (s s' : IxIndexHandle K) : Prop where
  root : s'.rootPage = s.rootPage
  firstLeaf : s'.firstLeaf = s.firstLeaf
  lastLeaf : s'.lastLeaf = s.lastLeaf
  numPages : s'.numPages = s.numPages
  entries : ∀ p, (s'.page p).entries = (s.page p).entries
  links : ∀ p, (s'.page p).parent = (s.page p).parent ∧ (s'.page p).isLeaf = (s.page p).isLeaf ∧
    (s'.page p).prevLeaf = (s.page p).prevLeaf ∧ (s'.page p).nextLeaf = (s.page p).nextLeaf

variable [Ord K] [DecidableEq K]

/-- The deletion returns or throws, the tree is the same and nothing is held. -/
def LeavesUntouched (s : IxIndexHandle K) (key : K) : Prop :=
  match s.deleteEntryLatched key with
  | .ok (s', l) => SameTree s s' ∧ l.Released
  | .error (.error (.rmdbError _), l) => l.Released
  | .error _ => False

/-- **No deletion leaves the index untouched**, whatever the index and the key: `delete_entry` erases
    the pair at `lower_bound` of the key, or throws with the leaf latched. -/
theorem not_leavesUntouched (s : IxIndexHandle K) (key : K) : ¬ s.LeavesUntouched key := by
  unfold LeavesUntouched
  split
  · rename_i s' l hrun
    rintro ⟨hsame, -⟩
    have hdel := deleteEntry_of_latched hrun
    unfold deleteEntry at hdel
    obtain ⟨p, -, hdel⟩ := bind_eq_ok.mp hdel
    obtain ⟨n, hn, hdel⟩ := bind_eq_ok.mp hdel
    have hsize := numKey_erasePair hn
    have hnumKey : ∀ x, (s'.page x).numKey = (s.page x).numKey := by
      intro x
      rw [← IxNode.length_entries, hsame.entries, IxNode.length_entries]
    have hset := page_set s p n
    rcases coalesceOrRedistribute_sizes hdel with hlt | ⟨-, hkeys | ⟨b, hb, hkeys⟩⟩
    · have hpages := hsame.numPages
      have hkept : (s.set p n).numPages = s.numPages := rfl
      omega
    · rw [hset, if_pos rfl, hnumKey] at hkeys
      omega
    · rw [hset, if_neg hb, hnumKey] at hkeys
      omega
  · rename_i msg l hrun
    rintro ⟨-, hpages, -⟩
    -- a throw comes after `find_leaf_page`, and the leaf is latched until the end
    have hspec := findLeafLatched_spec s key
    unfold deleteEntryLatched at hrun
    have hleaf : ∃ p, p ∈ l.pages := by
      rcases bind_eq_error.mp hrun with hrun | ⟨⟨p, l₁⟩, hfind, hrun⟩
      · revert hspec
        cases s.findLeafPage key with
        | ok p =>
          rintro ⟨l₂, hl₂, -⟩
          rw [hrun] at hl₂
          cases hl₂
        | error e =>
          rintro ⟨l₂, hl₂, rfl⟩
          rw [hrun] at hl₂
          cases hl₂
      · have hp : p ∈ l₁.pages := by
          revert hspec
          cases s.findLeafPage key with
          | ok q =>
            rintro ⟨l₂, hl₂, -, hmem⟩
            rw [hfind] at hl₂
            cases hl₂
            exact hmem
          | error e =>
            rintro ⟨l₂, hl₂, -⟩
            rw [hfind] at hl₂
            cases hl₂
        rcases bind_eq_error.mp hrun with hrun | ⟨n, -, hrun⟩
        · obtain ⟨e, -, he⟩ := mapError_eq_error.mp hrun
          cases he
          exact ⟨p, hp⟩
        rcases bind_eq_error.mp hrun with hrun | ⟨⟨b, s₁, l₂⟩, -, hrun⟩
        · exact ⟨p, pages_of_throw hp hrun⟩
        · cases hrun
    obtain ⟨p, hp⟩ := hleaf
    rw [hpages] at hp
    cases hp
  · exact id

/-- **Another key is erased.** The index holds 5 only; `delete_entry` of 3 erases it, and `delete_entry`
    of 7 throws with the root latched. -/
theorem deleteEntry_absent_key : ∃ s s' : IxIndexHandle (IxKey [(.int, 4)]),
    (create 338).insertEntries [(intKey 5, ⟨1, 0⟩)] = .ok s ∧
    s.getValue (intKey 3) = .ok none ∧ s.getValue (intKey 7) = .ok none ∧
    (∃ l, s.deleteEntryLatched (intKey 3) = .ok (s', l)) ∧ s'.getValue (intKey 5) = .ok none ∧
    (∃ l, s.deleteEntryLatched (intKey 7) = .error (.error (.rmdbError "erase_pair pos wrong!"), l) ∧
      l.pages = [2]) ∧
    ¬ s.LeavesUntouched (intKey 3) ∧ ¬ s.LeavesUntouched (intKey 7) := by
  refine ⟨_, _, rfl, rfl, rfl, ⟨_, rfl⟩, rfl, ⟨_, rfl, rfl⟩, ?_, ?_⟩
  · rintro ⟨hsame, -⟩
    have hsize := congrArg List.length (hsame.entries 2)
    cases hsize
  · rintro ⟨-, hpages, -⟩
    cases hpages

end IxIndexHandle

end Rmdb
