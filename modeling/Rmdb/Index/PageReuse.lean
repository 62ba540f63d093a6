import Rmdb.Index.RankedPages

namespace Rmdb

open Lib Std

namespace IxIndexHandle

/-!
# Page numbers over several sessions

`create_node` takes its page number from a counter of the disk manager, and `open_index` sets the
counter to `num_pages_`.  A merge takes one from `num_pages_` although the page it gives up is hardly
ever the last one.

* `createCalls` — the states in which `insert_entry` calls `create_node`;
* `insertEntry_ranked`, `deleteEntry_ranked` — the operations keep ranked pages;
* `indexSessions` — any calls on one index, which may be closed and opened again at any time;
* `createNode_fresh` — if every node has a number below `num_pages_` whenever the index is opened
  again, all pages created are new;
* `createNode_returns_root` — otherwise the root itself may be created again.
-/

variable {K : Type} {s s' s'' : IxIndexHandle K} {T new : Set Int} {rank : Int → Nat} {p q : Int}

/-! ### `insert_entry` -/

section Insert

variable [Inhabited K] [Ord K]

/-- What `create_node` returns is neither of the first two pages nor a node of the tree. -/
def CreatesFresh (s : IxIndexHandle K) : Prop :=
  s.createNode.1 ≠ 0 ∧ s.createNode.1 ≠ 1 ∧ ∀ d, ¬ s.Node s.createNode.1 d

/-- The states in which `insert_into_parent` calls `create_node`, itself or in `split`. -/
def parentCreateCalls : Nat → IxIndexHandle K → Int → Int → List (IxIndexHandle K)
  | 0, _, _, _ => []
  | fuel + 1, s, old, new =>
    if (s.page old).isRootPage then [s]
    else
      let p := (s.page new).parent
      let s := s.insertInto p ((s.page new).keys 0) ⟨new, -1⟩
      if (s.page p).numKey = s.maxSize then
        let (q, t) := s.split p
        s :: parentCreateCalls fuel t p q
      else []

/-- The states in which `insert_entry` calls `create_node`. -/
def createCalls [DecidableEq K] (s : IxIndexHandle K) (key : K) (value : Rid) :
    List (IxIndexHandle K) :=
  match s.findLeafPage key with
  | .error _ => []
  | .ok p =>
    match (s.insertInto p key value).maintainParent s.fuel p with
    | .error _ => []
    | .ok s =>
      if (s.page p).numKey = s.maxSize then
        let (q, t) := s.split p
        s :: parentCreateCalls t.fuel t p q
      else []

omit [Ord K] in
theorem Ranked.createsFresh (h : Ranked s T rank new) : s.CreatesFresh := by
  have hroot := h.range _ h.rootMem
  refine ⟨?_, ?_, fun d hd => ?_⟩
  · show s.nextPage ≠ 0
    omega
  · show s.nextPage ≠ 1
    omega
  · exact Int.lt_irrefl _ (h.range _ (h.mem_of_node hd)).2

omit [Ord K] in
/-- **A node is split**, if its halves are large enough to be inner nodes. -/
theorem Ranked.split (h : Ranked s T rank ∅) (hp : p ∈ T) (hsize : 4 ≤ (s.page p).numKey) :
    ∃ s', s.split p = (s.nextPage, s') ∧
      Pending s' (insert s.nextPage T) (s.withNew rank p) p s.nextPage := by
  cases hleaf : (s.page p).isLeaf with
  | true => exact h.split_leaf hp hleaf
  | false => exact h.split_inner hp hleaf hsize

/-- **`insert_into_parent`**, level by level: every page it creates is new, and what it leaves is
    ranked. -/
theorem insertIntoParent_ranked (fuel : Nat) (h : Pending s T rank p q) :
    (∀ c ∈ parentCreateCalls fuel s p q, c.CreatesFresh) ∧
      ∀ s', insertIntoParent fuel s p q = .ok s' → ∃ T' rank', Ranked s' T' rank' ∅ := by
  induction fuel generalizing s T rank p q with
  | zero =>
    refine ⟨by simp [parentCreateCalls], fun s' hs' => ?_⟩
    cases hs'
  | succ fuel ih =>
    by_cases hparent : (s.page p).parent = -1
    · have hp := h.ranked.range p h.mem
      have hq := h.ranked.range q h.memNew
      obtain ⟨s₁, hrun, hnew⟩ := insertIntoParent_newRoot fuel hparent
        (Int.ne_of_lt hp.2) (Int.ne_of_lt hq.2) (Ne.symm h.ne)
      have hroot : (s.page p).isRootPage = true := decide_eq_true hparent
      refine ⟨fun c hc => ?_, fun s' hs' => ?_⟩
      · rw [parentCreateCalls, if_pos hroot, List.mem_singleton] at hc
        rw [hc]
        exact h.ranked.createsFresh
      · rw [hrun] at hs'
        cases hs'
        exact ⟨_, _, h.newRoot hparent hnew⟩
    · have hroot : p ≠ s.rootPage := by
        rintro rfl
        exact hparent h.ranked.rootParent
      have hnotRoot : ¬ (s.page p).isRootPage = true := by
        unfold IxNode.isRootPage
        rwa [decide_eq_true_eq]
      obtain ⟨hlink, hPT, hPinner, -⟩ := h.link hroot (s.firstKey q)
      have hP := h.ranked.range _ hPT
      have hsucc := insertIntoParent_succ fuel (s := s) (p := p) (q := q) rfl h.parent_eq hP.1
      have hcalls : parentCreateCalls (fuel + 1) s p q =
          if ((s.insertInto (s.page p).parent (s.firstKey q) ⟨q, -1⟩).page (s.page p).parent).numKey =
            s.maxSize then
            (s.insertInto (s.page p).parent (s.firstKey q) ⟨q, -1⟩) :: parentCreateCalls fuel
              ((s.insertInto (s.page p).parent (s.firstKey q) ⟨q, -1⟩).split (s.page p).parent).2
              (s.page p).parent
              ((s.insertInto (s.page p).parent (s.firstKey q) ⟨q, -1⟩).split (s.page p).parent).1
          else [] := by
        rw [parentCreateCalls, if_neg hnotRoot]
        dsimp only
        rw [h.parent_eq]
        rfl
      have hmax : (s.insertInto (s.page p).parent (s.firstKey q) ⟨q, -1⟩).maxSize = s.maxSize := rfl
      rw [hcalls, hsucc]
      generalize (s.page p).parent = P at *
      generalize s.insertInto P (s.firstKey q) ⟨q, -1⟩ = s₁ at *
      by_cases hfull : (s₁.page P).numKey = s.maxSize
      · -- the parent is full, so it is split in its turn
        have horder := hlink.order
        obtain ⟨t, hsplit, hpending⟩ := hlink.split hPT (by
          rw [hfull, ← hmax]
          unfold maxSize
          omega)
        obtain ⟨hih, hihs⟩ := ih hpending
        rw [if_pos hfull, if_pos hfull, hsplit]
        refine ⟨List.forall_mem_cons.mpr ⟨hlink.createsFresh, hih⟩, fun s' hs' => ?_⟩
        obtain ⟨s₂, hs₂, hs'⟩ := bind_eq_ok.mp hs'
        rw [hsplit] at hs₂
        obtain ⟨T', rank', hr'⟩ := hihs s₂ hs₂
        cases hs'
        refine ⟨T', rank', hr'.congr ?_⟩
        split
        · exact SameLevels.of_pages rfl rfl rfl rfl
        · exact SameLevels.refl _ _
      · rw [if_neg hfull, if_neg hfull]
        refine ⟨by simp, fun s' hs' => ?_⟩
        cases hs'
        exact ⟨_, _, hlink⟩

/-- **`insert_entry`** creates new pages only and leaves ranked pages. -/
theorem insertEntry_ranked [DecidableEq K] (h : Ranked s T rank ∅) (key : K) (value : Rid) :
    (∀ c ∈ s.createCalls key value, c.CreatesFresh) ∧
      ∀ p s', s.insertEntry key value = .ok (p, s') → ∃ T' rank', Ranked s' T' rank' ∅ := by
  unfold createCalls
  cases hfind : s.findLeafPage key with
  | error e =>
    refine ⟨by simp, fun p s' hs' => ?_⟩
    unfold insertEntry at hs'
    rw [hfind] at hs'
    cases hs'
  | ok p =>
    obtain ⟨hp, hleaf⟩ := h.findLeafFrom h.rootMem hfind
    dsimp only
    cases hmaintain : (s.insertInto p key value).maintainParent s.fuel p with
    | error e =>
      refine ⟨by simp, fun p' s' hs' => ?_⟩
      unfold insertEntry at hs'
      rw [hfind] at hs'
      obtain ⟨p₁, hp₁, hs'⟩ := bind_eq_ok.mp hs'
      cases hp₁
      obtain ⟨s₁, hs₁, -⟩ := bind_eq_ok.mp hs'
      rw [hmaintain] at hs₁
      cases hs₁
    | ok s₁ =>
      have hs : SameLevels s s₁ T :=
        (SameLevels.insertInto_leaf hleaf key value).trans (SameLevels.maintainParent hmaintain)
      have hr := h.congr hs
      -- what the call does with the leaf
      have hrest : ∀ p' s', s.insertEntry key value = .ok (p', s') →
          (if (s₁.page p).numKey = s₁.maxSize then do
            let (q, s) := s₁.split p
            let s ← insertIntoParent s.fuel s p q
            return (p, if p = s.lastLeaf then { s with lastLeaf := q } else s)
          else return (p, s₁) : Except IxError _) = .ok (p', s') := by
        intro p' s' hs'
        unfold insertEntry at hs'
        rw [hfind] at hs'
        obtain ⟨p₁, hp₁, hs'⟩ := bind_eq_ok.mp hs'
        cases hp₁
        obtain ⟨s₂, hs₂, hs'⟩ := bind_eq_ok.mp hs'
        rw [hmaintain] at hs₂
        cases hs₂
        exact hs'
      dsimp only
      by_cases hfull : (s₁.page p).numKey = s₁.maxSize
      · have horder := hr.order
        obtain ⟨t, hsplit, hpending⟩ := hr.split hp (by
          rw [hfull]
          unfold maxSize
          omega)
        obtain ⟨hcalls, hres⟩ := insertIntoParent_ranked t.fuel hpending
        rw [if_pos hfull, hsplit]
        refine ⟨List.forall_mem_cons.mpr ⟨hr.createsFresh, hcalls⟩, fun p' s' hs' => ?_⟩
        have hs₁ := hrest p' s' hs'
        rw [if_pos hfull, hsplit] at hs₁
        obtain ⟨s₂, hs₂, hs₁⟩ := bind_eq_ok.mp hs₁
        obtain ⟨T', rank', hr'⟩ := hres s₂ hs₂
        cases hs₁
        refine ⟨T', rank', hr'.congr ?_⟩
        split
        · exact SameLevels.of_pages rfl rfl rfl rfl
        · exact SameLevels.refl _ _
      · rw [if_neg hfull]
        refine ⟨by simp, fun p' s' hs' => ?_⟩
        have hs₁ := hrest p' s' hs'
        rw [if_neg hfull] at hs₁
        cases hs₁
        exact ⟨T, rank, hr⟩

end Insert

/-! ### `delete_entry` -/

section Delete

theorem findChild_eq_ok {n : IxNode K} {c : Int} {i : Nat} (h : n.findChild c = .ok i) :
    i < n.numKey ∧ n.valueAt i = c := by
  unfold IxNode.findChild at h
  split at h
  · rename_i j hj
    cases h
    exact ⟨List.mem_range.mp (List.mem_of_find?_eq_some hj), by simpa using List.find?_some hj⟩
  · cases h

theorem entries_erasePair {n n' : IxNode K} {pos : Nat} (h : n.erasePair pos = .ok n') :
    n'.entries.Sublist n.entries := by
  unfold IxNode.erasePair at h
  split at h
  · cases h
  · rename_i hpos
    cases h
    rw [IxNode.entries_shiftDown n (Nat.lt_of_not_le hpos)]
    have hsub := List.Sublist.append_left (List.drop_sublist_drop_left n.entries (Nat.le_succ pos))
      (n.entries.take pos)
    rwa [List.take_append_drop] at hsub

/-- **An inner node loses a child**, and has at least two left. -/
theorem Ranked.eraseChild (h : Ranked s T rank ∅) {n : IxNode K} {pos : Nat}
    (hn : (s.page p).erasePair pos = .ok n) (hsize : 2 ≤ n.numKey) :
    Ranked (s.set p n) T rank ∅ := by
  have hpage := page_set s p n
  have hleaf : ∀ x, ((s.set p n).page x).isLeaf = (s.page x).isLeaf := by
    intro x
    rw [hpage]
    split
    · rw [isLeaf_erasePair hn, ‹x = p›]
    · rfl
  have hparent : ∀ x, ((s.set p n).page x).parent = (s.page x).parent := by
    intro x
    rw [hpage]
    split
    · rw [parent_erasePair hn, ‹x = p›]
    · rfl
  -- one child less, and nothing else is different
  have hchildren : ∀ x, ((s.set p n).children x).Sublist (s.children x) := by
    intro x
    unfold children
    rw [hpage]
    split
    · rename_i hx
      rw [hx]
      exact (entries_erasePair hn).map _
    · exact List.Sublist.refl _
  refine ⟨h.order, h.rootMem, ?_, h.range, fun x hx => ?_, fun x hx hi => ?_, fun x hx hi c hc => ?_,
    fun x hx hi => ?_, fun x hx hxr hxn => ?_⟩
  · rw [hparent]
    exact h.rootParent
  · rw [hleaf]
    exact h.leaf x hx
  · rw [hleaf] at hi
    rw [hpage]
    split
    · exact hsize
    · exact h.size x hx hi
  · rw [hleaf] at hi
    rw [hparent]
    exact h.child x hx hi c ((hchildren x).subset hc)
  · rw [hleaf] at hi
    exact (h.nodup x hx hi).sublist (hchildren x)
  · unfold HasParent
    rw [hparent, hleaf]
    exact h.parent x hx hxr hxn

/-- The sibling of a leaf is another leaf. -/
theorem Ranked.sibling [Ord K] (h : Ranked s T rank ∅) (hp : p ∈ T) (hleaf : (s.page p).isLeaf = true)
    (hparent : HasParent s T rank p) {brother : Int} {pos : Nat}
    (hargs : s.siblingArgs p = .ok (brother, pos)) :
    brother ∈ T ∧ (s.page brother).isLeaf = true ∧ brother ≠ p := by
  obtain ⟨hfT, hfinner, hfrank⟩ := hparent
  unfold siblingArgs at hargs
  obtain ⟨index, hindex, hargs⟩ := bind_eq_ok.mp hargs
  cases hargs
  obtain ⟨hlt, hval⟩ := findChild_eq_ok hindex
  have hsize := h.size _ hfT hfinner
  have hnd := h.nodup _ hfT hfinner
  -- both are children of the same node
  have hchild : ∀ i, i < (s.page (s.page p).parent).numKey → i ≠ index →
      (s.page (s.page p).parent).valueAt i ∈ T ∧
        (s.page ((s.page (s.page p).parent).valueAt i)).isLeaf = true ∧
        (s.page (s.page p).parent).valueAt i ≠ p := by
    intro i hi hne
    obtain ⟨hcT, hcr, -⟩ := h.child _ hfT hfinner _ (valueAt_mem_children hi)
    refine ⟨hcT, (h.leaf _ hcT).mpr ?_, fun hip => hne ?_⟩
    · have := (h.leaf p hp).mp hleaf
      omega
    · exact valueAt_inj hnd hi hlt (hip.trans hval.symm)
  by_cases h0 : index = 0
  · rw [if_pos h0]
    exact hchild 1 (by omega) (by omega)
  · rw [if_neg h0]
    exact hchild 0 (by omega) (Ne.symm h0)

/-- **Two leaves share their pairs in another way.** -/
theorem SameLevels.redistribute [DecidableEq K] {neighbor : Int} {index : Nat}
    (hp : (s.page p).isLeaf = true) (hm : (s.page neighbor).isLeaf = true)
    (h : s.redistribute neighbor p index = .ok s') : SameLevels s s' T := by
  -- a pair goes into `p` and out of its neighbour
  have hmove : ∀ {i : IxNode K → Nat} {j : Nat} {k : K} {r : Rid} {m : IxNode K},
      ((s.modify p fun n => n.insertPair (i n) k r).page neighbor).erasePair j = .ok m →
      SameLevels s ((s.modify p fun n => n.insertPair (i n) k r).set neighbor m) T ∧
        (((s.modify p fun n => n.insertPair (i n) k r).set neighbor m).page p).isLeaf = true := by
    intro i j k r m hmj
    have hone : SameLevels s (s.modify p fun n => n.insertPair (i n) k r) T :=
      SameLevels.modify _ rfl rfl fun hi => by
        rw [hp] at hi
        cases hi
    have hleaf : ∀ x, ((s.modify p fun n => n.insertPair (i n) k r).page x).isLeaf =
        (s.page x).isLeaf := by
      intro x
      rw [page_modify]
      split
      · rw [‹x = p›]
        rfl
      · rfl
    refine ⟨hone.trans (SameLevels.set_leaf ?_ ?_ (parent_erasePair hmj)), ?_⟩
    · rw [hleaf, hm]
    · rw [isLeaf_erasePair hmj, hleaf, hm]
    · rw [page_set]
      split
      · rw [isLeaf_erasePair hmj, hleaf, hm]
      · rw [hleaf, hp]
  unfold IxIndexHandle.redistribute at h
  dsimp only at h
  split at h
  · obtain ⟨m, hmj, h⟩ := bind_eq_ok.mp h
    obtain ⟨hsame, hleaf⟩ := hmove hmj
    rw [maintainChild_leaf hleaf] at h
    exact hsame.trans (SameLevels.maintainParent h)
  · obtain ⟨m, hmj, h⟩ := bind_eq_ok.mp h
    obtain ⟨s₁, hs₁, h⟩ := bind_eq_ok.mp h
    cases h
    obtain ⟨hsame, hleaf⟩ := hmove hmj
    have hkeys : SameLevels _ s₁ {p} := SameLevels.maintainParent hs₁
    rw [maintainChild_leaf (by rw [hkeys.isLeaf p rfl, hleaf])]
    exact hsame.trans (SameLevels.maintainParent hs₁)

/-- **Two leaves are merged.** -/
theorem SameLevels.mergeNodes {left right : Int} (hne : left ≠ right)
    (hleft : (s.page left).isLeaf = true) (hright : (s.page right).isLeaf = true) :
    SameLevels s (s.mergeNodes left right) T := by
  rw [mergeNodes_leaf hne hleft hright]
  refine ⟨rfl, rfl, Int.le_refl _, fun x _ => ?_, fun x _ => ?_, fun x _ hx => ?_⟩
  · dsimp only
    split <;> split <;> split <;> simp_all [mergedNode, IxNode.insertPairs]
  · dsimp only
    split <;> split <;> split <;> simp_all [mergedNode, IxNode.insertPairs]
  · have hxl : x ≠ left := by
      rintro rfl
      rw [hleft] at hx
      cases hx
    unfold IxIndexHandle.children
    dsimp only
    rw [if_neg hxl]
    split <;> split <;> rfl

variable [Ord K] [DecidableEq K]

/-- **`coalesce_or_redistribute` of a leaf**, with the pointers of `delete_entry`.  A call that merges
    returns only if the parent keeps enough children: the recursive call has no pointers to work
    with otherwise. -/
theorem coalesceOrRedistribute_ranked {fuel : Nat} (h : Ranked s T rank ∅) (hp : p ∈ T)
    (hleaf : (s.page p).isLeaf = true) {b : Bool} {l l' : Latches}
    (hrun : coalesceOrRedistributeLatched fuel true s l p = .ok (b, s', l')) :
    Ranked s' T rank ∅ := by
  cases fuel with
  | zero => cases hrun
  | succ fuel =>
    rw [coalesceOrRedistributeLatched] at hrun
    by_cases hroot : (s.page p).isRootPage = true
    · rw [if_pos hroot, if_pos rfl] at hrun
      cases hrun
      have hstay : s.adjustRoot p = s := by
        unfold adjustRoot
        simp [hleaf]
      rw [hstay]
      exact h
    rw [if_neg hroot] at hrun
    by_cases hsize : s.minSize ≤ (s.page p).numKey
    · rw [if_pos hsize] at hrun
      obtain ⟨s₁, hs₁, hrun⟩ := bind_eq_ok.mp hrun
      cases hrun
      exact h.congr (SameLevels.maintainParent (mapError_eq_ok.mp hs₁))
    rw [if_neg hsize] at hrun
    have hnotRoot : p ≠ s.rootPage := by
      rintro rfl
      exact hroot (decide_eq_true h.rootParent)
    have hparent := h.parent p hp hnotRoot (Set.notMem_empty p)
    obtain ⟨⟨brother, pos⟩, hargs, hrun⟩ := bind_eq_ok.mp hrun
    obtain ⟨-, hbrother, hne⟩ := h.sibling hp hleaf hparent (mapError_eq_ok.mp hargs)
    dsimp only at hrun
    split at hrun
    · obtain ⟨s₁, hs₁, hrun⟩ := bind_eq_ok.mp hrun
      rw [if_pos rfl] at hrun
      cases hrun
      exact h.congr (SameLevels.redistribute hleaf hbrother (mapError_eq_ok.mp hs₁))
    · obtain ⟨s₁, hs₁, hrun⟩ := bind_eq_ok.mp hrun
      obtain ⟨⟨b₁, s₂, l₂⟩, hs₂, hrun⟩ := bind_eq_ok.mp hrun
      rw [if_pos rfl] at hrun
      cases hrun
      have hcoalesce := mapError_eq_ok.mp hs₁
      rw [coalesce_eq] at hcoalesce
      obtain ⟨m, hm, hcoalesce⟩ := bind_eq_ok.mp hcoalesce
      cases hcoalesce
      have hmerged : SameLevels s (s.mergeNodes (if pos = 0 then p else brother)
          (if pos = 0 then brother else p)) T := by
        split
        · exact SameLevels.mergeNodes (Ne.symm hne) hleaf hbrother
        · exact SameLevels.mergeNodes hne hbrother hleaf
      have hr := h.congr hmerged
      generalize s.mergeNodes (if pos = 0 then p else brother) (if pos = 0 then brother else p) = t
        at hm hs₂ hr
      -- the recursive call returns only if the parent is large enough
      cases fuel with
      | zero => cases hs₂
      | succ fuel =>
        rw [coalesceOrRedistributeLatched] at hs₂
        split at hs₂
        · rw [if_neg Bool.false_ne_true] at hs₂
          cases hs₂
        · split at hs₂
          · rename_i hmin
            obtain ⟨s₃, hs₃, hs₂⟩ := bind_eq_ok.mp hs₂
            cases hs₂
            refine Ranked.congr ?_ (SameLevels.maintainParent (mapError_eq_ok.mp hs₃))
            refine hr.eraseChild hm ?_
            have horder := hr.order
            rw [page_set, if_pos rfl] at hmin
            unfold minSize maxSize at hmin
            have hkept : (t.set (s.page p).parent m).btreeOrder = t.btreeOrder := rfl
            omega
          · obtain ⟨⟨brother', pos'⟩, -, hs₂⟩ := bind_eq_ok.mp hs₂
            dsimp only at hs₂
            split at hs₂
            · obtain ⟨s₃, -, hs₂⟩ := bind_eq_ok.mp hs₂
              cases hs₂
            · obtain ⟨s₃, -, hs₂⟩ := bind_eq_ok.mp hs₂
              obtain ⟨⟨b₃, s₄, l₄⟩, -, hs₂⟩ := bind_eq_ok.mp hs₂
              cases hs₂

/-- **`delete_entry`** leaves ranked pages. -/
theorem deleteEntry_ranked (h : Ranked s T rank ∅) {key : K} {l : Latches}
    (hrun : s.deleteEntryLatched key = .ok (s', l)) : Ranked s' T rank ∅ := by
  unfold deleteEntryLatched at hrun
  obtain ⟨⟨p, l₁⟩, hfind, hrun⟩ := bind_eq_ok.mp hrun
  obtain ⟨n, hn, hrun⟩ := bind_eq_ok.mp hrun
  obtain ⟨⟨b, s₁, l₂⟩, hs₁, hrun⟩ := bind_eq_ok.mp hrun
  cases hrun
  have hspec := findLeafLatched_spec s key
  cases hleaf : s.findLeafPage key with
  | error e =>
    rw [hleaf] at hspec
    obtain ⟨l₃, hl₃, -⟩ := hspec
    rw [hfind] at hl₃
    cases hl₃
  | ok q =>
    rw [hleaf] at hspec
    obtain ⟨l₃, hl₃, -⟩ := hspec
    rw [hfind] at hl₃
    cases hl₃
    obtain ⟨hpT, hpleaf⟩ := h.findLeafFrom h.rootMem hleaf
    have herase := mapError_eq_ok.mp hn
    have hnleaf : n.isLeaf = true := (isLeaf_erasePair herase).trans hpleaf
    have hsame : SameLevels s (s.set p n) T :=
      SameLevels.set_leaf hpleaf hnleaf (parent_erasePair herase)
    refine coalesceOrRedistribute_ranked (h.congr hsame) hpT ?_ hs₁
    rw [page_set, if_pos rfl]
    exact hnleaf

end Delete

/-! ### Sessions -/

section Sessions

/-- A call on an index, or `close_index` and `open_index`. -/
inductive SessionOp (K : Type) where
  | insert (key : K) (value : Rid)
  | delete (key : K)
  | reopen

/-- `close_index` and `open_index`: the pages and the header stay, but the page numbers go on at
    `num_pages_`. -/
def reopen (s : IxIndexHandle K) : IxIndexHandle K := { s with nextPage := s.numPages }

/-- Every node has a number below `num_pages_`, if the index is now opened again. -/
def SessionOp.Keeps (s : IxIndexHandle K) (op : SessionOp K) (_ : IxIndexHandle K) : Prop :=
  match op with
  | .reopen => ∀ p d, s.Node p d → p < s.numPages
  | _ => True

/-- A fresh index has one leaf. -/
theorem ranked_create [Inhabited K] {btreeOrder : Nat} (h : 3 ≤ btreeOrder) :
    Ranked (create btreeOrder : IxIndexHandle K) {2} (fun _ => 0) ∅ where
  order := h
  rootMem := rfl
  rootParent := rfl
  range p hp := by
    rw [Set.mem_singleton_iff.mp hp]
    exact ⟨by decide, show (2 : Int) < 3 by decide⟩
  leaf p hp := by
    rw [Set.mem_singleton_iff.mp hp]
    exact ⟨fun _ => rfl, fun _ => rfl⟩
  size p hp hinner := by
    rw [Set.mem_singleton_iff.mp hp] at hinner
    exact Bool.noConfusion hinner
  child p hp hinner := by
    rw [Set.mem_singleton_iff.mp hp] at hinner
    exact Bool.noConfusion hinner
  nodup p hp hinner := by
    rw [Set.mem_singleton_iff.mp hp] at hinner
    exact Bool.noConfusion hinner
  parent p hp hroot _ := absurd (Set.mem_singleton_iff.mp hp) hroot

/-- **An index opened again** has ranked pages, namely its nodes, if their numbers are below
    `num_pages_`. -/
theorem Ranked.reopen (h : Ranked s T rank ∅) (hkeep : ∀ p d, s.Node p d → p < s.numPages) :
    Ranked s.reopen {p | ∃ d, s.Node p d} rank ∅ where
  order := h.order
  rootMem := ⟨0, .root⟩
  rootParent := h.rootParent
  range p hp := by
    obtain ⟨d, hd⟩ := hp
    exact ⟨(h.range p (h.mem_of_node hd)).1, hkeep p d hd⟩
  leaf p hp := by
    obtain ⟨d, hd⟩ := hp
    exact h.leaf p (h.mem_of_node hd)
  size p hp := by
    obtain ⟨d, hd⟩ := hp
    exact h.size p (h.mem_of_node hd)
  child p hp hinner c hc := by
    obtain ⟨d, hd⟩ := hp
    obtain ⟨-, hrank, hparent⟩ := h.child p (h.mem_of_node hd) hinner c hc
    obtain ⟨i, hi, -, rfl⟩ := findChild_of_mem hc
    exact ⟨⟨d + 1, hd.child hinner hi⟩, hrank, hparent⟩
  nodup p hp := by
    obtain ⟨d, hd⟩ := hp
    exact h.nodup p (h.mem_of_node hd)
  parent p hp hroot _ := by
    obtain ⟨d, hd⟩ := hp
    cases hd with
    | root => exact absurd rfl hroot
    | @child q e i hq hinner hi =>
      -- the node above is the parent
      have hmem := h.mem_of_node hq
      obtain ⟨-, hrank, hparent⟩ := h.child q hmem hinner _ (valueAt_mem_children hi)
      unfold HasParent
      rw [show (s.reopen.page ((s.page q).valueAt i)).parent = q from hparent]
      exact ⟨⟨e, hq⟩, hinner, hrank.symm⟩

variable [Inhabited K] [Ord K] [DecidableEq K]

/-- A call of a session. -/
def session (s : IxIndexHandle K) : SessionOp K → Option (IxIndexHandle K)
  | .insert key value => (s.insertEntry key value).toOption.map fun r => r.2
  | .delete key => (s.deleteEntryLatched key).toOption.map fun r => r.1
  | .reopen => some s.reopen

/-- Any calls on a fresh index, in any number of sessions. -/
def indexSessions (cols : List IxCol) : TransitionSystem (IxIndexHandle K) (SessionOp K) where
  init s := createIndex cols = .ok s
  step s op s' := s.session op = some s'

/-- **A call of a session** keeps ranked pages. -/
theorem session_ranked {op : SessionOp K} (h : Ranked s T rank ∅) (hrun : s.session op = some s')
    (hkeep : op.Keeps s s') : ∃ T' rank', Ranked s' T' rank' ∅ := by
  cases op with
  | insert key value =>
    obtain ⟨⟨p, s₁⟩, hs₁, rfl⟩ := toOption_map_eq_some.mp hrun
    exact (insertEntry_ranked h key value).2 p s₁ hs₁
  | delete key =>
    obtain ⟨⟨s₁, l⟩, hs₁, rfl⟩ := toOption_map_eq_some.mp hrun
    exact ⟨T, rank, deleteEntry_ranked h hs₁⟩
  | reopen =>
    cases hrun
    exact ⟨_, rank, h.reopen hkeep⟩

/-- A first session of insertions. -/
theorem sessions_insertEntries (cols : List IxCol) {ops : List (K × Rid)} {s₀ : IxIndexHandle K}
    (hcreate : createIndex cols = .ok s₀) (hrun : s₀.insertEntries ops = .ok s) :
    ((indexSessions cols).restrict SessionOp.Keeps).Reachable s ∧
      ∃ T rank, Ranked s T rank ∅ := by
  induction ops using List.reverseRecOn generalizing s with
  | nil =>
    cases hrun
    obtain ⟨btreeOrder, horder, rfl⟩ := createIndex_ok hcreate
    exact ⟨.init hcreate, _, _, ranked_create horder⟩
  | append_singleton ops op ih =>
    obtain ⟨s₁, p, hrun₁, hop⟩ := insertEntries_snoc.mp hrun
    obtain ⟨hreach, T, rank, h⟩ := ih hrun₁
    have hstep : s₁.session (.insert op.1 op.2) = some s := toOption_map_eq_some.mpr ⟨(p, s), hop, rfl⟩
    exact ⟨.step (a := .insert op.1 op.2) hreach ⟨hstep, trivial⟩, session_ranked h hstep trivial⟩

/-- **Every session leaves ranked pages**, if every node has a number below `num_pages_` whenever the
    index is opened again. -/
theorem ranked_of_reachable {cols : List IxCol}
    (hrun : ((indexSessions cols).restrict SessionOp.Keeps).Reachable s) :
    ∃ T rank, Ranked s T rank ∅ := by
  refine hrun.invariant (I := fun s => ∃ T rank, Ranked s T rank ∅) (fun s hs => ?_)
    (fun s op s' h hs => ?_)
  · obtain ⟨btreeOrder, horder, rfl⟩ := createIndex_ok hs
    exact ⟨_, _, ranked_create horder⟩
  · obtain ⟨T, rank, h⟩ := h
    exact session_ranked h hs.1 hs.2

/-- **`create_node` returns new pages** over all sessions, if every node has a number below
    `num_pages_` whenever the index is opened again. -/
theorem createNode_fresh (cols : List IxCol) (s : IxIndexHandle K)
    (hrun : ((indexSessions cols).restrict SessionOp.Keeps).Reachable s) (key : K) (value : Rid) :
    ∀ c ∈ s.createCalls key value, c.CreatesFresh := by
  obtain ⟨T, rank, h⟩ := ranked_of_reachable hrun
  exact (insertEntry_ranked h key value).1

/-- The theorem in a second session, after six keys in the first: the next key splits the root, which
    takes two new pages. -/
theorem createNode_fresh_second_session : ∃ s : IxIndexHandle (IxKey [(.string, 512)]),
    ((indexSessions [(.string, 512)]).restrict SessionOp.Keeps).Reachable s.reopen ∧
      (s.reopen.createCalls (charKey 6) ⟨1, 6⟩).length = 2 ∧
      ∀ c ∈ s.reopen.createCalls (charKey 6) ⟨1, 6⟩, c.CreatesFresh := by
  have hrun : ((create 6).insertEntries (charKeys 6)).toOption.map (fun s => decide (
      (s.numPages = 3 ∧ s.nextPage = 3) ∧
      (s.reopen.createCalls (charKey 6) ⟨1, 6⟩).length = 2)) = some true := by
    decide +kernel
  obtain ⟨s, hs, heq⟩ := toOption_map_eq_some.mp hrun
  simp only [decide_eq_true_eq] at heq
  obtain ⟨⟨hpages, hnext⟩, hcalls⟩ := heq
  obtain ⟨hreach, T, rank, h⟩ := sessions_insertEntries [(.string, 512)] rfl hs
  have hopen : ((indexSessions [(.string, 512)]).restrict SessionOp.Keeps).Reachable s.reopen := by
    refine .step (a := .reopen) hreach ⟨rfl, fun p d hp => ?_⟩
    have := (h.range p (h.mem_of_node hp)).2
    omega
  exact ⟨s, hopen, hcalls, createNode_fresh _ _ hopen _ _⟩

/-- Twenty-two keys, so that the root is page 11; one of them deleted again, which merges two leaves;
    then the index is closed and opened again and two more keys are inserted. -/
def mergedThenReopened : List (SessionOp (IxKey [(.string, 512)])) :=
  (charKeys 22).map (fun e => .insert e.1 e.2) ++ [.delete (charKey 13), .reopen] ++
    ((charKeys 24).drop 22).map fun e => .insert e.1 e.2

/-- **`create_node` returns the root** when the next key splits a leaf. -/
theorem createNode_returns_root : ¬ ∀ (cols : List IxCol) (s : IxIndexHandle (IxKey cols)),
    (indexSessions cols).Reachable s → ∀ key value, ∀ c ∈ s.createCalls key value,
      c.CreatesFresh := by
  intro hall
  have hrun : (mergedThenReopened.foldlM session (create 6)).map (fun s =>
      decide (∃ c ∈ s.createCalls (charKey 24) ⟨1, 24⟩, c.nextPage = c.rootPage)) = some true := by
    decide +kernel
  obtain ⟨s, hs, hreuse⟩ := Option.map_eq_some_iff.mp hrun
  rw [decide_eq_true_eq] at hreuse
  obtain ⟨c, hc, hroot⟩ := hreuse
  have hinit : (indexSessions [(.string, 512)]).Reachable
      (create 6 : IxIndexHandle (IxKey [(.string, 512)])) := .init rfl
  obtain ⟨-, -, hfresh⟩ := hall _ s (hinit.foldlM (fun _ _ _ h => h) hs) _ _ c hc
  refine hfresh 0 ?_
  rw [show c.createNode.1 = c.rootPage from hroot]
  exact .root

end Sessions

end IxIndexHandle

end Rmdb
