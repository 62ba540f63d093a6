import Rmdb.Index.Siblings
import Rmdb.Lib.Transition

namespace Rmdb

open Lib

namespace IxIndexHandle

/-!
# Merging two nodes (`coalesce`)

The pairs of the right node go behind those of the left one.  Then the children that have moved should
get the left node as their parent, the right leaf should leave the list of leaves, and the parent lose
its pair.

* `mergeNodes` — all but the parent; `coalesce_eq` — with the parent, up to the recursive call;
* `mergeNodes_leaf`, `mergeNodes_inner` — what it does to leaves and to inner nodes;
* `Adjacent`, `Merged` — two children side by side, and what a merge should do to them;
* `coalesce_merges_iff` — when it does.

The loop over the moved children begins at slot `2 * pre_size`, so the first of them keep their old
parent.
-/

variable {K : Type} {s s' : IxIndexHandle K} {left right parent : Int} {i : Nat}

/-- The left node with the pairs of both. -/
def mergedNode (s : IxIndexHandle K) (left right : Int) : IxNode K :=
  (s.page left).insertPairs (s.page left).numKey (s.page right).keys (s.page right).rids
    (s.page right).numKey

/-- `coalesce` before it changes the parent. -/
def mergeNodes (s : IxIndexHandle K) (left right : Int) : IxIndexHandle K :=
  let n := s.page right
  let preSize := (s.page left).numKey
  let s := s.modify left fun m => m.insertPairs preSize n.keys n.rids n.numKey
  let s := (List.range' preSize (n.numKey - preSize)).foldl
    (fun s i => s.maintainChild left (i + preSize)) s
  let s :=
    if (s.page right).isLeaf then
      let s := s.eraseLeaf right
      if s.lastLeaf = right then { s with lastLeaf := left } else s
    else s
  { s with numPages := s.numPages - 1 }

/-- `coalesce` up to the recursive call. -/
theorem coalesce_eq [Ord K] (s : IxIndexHandle K) (neighbor p parent : Int) (index : Nat) :
    s.coalesce neighbor p parent index = (do
      let left := if index = 0 then p else neighbor
      let right := if index = 0 then neighbor else p
      let t := s.mergeNodes left right
      let m ← (t.page parent).erasePair ((t.page parent).lowerBound ((t.page right).keys 0))
      return t.set parent m) := rfl

/-! ### The pages -/

theorem entries_mergedNode (s : IxIndexHandle K) (left right : Int) :
    (s.mergedNode left right).entries = (s.page left).entries ++ (s.page right).entries := by
  unfold mergedNode
  rw [IxNode.entries_insertPairs _ (Nat.le_refl _), List.take_of_length_le, List.drop_eq_nil_of_le,
    List.append_nil]
  · rfl
  · rw [IxNode.length_entries]
  · rw [IxNode.length_entries]

/-- `erase_leaf` relinks the page before and the page behind. -/
theorem page_eraseLeaf (s : IxIndexHandle K) (p x : Int) : (s.eraseLeaf p).page x =
    let m := if x = (s.page p).prevLeaf then { s.page x with nextLeaf := (s.page p).nextLeaf }
      else s.page x
    if x = (s.page p).nextLeaf then { m with prevLeaf := (s.page p).prevLeaf } else m := by
  have hself : (s.modify (s.page p).prevLeaf fun m => { m with nextLeaf := (s.page p).nextLeaf }).page
      p = s.page p := by
    rw [page_modify]
    split
    · rename_i h
      rw [← h]
    · rfl
  unfold eraseLeaf
  dsimp only
  rw [hself, page_modify, page_modify, page_modify]
  by_cases h₁ : x = (s.page p).nextLeaf
  · rw [if_pos h₁, if_pos h₁, ← h₁]
    split
    · rename_i h₂
      rw [← h₂]
    · rfl
  · rw [if_neg h₁, if_neg h₁]
    split
    · rename_i h₂
      rw [← h₂]
    · rfl

/-- **Two leaves.** -/
theorem mergeNodes_leaf (hne : left ≠ right) (hleft : (s.page left).isLeaf = true)
    (hright : (s.page right).isLeaf = true) : s.mergeNodes left right = { s with
      numPages := s.numPages - 1
      lastLeaf := if s.lastLeaf = right then left else s.lastLeaf
      page := fun x =>
        let m := if x = left then s.mergedNode left right else s.page x
        let m := if x = (s.page right).prevLeaf then
          { m with nextLeaf := (s.page right).nextLeaf } else m
        if x = (s.page right).nextLeaf then { m with prevLeaf := (s.page right).prevLeaf } else m } := by
  -- a leaf has no children to look after
  have hloop : ∀ (l : List Nat) (f : Nat → Nat) (t : IxIndexHandle K), (t.page left).isLeaf = true →
      l.foldl (fun s i => s.maintainChild left (f i)) t = t := by
    intro l f t ht
    induction l with
    | nil => rfl
    | cons i l ih =>
      rw [List.foldl_cons, maintainChild, if_pos ht]
      exact ih
  set t := s.modify left fun m => m.insertPairs (s.page left).numKey (s.page right).keys
    (s.page right).rids (s.page right).numKey with ht
  have hpage : ∀ x, t.page x = if x = left then s.mergedNode left right else s.page x :=
    fun x => page_modify s left _ x
  have htl : (t.page left).isLeaf = true := by
    rw [hpage, if_pos rfl]
    exact hleft
  have htr : t.page right = s.page right := by
    rw [hpage, if_neg hne.symm]
  have hmerge : s.mergeNodes left right = { (if (t.eraseLeaf right).lastLeaf = right then
      { t.eraseLeaf right with lastLeaf := left } else t.eraseLeaf right) with
        numPages := s.numPages - 1 } := by
    unfold mergeNodes
    dsimp only
    rw [← ht, hloop _ _ _ htl, htr, if_pos hright]
    split <;> rfl
  have herase : t.eraseLeaf right = { s with page := (t.eraseLeaf right).page } := rfl
  have hlast : (t.eraseLeaf right).lastLeaf = s.lastLeaf := rfl
  rw [hmerge, hlast]
  have hpages : (t.eraseLeaf right).page = fun x =>
      let m := if x = left then s.mergedNode left right else s.page x
      let m := if x = (s.page right).prevLeaf then
        { m with nextLeaf := (s.page right).nextLeaf } else m
      if x = (s.page right).nextLeaf then { m with prevLeaf := (s.page right).prevLeaf } else m := by
    funext x
    rw [page_eraseLeaf, htr, hpage]
  split <;> rw [herase, hpages]

/-- **Two inner nodes.** Of the children that move, those from number `pre_size` on get their new
    parent. -/
theorem mergeNodes_inner (hne : left ≠ right) (hleft : (s.page left).isLeaf = false)
    (hright : (s.page right).isLeaf = false) (hchild : left ∉ s.children right)
    (hright' : right ∉ s.children right) : s.mergeNodes left right = { s with
      numPages := s.numPages - 1
      page := fun x =>
        if x = left then s.mergedNode left right
        else if x ∈ (s.children right).drop (s.page left).numKey then { s.page x with parent := left }
        else s.page x } := by
  set t := s.modify left fun m => m.insertPairs (s.page left).numKey (s.page right).keys
    (s.page right).rids (s.page right).numKey with ht
  set pre := (s.page left).numKey with hpre
  have hpage : ∀ x, t.page x = if x = left then s.mergedNode left right else s.page x :=
    fun x => page_modify s left _ x
  have htl : t.page left = s.mergedNode left right := by
    rw [hpage, if_pos rfl]
  -- the slots the loop visits
  have hvalue : ((List.range' pre ((s.page right).numKey - pre)).map (· + pre)).map
      (s.mergedNode left right).valueAt = (s.children right).drop pre := by
    have hslot : ∀ j ∈ List.range' pre ((s.page right).numKey - pre),
        (s.mergedNode left right).valueAt (j + pre) = (s.page right).valueAt j := by
      intro j hj
      rw [List.mem_range'_1] at hj
      unfold mergedNode IxNode.insertPairs IxNode.valueAt
      dsimp only
      rw [if_neg (by omega), if_pos (by omega), Nat.add_sub_cancel]
    rw [List.map_map]
    unfold children IxNode.entries
    rw [List.map_map, ← List.map_drop, List.range_eq_range', List.drop_range', Nat.zero_add,
      Nat.mul_one]
    exact List.map_congr_left hslot
  have hloop : (List.range' pre ((s.page right).numKey - pre)).foldl
      (fun s i => s.maintainChild left (i + pre)) t = { t with
        page := fun x => if x ∈ (s.children right).drop pre then { t.page x with parent := left }
          else t.page x } := by
    have hfold := foldl_maintainChild
      (l := (List.range' pre ((s.page right).numKey - pre)).map (· + pre)) htl
      (show (s.mergedNode left right).isLeaf = false from hleft) ?_
    · rw [List.foldl_map, hvalue] at hfold
      exact hfold
    · intro j hj hc
      have hmem := List.mem_map_of_mem (f := (s.mergedNode left right).valueAt) hj
      rw [hvalue, hc] at hmem
      exact hchild (List.mem_of_mem_drop hmem)
  have hkind : (if right ∈ (s.children right).drop pre then { t.page right with parent := left }
      else t.page right).isLeaf = false := by
    rw [if_neg fun hc => hright' (List.mem_of_mem_drop hc), hpage, if_neg hne.symm]
    exact hright
  unfold mergeNodes
  dsimp only
  rw [← ht, ← hpre, hloop]
  dsimp only
  rw [hkind, if_neg Bool.false_ne_true]
  have hpages : (fun x => if x ∈ (s.children right).drop pre then { t.page x with parent := left }
      else t.page x) = fun x => if x = left then s.mergedNode left right
        else if x ∈ (s.children right).drop pre then { s.page x with parent := left }
        else s.page x := by
    funext x
    by_cases hx : x = left
    · rw [if_pos hx, if_neg fun hc => hchild (hx ▸ List.mem_of_mem_drop hc), hpage, if_pos hx]
    · rw [if_neg hx, hpage, if_neg hx]
  rw [hpages]
  rfl

theorem numPages_mergeNodes (s : IxIndexHandle K) (left right : Int) :
    (s.mergeNodes left right).numPages = s.numPages - 1 := by
  have hloop : ∀ (l : List Nat) (f : Nat → Nat) (t : IxIndexHandle K),
      (l.foldl (fun s i => s.maintainChild left (f i)) t).numPages = t.numPages := by
    intro l f
    induction l with
    | nil => exact fun _ => rfl
    | cons i l ih =>
      intro t
      rw [List.foldl_cons, ih]
      unfold maintainChild
      split <;> rfl
  have hstart := hloop (List.range' (s.page left).numKey
    ((s.page right).numKey - (s.page left).numKey)) (· + (s.page left).numKey)
    (s.modify left fun m => m.insertPairs (s.page left).numKey (s.page right).keys
      (s.page right).rids (s.page right).numKey)
  unfold mergeNodes
  dsimp only at hstart ⊢
  congr 1
  split
  · split <;> exact hstart
  · exact hstart

/-! ### Merging two children -/

/-- Two children side by side, number `i` and number `i + 1`. -/
structure Adjacent (s : IxIndexHandle K) (parent : Int) (i : Nat) (left right : Int) : Prop where
  slot : i + 1 < (s.page parent).numKey
  nodup : (s.children parent).Nodup
  leftAt : (s.page parent).valueAt i = left
  rightAt : (s.page parent).valueAt (i + 1) = right
  ne : left ≠ right ∧ left ≠ parent ∧ right ≠ parent
  kind : (s.page left).isLeaf = (s.page right).isLeaf
  /-- The children of inner nodes, each once and with the right parent. -/
  children : (s.page right).isLeaf = false → (s.children left ++ s.children right).Nodup ∧
    (∀ c ∈ s.children left, (s.page c).parent = left) ∧
    (∀ c ∈ s.children right, (s.page c).parent = right) ∧
    ∀ c ∈ s.children left ++ s.children right, c ≠ left ∧ c ≠ right ∧ c ≠ parent
  /-- The list of leaves, forwards. -/
  next : (s.page right).isLeaf = true → (s.page left).nextLeaf = right ∧
    (s.page right).nextLeaf ≠ left ∧ (s.page right).nextLeaf ≠ right ∧
    (s.page right).nextLeaf ≠ parent

/-- **What a merge should do.** -/
structure Merged (s s' : IxIndexHandle K) (parent : Int) (i : Nat) (left right : Int) : Prop where
  entries : (s'.page left).entries = (s.page left).entries ++ (s.page right).entries
  /-- All children of the left node have it as their parent. -/
  parents : (s.page right).isLeaf = false → ∀ c ∈ s'.children left, (s'.page c).parent = left
  /-- The list of leaves skips the right one, in both directions. -/
  chain : (s.page right).isLeaf = true → (s'.page left).nextLeaf = (s.page right).nextLeaf ∧
    (s'.page (s.page right).nextLeaf).prevLeaf = left
  lastLeaf : s'.lastLeaf =
    if (s.page right).isLeaf = true ∧ s.lastLeaf = right then left else s.lastLeaf
  /-- The parent loses the pair of the right node. -/
  parentEntries : (s'.page parent).entries =
    (s.page parent).entries.take (i + 1) ++ (s.page parent).entries.drop (i + 2)
  /-- The children that move get another parent and the leaf behind another left neighbour, and that
      is all. -/
  moved : (s.page right).isLeaf = false → ∀ c ∈ s.children right,
    s'.page c = { s.page c with parent := left }
  behind : (s.page right).isLeaf = true → s'.page (s.page right).nextLeaf =
    { s.page (s.page right).nextLeaf with prevLeaf := left }
  frame : ∀ x, x ≠ left → x ≠ parent → ((s.page right).isLeaf = false → x ∉ s.children right) →
    ((s.page right).isLeaf = true → x ≠ (s.page right).nextLeaf) → s'.page x = s.page x

/-- The condition under which a merge does what it should: the right leaf names the left one, or one
    of two inner nodes is empty; and the parent finds the right node by its first key. -/
def CanMerge [Ord K] (s : IxIndexHandle K) (parent : Int) (i : Nat) (left right : Int) : Prop :=
  ((s.page right).isLeaf = true → (s.page right).prevLeaf = left) ∧
  ((s.page right).isLeaf = false → (s.page left).numKey = 0 ∨ (s.page right).numKey = 0) ∧
  (s.page parent).lowerBound ((s.page right).keys 0) = i + 1

/-- The parent and the right node are not touched before the parent loses its pair. -/
theorem Adjacent.mergeNodes_parent (h : s.Adjacent parent i left right) :
    ((s.mergeNodes left right).page parent).numKey = (s.page parent).numKey ∧
    ((s.mergeNodes left right).page parent).keys = (s.page parent).keys ∧
    ((s.mergeNodes left right).page parent).rids = (s.page parent).rids ∧
    ((s.mergeNodes left right).page right).keys = (s.page right).keys := by
  cases hleaf : (s.page right).isLeaf with
  | true =>
    rw [mergeNodes_leaf h.ne.1 (h.kind.trans hleaf) hleaf]
    dsimp only
    rw [if_neg h.ne.2.1.symm, if_neg h.ne.1.symm]
    refine ⟨?_, ?_, ?_, ?_⟩ <;> split <;> split <;> rfl
  | false =>
    obtain ⟨-, -, -, hout⟩ := h.children hleaf
    have hmem : ∀ {c}, c ∈ s.children right → c ≠ left ∧ c ≠ right ∧ c ≠ parent :=
      fun hc => hout _ (List.mem_append_right _ hc)
    rw [mergeNodes_inner h.ne.1 (h.kind.trans hleaf) hleaf (fun hc => (hmem hc).1 rfl)
      fun hc => (hmem hc).2.1 rfl]
    dsimp only
    rw [if_neg h.ne.2.1.symm, if_neg fun hc => (hmem (List.mem_of_mem_drop hc)).2.2 rfl,
      if_neg h.ne.1.symm, if_neg fun hc => (hmem (List.mem_of_mem_drop hc)).2.1 rfl]
    exact ⟨rfl, rfl, rfl, rfl⟩

theorem Adjacent.entries_mergeNodes (h : s.Adjacent parent i left right) :
    ((s.mergeNodes left right).page parent).entries = (s.page parent).entries := by
  obtain ⟨hnum, hkeys, hrids, -⟩ := h.mergeNodes_parent
  exact IxNode.entries_congr hnum fun j _ => by rw [hkeys, hrids]; exact ⟨rfl, rfl⟩

/-- Different children leave different rests. -/
theorem erase_inj {p : Int} (hnd : (s.children p).Nodup) {a b : Nat} (ha : a < (s.page p).numKey)
    (hb : b < (s.page p).numKey) (heq : (s.page p).entries.take a ++ (s.page p).entries.drop (a + 1) =
      (s.page p).entries.take b ++ (s.page p).entries.drop (b + 1)) : a = b := by
  have hchildren := congrArg (List.map fun e : K × Rid => e.2.pageNo) heq
  rw [List.map_append, List.map_append, List.map_take, List.map_take, List.map_drop, List.map_drop,
    ← List.eraseIdx_eq_take_drop_succ, ← List.eraseIdx_eq_take_drop_succ] at hchildren
  have herase : (s.children p).eraseIdx a = (s.children p).eraseIdx b := hchildren
  have hla : a < (s.children p).length := by rw [length_children]; exact ha
  have hlb : b < (s.children p).length := by rw [length_children]; exact hb
  -- the child that is gone on one side is still there on the other
  rw [← List.Nodup.erase_getElem hnd a hla, ← List.Nodup.erase_getElem hnd b hlb] at herase
  by_contra hne
  have hmem : (s.children p)[a] ∈ (s.children p).erase (s.children p)[b] := by
    refine (List.mem_erase_of_ne fun hc => hne ?_).mpr (List.getElem_mem hla)
    exact (List.Nodup.getElem_inj_iff hnd).mp hc
  rw [← herase] at hmem
  exact hnd.not_mem_erase hmem

section Merge

variable [Ord K]

/-- Where the parent looks for the right node. -/
theorem Adjacent.lowerBound_mergeNodes (h : s.Adjacent parent i left right) :
    ((s.mergeNodes left right).page parent).lowerBound
      (((s.mergeNodes left right).page right).keys 0) =
        (s.page parent).lowerBound ((s.page right).keys 0) := by
  obtain ⟨hnum, hkeys, -, hright⟩ := h.mergeNodes_parent
  unfold IxNode.lowerBound
  rw [hnum, hkeys, hright]

/-- `coalesce` of two children side by side. -/
theorem Adjacent.coalesce_eq (h : s.Adjacent parent i left right) {neighbor p : Int} {index : Nat}
    (hcall : (index = 0 ∧ i = 0 ∧ p = left ∧ neighbor = right) ∨
      (index = i + 1 ∧ p = right ∧ neighbor = left)) :
    s.coalesce neighbor p parent index = (do
      let m ← ((s.mergeNodes left right).page parent).erasePair
        ((s.page parent).lowerBound ((s.page right).keys 0))
      return (s.mergeNodes left right).set parent m) := by
  rw [← h.lowerBound_mergeNodes, IxIndexHandle.coalesce_eq]
  rcases hcall with ⟨rfl, -, rfl, rfl⟩ | ⟨rfl, rfl, rfl⟩
  · rfl
  · rw [if_neg (Nat.succ_ne_zero i), if_neg (Nat.succ_ne_zero i)]

/-- The pages after a merge whose parent has lost pair number `i + 1`. -/
theorem Adjacent.merged (h : s.Adjacent parent i left right) (hcan : s.CanMerge parent i left right) :
    Merged s ((s.mergeNodes left right).set parent
      (((s.mergeNodes left right).page parent).shiftDown (i + 1))) parent i left right := by
  obtain ⟨hprev, hempty, -⟩ := hcan
  obtain ⟨hne, hlp, hrp⟩ := h.ne
  set t := s.mergeNodes left right with ht
  have hset := page_set t parent ((t.page parent).shiftDown (i + 1))
  have hparent : ((t.page parent).shiftDown (i + 1)).entries =
      (s.page parent).entries.take (i + 1) ++ (s.page parent).entries.drop (i + 2) := by
    rw [IxNode.entries_shiftDown, ht, h.entries_mergeNodes]
    rw [ht, h.mergeNodes_parent.1]
    exact h.slot
  cases hleaf : (s.page right).isLeaf with
  | true =>
    -- two leaves: the one behind the right leaf is linked to the left one
    obtain ⟨hnext, hnl, hnr, hnp⟩ := h.next hleaf
    have hpage : ∀ x, t.page x =
        let m := if x = left then s.mergedNode left right else s.page x
        let m := if x = left then { m with nextLeaf := (s.page right).nextLeaf } else m
        if x = (s.page right).nextLeaf then { m with prevLeaf := left } else m := by
      intro x
      rw [ht, mergeNodes_leaf hne (h.kind.trans hleaf) hleaf, hprev hleaf]
    have hleft : t.page left =
        { s.mergedNode left right with nextLeaf := (s.page right).nextLeaf } := by
      rw [hpage]
      dsimp only
      rw [if_pos rfl, if_pos rfl, if_neg hnl.symm]
    have hbehind : t.page (s.page right).nextLeaf =
        { s.page (s.page right).nextLeaf with prevLeaf := left } := by
      rw [hpage]
      dsimp only
      rw [if_neg hnl, if_neg hnl, if_pos rfl]
    have hlast : t.lastLeaf = if s.lastLeaf = right then left else s.lastLeaf := by
      rw [ht, mergeNodes_leaf hne (h.kind.trans hleaf) hleaf]
    refine ⟨?_, fun hc => (by rw [hleaf] at hc; cases hc), fun _ => ⟨?_, ?_⟩, ?_, ?_,
      fun hc => (by rw [hleaf] at hc; cases hc), fun _ => ?_, fun x hxl hxp _ hxn => ?_⟩
    · rw [hset, if_neg hlp, hleft]
      exact entries_mergedNode s left right
    · rw [hset, if_neg hlp, hleft]
    · rw [hset, if_neg hnp, hbehind]
    · rw [hleaf]
      show t.lastLeaf = _
      rw [hlast]
      simp
    · rw [hset, if_pos rfl, hparent]
    · rw [hset, if_neg hnp, hbehind]
    · rw [hset, if_neg hxp, hpage]
      dsimp only
      rw [if_neg hxl, if_neg hxl, if_neg (hxn hleaf)]
  | false =>
    -- two inner nodes: the children of the right one get the left one as their parent
    obtain ⟨hnd, hpl, hpr, hout⟩ := h.children hleaf
    have hmem : ∀ {c}, c ∈ s.children right → c ≠ left ∧ c ≠ right ∧ c ≠ parent :=
      fun hc => hout _ (List.mem_append_right _ hc)
    have hdrop : (s.children right).drop (s.page left).numKey = s.children right := by
      -- the source re-parents from the old size of the left node on; one of the two nodes is empty
      rcases hempty hleaf with h0 | h0
      · rw [h0, List.drop_zero]
      · have hnil : s.children right = [] := by
          rw [← List.length_eq_zero_iff, length_children, h0]
        rw [hnil, List.drop_nil]
    have hpage : ∀ x, t.page x = if x = left then s.mergedNode left right
        else if x ∈ s.children right then { s.page x with parent := left } else s.page x := by
      intro x
      rw [ht, mergeNodes_inner hne (h.kind.trans hleaf) hleaf (fun hc => (hmem hc).1 rfl)
        fun hc => (hmem hc).2.1 rfl]
      dsimp only
      rw [hdrop]
    have hlast : t.lastLeaf = s.lastLeaf := by
      rw [ht, mergeNodes_inner hne (h.kind.trans hleaf) hleaf (fun hc => (hmem hc).1 rfl)
        fun hc => (hmem hc).2.1 rfl]
    have hmoved : ∀ c ∈ s.children right, t.page c = { s.page c with parent := left } := by
      intro c hc
      rw [hpage, if_neg (hmem hc).1, if_pos hc]
    have hentries : (t.page left).entries = (s.page left).entries ++ (s.page right).entries := by
      rw [hpage, if_pos rfl]
      exact entries_mergedNode s left right
    refine ⟨?_, fun _ c hc => ?_, fun hc => (by rw [hleaf] at hc; cases hc), ?_, ?_, fun _ c hc => ?_,
      fun hc => (by rw [hleaf] at hc; cases hc), fun x hxl hxp hxc _ => ?_⟩
    · rw [hset, if_neg hlp, hentries]
    · have hc' : c ∈ s.children left ++ s.children right := by
        unfold IxIndexHandle.children at hc ⊢
        rw [hset, if_neg hlp, hentries, List.map_append] at hc
        exact hc
      rw [hset, if_neg (hout c hc').2.2]
      -- a child of the left node had this parent before
      rcases List.mem_append.mp hc' with hcl | hcr
      · have hcr : c ∉ s.children right := fun hcr =>
          (List.nodup_append.mp hnd).2.2 c hcl c hcr rfl
        rw [hpage, if_neg (hout c hc').1, if_neg hcr]
        exact hpl c hcl
      · rw [hmoved c hcr]
    · show t.lastLeaf = _
      rw [hlast, hleaf]
      simp
    · rw [hset, if_pos rfl, hparent]
    · rw [hset, if_neg (hmem hc).2.2, hmoved c hc]
    · rw [hset, if_neg hxp, hpage, if_neg hxl, if_neg (hxc hleaf)]

/-- **When a merge is right.** `coalesce`, called with two children side by side and the position of
    the node, merges the right one into the left one exactly if `CanMerge` holds: leaves whose backward
    link is right, inner nodes never (unless one of them is empty), and the parent must find the right
    node by its first key. -/
theorem coalesce_merges_iff (h : s.Adjacent parent i left right) {neighbor p : Int} {index : Nat}
    (hcall : (index = 0 ∧ i = 0 ∧ p = left ∧ neighbor = right) ∨
      (index = i + 1 ∧ p = right ∧ neighbor = left)) :
    (∃ s', s.coalesce neighbor p parent index = .ok s' ∧ Merged s s' parent i left right) ↔
      s.CanMerge parent i left right := by
  obtain ⟨hne, hlp, hrp⟩ := h.ne
  rw [h.coalesce_eq hcall]
  constructor
  · rintro ⟨s', hrun, hm⟩
    obtain ⟨m, herase, hs'⟩ := bind_eq_ok.mp hrun
    cases hs'
    have hset := page_set (s.mergeNodes left right) parent m
    refine ⟨fun hleaf => ?_, fun hleaf => ?_, ?_⟩
    · -- the left leaf would still point to the right one
      obtain ⟨hnext, hnl, hnr, hnp⟩ := h.next hleaf
      have hchain := (hm.chain hleaf).1
      rw [hset, if_neg hlp, mergeNodes_leaf hne (h.kind.trans hleaf) hleaf] at hchain
      dsimp only at hchain
      rw [if_pos rfl, if_neg hnl.symm] at hchain
      by_contra hprev
      rw [if_neg fun hc => hprev hc.symm] at hchain
      exact hnr (hchain.symm.trans hnext)
    · -- the first child that moves would keep its old parent
      obtain ⟨hnd, hpl, hpr, hout⟩ := h.children hleaf
      have hmem : ∀ {c}, c ∈ s.children right → c ≠ left ∧ c ≠ right ∧ c ≠ parent :=
        fun hc => hout _ (List.mem_append_right _ hc)
      by_contra hboth
      obtain ⟨hl0, hr0⟩ := not_or.mp hboth
      have hc : (s.page right).valueAt 0 ∈ s.children right :=
        valueAt_mem_children (Nat.pos_of_ne_zero hr0)
      have hnd' := (List.nodup_append.mp hnd).2.1
      have hnot : (s.page right).valueAt 0 ∉ (s.children right).drop (s.page left).numKey := by
        obtain ⟨c, cs, hcs⟩ := List.exists_cons_of_ne_nil (List.ne_nil_of_mem hc)
        have hhead : (s.page right).valueAt 0 = c := by
          have hget : (s.children right)[0]? = some ((s.page right).valueAt 0) := by
            unfold children
            rw [List.getElem?_map, IxNode.getElem?_entries, if_pos (Nat.pos_of_ne_zero hr0)]
            rfl
          rw [hcs] at hget
          exact (Option.some.inj hget).symm
        obtain ⟨k, hk⟩ := Nat.exists_eq_succ_of_ne_zero hl0
        rw [hcs] at hnd' ⊢
        rw [hhead, hk, List.drop_succ_cons]
        exact fun hin => (List.nodup_cons.mp hnd').1 (List.mem_of_mem_drop hin)
      have hin : (s.page right).valueAt 0 ∈ ((s.mergeNodes left right).set parent m).children left := by
        unfold children
        rw [hm.entries, List.map_append]
        exact List.mem_append_right _ hc
      have hp := hm.parents hleaf _ hin
      rw [hset, if_neg (hmem hc).2.2, mergeNodes_inner hne (h.kind.trans hleaf) hleaf
        (fun hc => (hmem hc).1 rfl) fun hc => (hmem hc).2.1 rfl] at hp
      dsimp only at hp
      rw [if_neg (hmem hc).1, if_neg hnot, hpr _ hc] at hp
      exact hne hp.symm
    · unfold IxNode.erasePair at herase
      split at herase
      · cases herase
      · rename_i hlt
        cases herase
        rw [h.mergeNodes_parent.1] at hlt
        have hentries := hm.parentEntries
        rw [hset, if_pos rfl, IxNode.entries_shiftDown, h.entries_mergeNodes] at hentries
        · exact erase_inj h.nodup (Nat.lt_of_not_le hlt) h.slot hentries
        · rw [h.mergeNodes_parent.1]
          exact Nat.lt_of_not_le hlt
  · intro hcan
    refine ⟨_, ?_, h.merged hcan⟩
    rw [hcan.2.2]
    unfold IxNode.erasePair
    rw [h.mergeNodes_parent.1, if_neg (Nat.not_le.mpr h.slot)]
    rfl

end Merge

/-- The theorem at the two leaves that six keys are in. -/
theorem coalesce_six_keys : ∃ s s' : IxIndexHandle (IxKey [(.string, 512)]),
    ((create 6).insertEntries (charKeys 7) >>= fun s₀ => s₀.deleteEntry (charKey 6)) = .ok s ∧
      s.coalesce 2 3 4 1 = .ok s' ∧ Merged s s' 4 0 2 3 := by
  have hrun : ((create 6).insertEntries (charKeys 7) >>= fun s₀ =>
      s₀.deleteEntry (charKey 6)).toOption.map (fun s => decide (
        0 + 1 < (s.page 4).numKey ∧ (s.children 4).Nodup ∧ (s.page 4).valueAt 0 = 2 ∧
        (s.page 4).valueAt 1 = 3 ∧ (s.page 2).isLeaf = true ∧ (s.page 3).isLeaf = true ∧
        (s.page 2).nextLeaf = 3 ∧ (s.page 3).nextLeaf = 1 ∧ (s.page 3).prevLeaf = 2 ∧
        (s.page 4).lowerBound ((s.page 3).keys 0) = 0 + 1)) = some true := by
    decide +kernel
  obtain ⟨s, hs, heq⟩ := toOption_map_eq_some.mp hrun
  simp only [decide_eq_true_eq] at heq
  obtain ⟨hslot, hnd, hleft, hright, hleaf₂, hleaf₃, hnext₂, hnext₃, hprev, hlower⟩ := heq
  have hadj : s.Adjacent 4 0 2 3 := by
    refine ⟨hslot, hnd, hleft, hright, by decide, hleaf₂.trans hleaf₃.symm, fun hc => ?_, fun _ => ?_⟩
    · rw [hleaf₃] at hc
      cases hc
    · rw [hnext₂, hnext₃]
      decide
  have hcan : s.CanMerge 4 0 2 3 := by
    refine ⟨fun _ => hprev, fun hc => ?_, hlower⟩
    rw [hleaf₃] at hc
    cases hc
  obtain ⟨s', hs', hm⟩ := (coalesce_merges_iff hadj (Or.inr ⟨rfl, rfl, rfl⟩)).mpr hcan
  exact ⟨s, s', hs, hs', hm⟩

/-- A root with two inner nodes of two and three leaves. -/
def twoInner : IxIndexHandle (IxKey [(.string, 512)]) :=
  let inner (parent : Int) (l : List (UInt8 × Int)) : IxNode (IxKey [(.string, 512)]) :=
    l.foldl (fun n e => n.insertPair n.numKey (charKey e.1) ⟨e.2, -1⟩) { IxNode.zero with parent := parent }
  let leaf (parent : Int) (b : UInt8) (prev next : Int) : IxNode (IxKey [(.string, 512)]) :=
    (List.range 3).foldl (fun n i => n.insertPair n.numKey (charKey (b + UInt8.ofNat i)) ⟨1, i⟩)
      { IxNode.zero with parent := parent, isLeaf := true, prevLeaf := prev, nextLeaf := next }
  { (create 6 : IxIndexHandle (IxKey [(.string, 512)])) with
    rootPage := 9
    lastLeaf := 6
    numPages := 10
    nextPage := 10
    page := fun p =>
      if p = 1 then { leafHeader with prevLeaf := 6 }
      else if p = 2 then leaf 7 0 1 3
      else if p = 3 then leaf 7 3 2 4
      else if p = 4 then leaf 8 6 3 5
      else if p = 5 then leaf 8 9 4 6
      else if p = 6 then leaf 8 12 5 1
      else if p = 7 then inner 9 [(0, 2), (3, 3)]
      else if p = 8 then inner 9 [(6, 4), (9, 5), (12, 6)]
      else if p = 9 then inner (-1) [(0, 7), (6, 8)]
      else IxNode.zero }

/-- **Children keep their old parent.** Page 8 is merged into page 7, and its first two children still
    name page 8. -/
theorem coalesce_inner_children : twoInner.Adjacent 9 0 7 8 ∧
    (twoInner.page 7).numKey + (twoInner.page 8).numKey < 2 * twoInner.minSize ∧
    (∃ s', twoInner.coalesce 7 8 9 1 = .ok s' ∧ s'.children 7 = [2, 3, 4, 5, 6] ∧
      [4, 5, 6].map (fun c => (s'.page c).parent) = [8, 8, 7]) ∧
    ¬ ∃ s', twoInner.coalesce 7 8 9 1 = .ok s' ∧ Merged twoInner s' 9 0 7 8 := by
  have hadj : twoInner.Adjacent 9 0 7 8 := by
    refine ⟨by decide +kernel, by decide +kernel, by decide +kernel, by decide +kernel, by decide,
      by decide +kernel, fun _ => ?_, fun hc => ?_⟩
    · refine ⟨?_, ?_, ?_, ?_⟩ <;> decide +kernel
    · have hinner : (twoInner.page 8).isLeaf = false := by decide +kernel
      rw [hinner] at hc
      cases hc
  have hrun : (twoInner.coalesce 7 8 9 1).toOption.map (fun s => decide (
      s.children 7 = [2, 3, 4, 5, 6] ∧ [4, 5, 6].map (fun c => (s.page c).parent) = [8, 8, 7])) =
      some true := by
    decide +kernel
  obtain ⟨s', hs', heq⟩ := toOption_map_eq_some.mp hrun
  simp only [decide_eq_true_eq] at heq
  refine ⟨hadj, by decide +kernel, ⟨s', hs', heq⟩, ?_⟩
  rintro ⟨s'', hs'', hm⟩
  rw [hs'] at hs''
  cases hs''
  have hinner : (twoInner.page 8).isLeaf = false := by decide +kernel
  have hparent := hm.parents hinner 4 (by rw [heq.1]; decide)
  have hfour : (s'.page 4).parent = 8 := (List.cons.inj heq.2).1
  rw [hfour] at hparent
  cases hparent

end IxIndexHandle

end Rmdb
