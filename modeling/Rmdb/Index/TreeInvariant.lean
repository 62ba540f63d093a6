import Mathlib.Data.List.Nodup
import Mathlib.Data.Int.Interval
import Rmdb.Index.IxIndexHandle

namespace Rmdb

open Lib Std

namespace IxIndexHandle

/-!
# The B+ tree, level by level

All leaves of the tree have one depth, so the tree is a list of levels: the leaves from left to right,
their parents from left to right, and so on up to the root.

* `Linked` — the nodes of a level are the parents of the nodes below, in order;
* `Shape` — the levels above a level, up to the root;
* `Seps` — a key of an inner node is the first key of the child;
* `Filled` — how many pairs the inner nodes have;
* `Upper` — all of these, for the levels above a given one.

An operation repairs the tree from the bottom up: what is proved of it is proved by induction on the
levels above the node it works on.
-/

variable {K : Type}

/-- The children of an inner node. -/
def children (s : IxIndexHandle K) (p : Int) : List Int := (s.page p).entries.map fun e => e.2.pageNo

/-- The first key of a node. -/
def firstKey (s : IxIndexHandle K) (p : Int) : K := (s.page p).keys 0

/-- The nodes of `lvl` are inner nodes and the parents of the nodes of `below`. -/
structure Linked (s : IxIndexHandle K) (lvl below : List Int) : Prop where
  inner : ∀ p ∈ lvl, (s.page p).isLeaf = false
  flat : below = lvl.flatMap s.children
  parent : ∀ p ∈ lvl, ∀ c ∈ s.children p, (s.page c).parent = p

/-- The levels above `below`, the root last. -/
inductive Shape (s : IxIndexHandle K) : List Int → List (List Int) → Prop
  | root {r : Int} (hroot : s.rootPage = r) (hparent : (s.page r).parent = -1) : Shape s [r] []
  | level {below lvl : List Int} {rest : List (List Int)} (hlink : Linked s lvl below)
      (hrest : Shape s lvl rest) : Shape s below (lvl :: rest)

/-- The keys of the nodes of a level are the first keys of the children. -/
def Seps (s : IxIndexHandle K) (lvl : List Int) : Prop :=
  ∀ p ∈ lvl, ∀ e ∈ (s.page p).entries, e.1 = s.firstKey e.2.pageNo

/-- The same, but for the key of the child `c`. -/
def SepsBut (s : IxIndexHandle K) (c : Int) (lvl : List Int) : Prop :=
  ∀ p ∈ lvl, ∀ e ∈ (s.page p).entries, e.2.pageNo ≠ c → e.1 = s.firstKey e.2.pageNo

/-- An inner node has at least two children, less than `get_max_size`, and at least `get_min_size` if
    it is not the root. -/
def FilledLevel (s : IxIndexHandle K) (lvl : List Int) (rest : List (List Int)) : Prop :=
  ∀ p ∈ lvl, 2 ≤ (s.page p).numKey ∧ (s.page p).numKey < s.maxSize ∧
    (rest ≠ [] → s.minSize ≤ (s.page p).numKey)

/-- All inner levels are filled. -/
def Filled (s : IxIndexHandle K) : List (List Int) → Prop
  | [] => True
  | lvl :: rest => FilledLevel s lvl rest ∧ Filled s rest

/-- The part of the tree above a level. -/
structure Upper (s : IxIndexHandle K) (below : List Int) (levels : List (List Int)) : Prop where
  shape : Shape s below levels
  seps : ∀ lvl ∈ levels, Seps s lvl
  filled : Filled s levels
  nodup : (below ++ levels.flatten).Nodup
  range : ∀ p ∈ below ++ levels.flatten, 2 ≤ p ∧ p < s.nextPage

/-! ### Lists of lists -/

/-- Where an element of a concatenation comes from. -/
theorem flatMap_eq_append_cons {α β : Type*} {f : α → List β} {l : List α} {A B : List β} {x : β}
    (h : l.flatMap f = A ++ x :: B) : ∃ l₁ y l₂ C D, l = l₁ ++ y :: l₂ ∧ f y = C ++ x :: D ∧
      A = l₁.flatMap f ++ C ∧ B = D ++ l₂.flatMap f := by
  induction l generalizing A with
  | nil => simp at h
  | cons y l ih =>
    rw [List.flatMap_cons] at h
    rcases List.append_eq_append_iff.mp h with ⟨A', rfl, hA'⟩ | ⟨B', hB, hB'⟩
    · obtain ⟨l₁, z, l₂, C, D, rfl, hz, rfl, rfl⟩ := ih hA'
      exact ⟨y :: l₁, z, l₂, C, D, rfl, hz, by rw [List.flatMap_cons, List.append_assoc], rfl⟩
    · cases B' with
      | nil =>
        rw [List.append_nil] at hB
        rw [List.nil_append] at hB'
        obtain ⟨l₁, z, l₂, C, D, rfl, hz, hA, rfl⟩ := ih (A := []) (by rw [← hB']; rfl)
        refine ⟨y :: l₁, z, l₂, C, D, rfl, hz, ?_, rfl⟩
        rw [List.flatMap_cons, List.append_assoc, ← hA, hB, List.append_nil]
      | cons b B' =>
        rw [List.cons_append] at hB'
        obtain ⟨rfl, rfl⟩ := List.cons.inj hB'
        exact ⟨[], y, l, A, B', rfl, hB, rfl, rfl⟩

variable {s s' : IxIndexHandle K} {below lvl : List Int} {rest levels : List (List Int)}

/-! ### Nodes and their children -/

/-- The children are the pages that the pairs lead to. -/
theorem mem_children {p c : Int} : c ∈ s.children p ↔ ∃ e ∈ (s.page p).entries, e.2.pageNo = c :=
  List.mem_map

/-- There is one for each pair. -/
theorem length_children (s : IxIndexHandle K) (p : Int) :
    (s.children p).length = (s.page p).numKey := by
  unfold children
  rw [List.length_map, IxNode.length_entries]

/-- A child is on the level below. -/
theorem Linked.mem_below (h : Linked s lvl below) {p c : Int} (hp : p ∈ lvl) (hc : c ∈ s.children p) :
    c ∈ below := by
  rw [h.flat]
  exact List.mem_flatMap.mpr ⟨p, hp, hc⟩

/-- Each node of the level below has its parent in this one. -/
theorem Linked.exists_parent (h : Linked s lvl below) {c : Int} (hc : c ∈ below) :
    (s.page c).parent ∈ lvl ∧ c ∈ s.children (s.page c).parent := by
  rw [h.flat] at hc
  obtain ⟨p, hp, hcp⟩ := List.mem_flatMap.mp hc
  rw [h.parent p hp c hcp]
  exact ⟨hp, hcp⟩

/-- What a node is to the levels above and below it. -/
structure SameLinks (n n' : IxNode K) : Prop where
  isLeaf : n'.isLeaf = n.isLeaf
  children : n'.entries.map (fun e => e.2.pageNo) = n.entries.map (fun e => e.2.pageNo)

/-- Only links and parents matter. -/
theorem Linked.congr (h : Linked s lvl below) (hl : ∀ p ∈ lvl, SameLinks (s.page p) (s'.page p))
    (hb : ∀ c ∈ below, (s'.page c).parent = (s.page c).parent) : Linked s' lvl below := by
  have hc : ∀ p ∈ lvl, s'.children p = s.children p := fun p hp => (hl p hp).children
  refine ⟨fun p hp => ?_, ?_, fun p hp c hc' => ?_⟩
  · rw [(hl p hp).isLeaf]
    exact h.inner p hp
  · rw [h.flat]
    exact (List.flatMap_congr hc).symm
  · rw [hc p hp] at hc'
    rw [hb c (h.mem_below hp hc')]
    exact h.parent p hp c hc'

/-- The levels stay as they are if the links do. -/
theorem Shape.congr (h : Shape s below levels) (hroot : s'.rootPage = s.rootPage)
    (hb : ∀ c ∈ below, (s'.page c).parent = (s.page c).parent)
    (hl : ∀ p ∈ levels.flatten, SameLinks (s.page p) (s'.page p) ∧
      (s'.page p).parent = (s.page p).parent) : Shape s' below levels := by
  induction h with
  | root hr hp =>
    refine .root (hroot.trans hr) ?_
    rw [hb _ List.mem_cons_self]
    exact hp
  | level hlink hrest ih =>
    rw [List.flatten_cons] at hl
    refine .level (hlink.congr (fun p hp => (hl p (List.mem_append_left _ hp)).1) hb) ?_
    exact ih (fun p hp => (hl p (List.mem_append_left _ hp)).2)
      fun p hp => hl p (List.mem_append_right _ hp)

/-- Only the sizes matter. -/
theorem Filled.congr (h : Filled s levels) (hmax : s'.btreeOrder = s.btreeOrder)
    (hl : ∀ p ∈ levels.flatten, (s'.page p).numKey = (s.page p).numKey) : Filled s' levels := by
  induction levels with
  | nil => trivial
  | cons lvl rest ih =>
    rw [List.flatten_cons] at hl
    refine ⟨fun p hp => ?_, ih h.2 fun p hp => hl p (List.mem_append_right _ hp)⟩
    have hsz := h.1 p hp
    unfold minSize maxSize at *
    rw [hl p (List.mem_append_left _ hp), hmax]
    exact hsz

/-- Only the pairs of the level and the first keys below matter. -/
theorem Seps.congr (h : Seps s lvl) (hl : ∀ p ∈ lvl, (s'.page p).entries = (s.page p).entries)
    (hb : ∀ p ∈ lvl, ∀ c ∈ s.children p, s'.firstKey c = s.firstKey c) : Seps s' lvl := by
  intro p hp e he
  rw [hl p hp] at he
  rw [hb p hp _ (mem_children.mpr ⟨e, he, rfl⟩)]
  exact h p hp e he

/-- The children of the nodes above a level are in these levels. -/
theorem Shape.children_mem (h : Shape s below levels) :
    ∀ l ∈ levels, ∀ p ∈ l, ∀ c ∈ s.children p, c ∈ below ++ levels.flatten := by
  induction h with
  | root => exact fun _ hl => absurd hl List.not_mem_nil
  | level hlink hrest ih =>
    intro l hl p hp c hc
    rw [List.flatten_cons]
    cases hl with
    | head => exact List.mem_append_left _ (hlink.mem_below hp hc)
    | tail _ hl => exact List.mem_append_right _ (ih l hl p hp c hc)

/-- Separators above a level stay right if the pages of these levels and the first keys of this level
    stay. -/
theorem Shape.seps_congr (h : Shape s below levels) (hseps : ∀ l ∈ levels, Seps s l)
    (hpage : ∀ p ∈ levels.flatten, (s'.page p).entries = (s.page p).entries)
    (hkey : ∀ p ∈ below ++ levels.flatten, s'.firstKey p = s.firstKey p) :
    ∀ l ∈ levels, Seps s' l := fun l hl =>
  (hseps l hl).congr (fun p hp => hpage p (List.mem_flatten.mpr ⟨l, hl, hp⟩))
    fun p hp c hc => hkey c (h.children_mem l hl p hp c hc)

/-! ### The levels above -/

namespace Upper

/-- One level up. -/
theorem tail (h : Upper s below (lvl :: rest)) : Upper s lvl rest := by
  obtain ⟨hshape, hseps, hfilled, hnodup, hrange⟩ := h
  rw [List.flatten_cons] at hnodup hrange
  cases hshape with
  | level hlink hrest =>
    exact ⟨hrest, fun l hl => hseps l (List.mem_cons_of_mem _ hl), hfilled.2,
      (List.nodup_append.mp hnodup).2.1, fun p hp => hrange p (List.mem_append_right _ hp)⟩

/-- The lowest of the levels is linked to the level below. -/
theorem linked (h : Upper s below (lvl :: rest)) : Linked s lvl below := by
  cases h.shape with
  | level hlink _ => exact hlink

/-- One level down. -/
theorem cons (h : Upper s lvl rest) (hlink : Linked s lvl below) (hseps : Seps s lvl)
    (hfilled : FilledLevel s lvl rest) (hnodup : below.Nodup)
    (hdisj : ∀ p ∈ below, p ∉ lvl ++ rest.flatten)
    (hrange : ∀ p ∈ below, 2 ≤ p ∧ p < s.nextPage) : Upper s below (lvl :: rest) where
  shape := .level hlink h.shape
  seps := List.forall_mem_cons.mpr ⟨hseps, h.seps⟩
  filled := ⟨hfilled, h.filled⟩
  nodup := by
    rw [List.flatten_cons, List.nodup_append]
    refine ⟨hnodup, h.nodup, fun a ha b hb hab => ?_⟩
    subst hab
    exact hdisj a ha hb
  range := by
    intro p hp
    rw [List.flatten_cons] at hp
    rcases List.mem_append.mp hp with hp | hp
    · exact hrange p hp
    · exact h.range p hp

/-- The levels above stay if their pages do, and the parents and first keys of this level. -/
theorem congr (h : Upper s below levels) (hroot : s'.rootPage = s.rootPage)
    (horder : s'.btreeOrder = s.btreeOrder) (hnext : s.nextPage ≤ s'.nextPage)
    (hb : ∀ p ∈ below, (s'.page p).parent = (s.page p).parent ∧ s'.firstKey p = s.firstKey p)
    (hl : ∀ p ∈ levels.flatten, s'.page p = s.page p) : Upper s' below levels where
  shape := h.shape.congr hroot (fun p hp => (hb p hp).1) fun p hp => by
    rw [hl p hp]
    exact ⟨⟨rfl, rfl⟩, rfl⟩
  seps := h.shape.seps_congr h.seps (fun p hp => by rw [hl p hp]) fun p hp => by
    rcases List.mem_append.mp hp with hp | hp
    · exact (hb p hp).2
    · unfold firstKey
      rw [hl p hp]
  filled := h.filled.congr horder fun p hp => by rw [hl p hp]
  nodup := h.nodup
  range p hp := ⟨(h.range p hp).1, Int.lt_of_lt_of_le (h.range p hp).2 hnext⟩

/-- No page is twice in the level below. -/
theorem below_nodup (h : Upper s below levels) : below.Nodup := (List.nodup_append.mp h.nodup).1

/-- The nodes of a level are none of the nodes above. -/
theorem disjoint (h : Upper s below levels) {p : Int} (hp : p ∈ below) : p ∉ levels.flatten :=
  fun hp' => (List.nodup_append.mp h.nodup).2.2 p hp p hp' rfl

/-- No level is empty. -/
theorem ne_nil (h : Upper s below levels) : below ≠ [] := by
  induction levels generalizing below with
  | nil =>
    cases h.shape
    exact List.cons_ne_nil _ _
  | cons lvl rest ih =>
    obtain ⟨p, hp⟩ := List.exists_mem_of_ne_nil _ (ih h.tail)
    have hsize := (h.filled.1 p hp).1
    rw [← length_children] at hsize
    obtain ⟨c, hc⟩ := List.exists_mem_of_length_pos (Nat.lt_of_lt_of_le Nat.zero_lt_two hsize)
    exact List.ne_nil_of_mem (h.linked.mem_below hp hc)

/-- There are more nodes than levels above. -/
theorem length_lt (h : Upper s below levels) :
    levels.length < (below ++ levels.flatten).length := by
  induction levels generalizing below with
  | nil =>
    rw [List.length_append]
    have := List.length_pos_of_ne_nil h.ne_nil
    rw [List.length_nil]
    omega
  | cons lvl rest ih =>
    have := ih h.tail
    have := List.length_pos_of_ne_nil h.ne_nil
    rw [List.flatten_cons, List.length_append, List.length_cons]
    omega

/-- The fuel is enough for one round on each level. -/
theorem length_lt_fuel (h : Upper s below levels) : levels.length + 1 < s.fuel := by
  have hlt := h.length_lt
  have hsub : (below ++ levels.flatten).toFinset ⊆ Finset.Ico 2 s.nextPage := by
    intro p hp
    exact Finset.mem_Ico.mpr (h.range p (List.mem_toFinset.mp hp))
  have hcard := Finset.card_le_card hsub
  rw [List.toFinset_card_of_nodup h.nodup, Int.card_Ico] at hcard
  unfold fuel
  omega

end Upper

end IxIndexHandle

end Rmdb
