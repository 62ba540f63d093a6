import Rmdb.Index.TreeInvariant

namespace Rmdb

open Lib Std

namespace IxIndexHandle

/-!
# Descending the tree

* `IncreasingKeys` — the first keys of the nodes of a level increase; `Upper.increasing_up` — if those
  of a level do, those of the levels above do;
* `Target` — the node of a level that is responsible for a key: the last one whose first key is not
  above it, or the first one;
* `Target.child` — `internal_lookup` goes from the target of a level to the target of the level below;
* `Upper.findLeaf` — `find_leaf_page` ends at the target of the lowest level.
-/

variable {K : Type} {s s' : IxIndexHandle K} {below lvl : List Int} {rest levels : List (List Int)}

/-! ### First keys -/

/-- A node with a pair has its first key in the first pair. -/
theorem entries_eq_cons {p : Int} (h : (s.page p).numKey ≠ 0) :
    ∃ e l, (s.page p).entries = e :: l ∧ e.1 = s.firstKey p := by
  have h0 := IxNode.getElem?_entries (s.page p) 0
  rw [if_pos (Nat.pos_of_ne_zero h)] at h0
  cases hl : (s.page p).entries with
  | nil =>
    rw [hl] at h0
    cases h0
  | cons e l =>
    rw [hl] at h0
    refine ⟨e, l, rfl, ?_⟩
    rw [Option.some.inj h0]
    rfl

/-- The first child of an inner node has the same first key. -/
theorem children_eq_cons {p : Int} (h : (s.page p).numKey ≠ 0)
    (hseps : ∀ e ∈ (s.page p).entries, e.1 = s.firstKey e.2.pageNo) :
    ∃ c cs, s.children p = c :: cs ∧ s.firstKey c = s.firstKey p := by
  obtain ⟨e, l, hl, he⟩ := entries_eq_cons h
  refine ⟨e.2.pageNo, l.map fun e => e.2.pageNo, ?_, ?_⟩
  · unfold children
    rw [hl]
    rfl
  · rw [← he, hseps e (by rw [hl]; exact List.mem_cons_self)]

theorem map_firstKey_sublist (hne : ∀ p ∈ lvl, (s.page p).numKey ≠ 0) (hseps : Seps s lvl) :
    (lvl.map s.firstKey).Sublist ((lvl.flatMap s.children).map s.firstKey) := by
  induction lvl with
  | nil => exact List.Sublist.refl _
  | cons p lvl ih =>
    obtain ⟨c, cs, hc, hkey⟩ := children_eq_cons (hne p List.mem_cons_self)
      (hseps p List.mem_cons_self)
    have hrest := ih (fun q hq => hne q (List.mem_cons_of_mem _ hq))
      fun q hq => hseps q (List.mem_cons_of_mem _ hq)
    rw [List.flatMap_cons, hc, List.cons_append, List.map_cons, List.map_cons, hkey, List.map_append]
    exact List.Sublist.cons_cons _ (hrest.trans (List.sublist_append_right _ _))

theorem Upper.numKey_ne_zero (h : Upper s below (lvl :: rest)) : ∀ p ∈ lvl, (s.page p).numKey ≠ 0 := by
  intro p hp
  have := (h.filled.1 p hp).1
  omega

section Ord

variable [Ord K]

/-- The first keys of the nodes increase from left to right. -/
def IncreasingKeys (s : IxIndexHandle K) (lvl : List Int) : Prop :=
  lvl.Pairwise fun a b => compare (s.firstKey a) (s.firstKey b) = .lt

theorem increasingKeys_iff : IncreasingKeys s lvl ↔
    (lvl.map s.firstKey).Pairwise fun a b => compare a b = .lt := by
  rw [List.pairwise_map]
  rfl

/-- The first keys of the parents increase with those of the children. -/
theorem Linked.increasing (h : Linked s lvl below) (hseps : Seps s lvl)
    (hne : ∀ p ∈ lvl, (s.page p).numKey ≠ 0) (hinc : IncreasingKeys s below) :
    IncreasingKeys s lvl := by
  rw [increasingKeys_iff] at hinc ⊢
  rw [h.flat] at hinc
  exact hinc.sublist (map_firstKey_sublist hne hseps)

/-- The keys of an inner node increase. -/
theorem Linked.increasing_entries (h : Linked s lvl below) (hseps : Seps s lvl)
    (hinc : IncreasingKeys s below) {p : Int} (hp : p ∈ lvl) : Increasing (s.page p).entries := by
  have hsub : (s.children p).Sublist below := by
    rw [h.flat]
    exact List.sublist_flatten_of_mem (List.mem_map_of_mem hp)
  have hpair : (s.children p).Pairwise fun a b => compare (s.firstKey a) (s.firstKey b) = .lt :=
    List.Pairwise.sublist hsub hinc
  unfold children at hpair
  rw [List.pairwise_map] at hpair
  refine hpair.imp_of_mem fun ha hb hab => ?_
  rw [hseps p hp _ ha, hseps p hp _ hb]
  exact hab

theorem Upper.increasing_up (h : Upper s below (lvl :: rest)) (hinc : IncreasingKeys s below) :
    IncreasingKeys s lvl :=
  h.linked.increasing (h.seps _ List.mem_cons_self) h.numKey_ne_zero hinc

/-- The node of a level that is responsible for a key. -/
def Target (s : IxIndexHandle K) (k : K) (lvl : List Int) (p : Int) : Prop :=
  ∃ A B, lvl = A ++ p :: B ∧ (A = [] ∨ compare k (s.firstKey p) ≠ .lt) ∧
    ∀ b ∈ B, compare k (s.firstKey b) = .lt

theorem Target.mem {k : K} {p : Int} (h : Target s k lvl p) : p ∈ lvl := by
  obtain ⟨A, B, rfl, -⟩ := h
  exact List.mem_append_right _ List.mem_cons_self

variable [TransOrd K]

/-- The first key of a node is not above its keys. -/
theorem firstKey_le {p : Int} (hinc : Increasing (s.page p).entries) {e : K × Rid}
    (he : e ∈ (s.page p).entries) : (compare (s.firstKey p) e.1).isLE := by
  have hne : (s.page p).numKey ≠ 0 := by
    rw [← IxNode.length_entries]
    exact Nat.ne_of_gt (List.length_pos_of_mem he)
  obtain ⟨e₀, l, hl, he₀⟩ := entries_eq_cons hne
  rw [hl] at he hinc
  rw [← he₀]
  cases he with
  | head => exact ReflCmp.isLE_rfl
  | tail _ he =>
    rw [(List.pairwise_cons.mp hinc).1 e he]
    rfl

/-- **One step down.** `internal_lookup` goes to the target of the level below. -/
theorem Target.child {k : K} {p : Int} (hlink : Linked s lvl below) (hseps : Seps s lvl)
    (hne : ∀ p ∈ lvl, (s.page p).numKey ≠ 0) (hinc : IncreasingKeys s below)
    (h : Target s k lvl p) : Target s k below ((s.page p).internalLookup k) := by
  have hp := h.mem
  obtain ⟨A, B, rfl, hA, hB⟩ := h
  obtain ⟨X, e, Y, heq, hlook, hX, hY⟩ := (s.page p).internalLookup_split k (hne p hp)
  have hentries : ∀ {q}, q ∈ A ++ p :: B → Increasing (s.page q).entries :=
    fun hq => hlink.increasing_entries hseps hinc hq
  have hkey : ∀ e' ∈ (s.page p).entries, e'.1 = s.firstKey e'.2.pageNo := hseps p hp
  rw [hlook]
  refine ⟨A.flatMap s.children ++ X.map (fun e => e.2.pageNo),
    Y.map (fun e => e.2.pageNo) ++ B.flatMap s.children, ?_, ?_, ?_⟩
  · rw [hlink.flat, List.flatMap_append, List.flatMap_cons]
    unfold children
    rw [heq]
    simp only [List.map_append, List.map_cons, List.append_assoc, List.cons_append]
  · have hmem : e ∈ (s.page p).entries := by
      rw [heq]
      exact List.mem_append_right _ List.mem_cons_self
    rw [← hkey e hmem]
    rcases hX with rfl | hX
    · -- the first child has the key of its parent
      rcases hA with rfl | hA
      · exact Or.inl rfl
      · right
        obtain ⟨e₀, l, hl, he₀⟩ := entries_eq_cons (hne p hp)
        rw [heq, List.nil_append] at hl
        rw [(List.cons.inj hl).1, he₀]
        exact hA
    · exact Or.inr hX
  · intro b hb
    rcases List.mem_append.mp hb with hb | hb
    · obtain ⟨y, hy, rfl⟩ := List.mem_map.mp hb
      have hmem : y ∈ (s.page p).entries := by
        rw [heq]
        exact List.mem_append_right _ (List.mem_cons_of_mem _ hy)
      rw [← hkey y hmem]
      have hinY : Increasing Y := by
        have hinp := hentries hp
        rw [heq] at hinp
        exact (List.pairwise_cons.mp (increasing_append.mp hinp).2.1).2
      exact hinY.lt_of_mem hY y hy
    · obtain ⟨q, hq, hbq⟩ := List.mem_flatMap.mp hb
      have hq' : q ∈ A ++ p :: B := List.mem_append_right _ (List.mem_cons_of_mem _ hq)
      obtain ⟨e', he', rfl⟩ := mem_children.mp hbq
      rw [← hseps q hq' e' he']
      exact TransCmp.lt_of_lt_of_isLE (hB q hq) (firstKey_le (hentries hq') he')

/-! ### The levels above -/

namespace Upper

/-- **`find_leaf_page`** goes down one level a round, from target to target. -/
theorem findLeaf (h : Upper s below levels) (hinc : IncreasingKeys s below) (k : K) :
    ∃ p, Target s k below p ∧ ∀ fuel,
      s.findLeafFrom k (fuel + levels.length) s.rootPage = s.findLeafFrom k fuel p := by
  induction levels generalizing below with
  | nil =>
    cases h.shape with
    | root hr hp =>
      refine ⟨_, ⟨[], [], rfl, Or.inl rfl, fun _ hb => absurd hb List.not_mem_nil⟩, fun fuel => ?_⟩
      rw [hr]
      rfl
  | cons lvl rest ih =>
    obtain ⟨q, hq, hdown⟩ := ih h.tail (h.increasing_up hinc)
    have hinner := h.linked.inner q hq.mem
    refine ⟨_, hq.child h.linked (h.seps _ List.mem_cons_self) h.numKey_ne_zero hinc, fun fuel => ?_⟩
    have hround : s.findLeafFrom k (fuel + 1) q =
        s.findLeafFrom k fuel ((s.page q).internalLookup k) := by
      rw [findLeafFrom, hinner]
      rfl
    rw [← hround, ← hdown, List.length_cons]
    congr 1
    omega

/-- `find_leaf_page` on a whole tree. -/
theorem findLeafPage (h : Upper s below levels) (hinc : IncreasingKeys s below)
    (hleaf : ∀ p ∈ below, (s.page p).isLeaf = true) (k : K) :
    ∃ p, Target s k below p ∧ s.findLeafPage k = .ok p := by
  obtain ⟨p, hp, hdown⟩ := h.findLeaf hinc k
  refine ⟨p, hp, ?_⟩
  have hfuel := h.length_lt_fuel
  obtain ⟨n, hn⟩ : ∃ n, s.fuel = n + 1 + levels.length := ⟨s.fuel - levels.length - 1, by omega⟩
  unfold IxIndexHandle.findLeafPage
  rw [hn, hdown, findLeafFrom, if_pos (hleaf p hp.mem)]

end Upper

end Ord

end IxIndexHandle

end Rmdb
