import Rmdb.Index.InsertEntry
import Rmdb.Lib.Cursor

namespace Rmdb

open Lib Std

/-!
# Scanning the leaves (`index/ix_scan.cpp`, `IxIndexHandle::lower_bound`, `upper_bound`)

A scan goes from slot to slot along the leaves, from `lower_bound` of one key to `upper_bound` of
another.  `lower_bound` may point behind the last slot of a leaf that is not the last one, and
`upper_bound` of a key that ends a leaf is the end of the last leaf.

* `IxScan.cursor` — the scan;
* `IxIndexHandle.place` — the slots of all leaves in order, and the place behind the last one;
* `BetweenLeaves`, `EndsLeaf` — where the two keys of a scan can fall;
* `Tree.scan_visits`, `Tree.scan_fails` — when the scan reaches its end, and what it visits.
-/

/-- `struct Iid`: a slot of a leaf. -/
structure Iid where
  pageNo : Int
  slotNo : Nat
  deriving DecidableEq, Repr

/-- `class IxScan`: where it is and where it ends. -/
structure IxScan where
  iid : Iid
  stop : Iid
  deriving DecidableEq, Repr

namespace IxIndexHandle

variable {K : Type} (s : IxIndexHandle K)

/-- `get_rid`. -/
def getRid (iid : Iid) : Except IxError Rid :=
  if (s.page iid.pageNo).numKey ≤ iid.slotNo then .error (.rmdbError "Index entry not found")
  else .ok ((s.page iid.pageNo).rids iid.slotNo)

/-- `leaf_end`. -/
def leafEnd : Iid := ⟨s.lastLeaf, (s.page s.lastLeaf).numKey⟩

/-- `lower_bound`. -/
def lowerBound [Ord K] (key : K) : Except IxError Iid := do
  let p ← s.findLeafPage key
  return ⟨p, (s.page p).lowerBound key⟩

/-- `upper_bound`. -/
def upperBound [Ord K] (key : K) : Except IxError Iid := do
  let p ← s.findLeafPage key
  let keyIdx := (s.page p).upperBound key
  return if keyIdx = (s.page p).numKey then s.leafEnd else ⟨p, keyIdx⟩

/-- The scan from `lower_bound` of one key to `upper_bound` of another. -/
def scan [Ord K] (lo hi : K) : Except IxError IxScan := do
  let lower ← s.lowerBound lo
  let upper ← s.upperBound hi
  return ⟨lower, upper⟩

/-- The slot after this one: in the last leaf the next slot, in another leaf the first slot of the next
    leaf after the last slot. -/
def nextIid (iid : Iid) : Iid :=
  if iid.pageNo ≠ s.lastLeaf ∧ iid.slotNo + 1 = (s.page iid.pageNo).numKey then
    ⟨(s.page iid.pageNo).nextLeaf, 0⟩
  else ⟨iid.pageNo, iid.slotNo + 1⟩

end IxIndexHandle

namespace IxScan

variable {K : Type} (s : IxIndexHandle K)

/-- `is_end`. -/
def isEnd (c : IxScan) : Bool := c.iid = c.stop

/-- `next`, with its three assertions. -/
def next (c : IxScan) : Except IxError IxScan :=
  if c.isEnd ∨ (s.page c.iid.pageNo).isLeaf = false ∨
      (s.page c.iid.pageNo).numKey ≤ c.iid.slotNo then .error .assertion
  else .ok { c with iid := s.nextIid c.iid }

/-- The scan as a cursor over record ids. -/
def cursor : Cursor IxScan Rid IxError where
  isEnd := isEnd
  item c := s.getRid c.iid
  next := next s
  stuck := .outOfFuel

end IxScan

namespace IxIndexHandle

variable {K : Type} {s : IxIndexHandle K} {leaves A B : List Int} {levels : List (List Int)} {p : Int}

/-! ### Places -/

/-- The slots of these leaves. -/
def slots (s : IxIndexHandle K) (leaves : List Int) : List Iid :=
  leaves.flatMap fun p => (List.range (s.page p).numKey).map (Iid.mk p)

/-- The slot number `g`, and behind the last one the end. -/
def place (s : IxIndexHandle K) (leaves : List Int) (g : Nat) : Iid :=
  ((s.slots leaves)[g]?).getD s.leafEnd

/-- The slots of the first leaf, then the rest. -/
theorem slots_cons (s : IxIndexHandle K) (p : Int) (l : List Int) :
    s.slots (p :: l) = (List.range (s.page p).numKey).map (Iid.mk p) ++ s.slots l := List.flatMap_cons

/-- The slots of leaves side by side. -/
theorem slots_append (s : IxIndexHandle K) (l l' : List Int) :
    s.slots (l ++ l') = s.slots l ++ s.slots l' := List.flatMap_append

/-- The pairs of the leaves are in their slots. -/
theorem contents_eq_map_slots (s : IxIndexHandle K) (leaves : List Int) : s.contents leaves =
    (s.slots leaves).map fun iid =>
      ((s.page iid.pageNo).keys iid.slotNo, (s.page iid.pageNo).rids iid.slotNo) := by
  unfold contents slots IxNode.entries
  rw [List.map_flatMap]
  refine List.flatMap_congr fun p _ => ?_
  rw [List.map_map]
  rfl

/-- There is a slot for each pair. -/
@[simp] theorem length_slots (s : IxIndexHandle K) (leaves : List Int) :
    (s.slots leaves).length = (s.contents leaves).length := by
  rw [contents_eq_map_slots, List.length_map]

/-- A slot is in use in its leaf. -/
theorem mem_slots {iid : Iid} : iid ∈ s.slots leaves ↔
    iid.pageNo ∈ leaves ∧ iid.slotNo < (s.page iid.pageNo).numKey := by
  unfold slots
  simp only [List.mem_flatMap, List.mem_map, List.mem_range]
  constructor
  · rintro ⟨p, hp, i, hi, rfl⟩
    exact ⟨hp, hi⟩
  · rintro ⟨hp, hi⟩
    exact ⟨iid.pageNo, hp, iid.slotNo, hi, rfl⟩

/-- No slot is visited twice. -/
theorem slots_nodup (h : leaves.Nodup) : (s.slots leaves).Nodup := by
  unfold slots
  refine List.nodup_flatMap.mpr ⟨fun p _ => ?_, h.imp fun hpq => ?_⟩
  · refine List.Nodup.map (fun i j hij => ?_) List.nodup_range
    cases hij
    rfl
  · refine List.disjoint_left.mpr fun iid hp hq => hpq ?_
    obtain ⟨i, -, rfl⟩ := List.mem_map.mp hp
    obtain ⟨j, -, hj⟩ := List.mem_map.mp hq
    cases hj
    rfl

/-- The slot of the pair with a number. -/
theorem place_of_lt {g : Nat} (hg : g < (s.contents leaves).length) :
    (s.slots leaves)[g]? = some (s.place leaves g) := by
  rw [← length_slots] at hg
  unfold place
  rw [List.getElem?_eq_getElem hg]
  rfl

/-- It is one of the slots. -/
theorem place_mem {g : Nat} (hg : g < (s.contents leaves).length) :
    s.place leaves g ∈ s.slots leaves := List.mem_of_getElem? (place_of_lt hg)

/-- Behind the last pair the scan is at its end. -/
theorem place_end (s : IxIndexHandle K) (leaves : List Int) :
    s.place leaves (s.contents leaves).length = s.leafEnd := by
  unfold place
  rw [List.getElem?_eq_none (by rw [length_slots])]
  rfl

/-- The end is no slot. -/
theorem leafEnd_not_mem (s : IxIndexHandle K) (leaves : List Int) : s.leafEnd ∉ s.slots leaves :=
  fun h => Nat.lt_irrefl _ (mem_slots.mp h).2

/-- Different numbers are different places. -/
theorem place_inj (h : leaves.Nodup) {g g' : Nat} (hg : g ≤ (s.contents leaves).length)
    (hg' : g' ≤ (s.contents leaves).length) (heq : s.place leaves g = s.place leaves g') : g = g' := by
  have hend : ∀ {g}, g < (s.contents leaves).length → s.place leaves g ≠ s.leafEnd :=
    fun hlt hc => s.leafEnd_not_mem leaves (hc ▸ place_mem hlt)
  rcases Nat.lt_or_eq_of_le hg with hlt | rfl
  · rcases Nat.lt_or_eq_of_le hg' with hlt' | rfl
    · have h1 := place_of_lt hlt
      rw [heq, ← place_of_lt hlt'] at h1
      exact List.getElem?_inj (by rw [length_slots]; exact hlt) (slots_nodup h) |>.mp h1
    · rw [place_end] at heq
      exact absurd heq (hend hlt)
  · rcases Nat.lt_or_eq_of_le hg' with hlt' | rfl
    · rw [place_end] at heq
      exact absurd heq.symm (hend hlt')
    · rfl

/-- The record id in a slot. -/
theorem getRid_place {g : Nat} {e : K × Rid} (he : (s.contents leaves)[g]? = some e) :
    s.getRid (s.place leaves g) = .ok e.2 := by
  obtain ⟨hg, -⟩ := List.getElem?_eq_some_iff.mp he
  rw [contents_eq_map_slots, List.getElem?_map, place_of_lt hg] at he
  cases he
  unfold getRid
  rw [if_neg (Nat.not_le.mpr (mem_slots.mp (place_mem hg)).2)]

/-- There is no record at the end. -/
theorem getRid_leafEnd (s : IxIndexHandle K) :
    s.getRid s.leafEnd = .error (.rmdbError "Index entry not found") := if_pos (Nat.le_refl _)

/-! ### From place to place -/

/-- **`next` goes through the places in order**, if no leaf but a single one is empty. -/
theorem isChain_places (hnext : leaves.IsChain fun a b => (s.page a).nextLeaf = b)
    (hlast : leaves.getLast? = some s.lastLeaf) (hnd : leaves.Nodup)
    (hne : ∀ q l, leaves = q :: l → l ≠ [] → ∀ p ∈ leaves, (s.page p).numKey ≠ 0) :
    (s.slots leaves ++ [s.leafEnd]).IsChain fun a b => s.nextIid a = b := by
  -- inside a leaf the slots follow each other
  have hinside : ∀ (p : Int) (n : Nat), (p = s.lastLeaf ∨ n ≤ (s.page p).numKey) →
      ((List.range n).map (Iid.mk p)).IsChain fun a b => s.nextIid a = b := by
    intro p n hn
    rw [List.isChain_map, List.isChain_iff_getElem]
    intro i hi
    rw [List.length_range] at hi
    rw [List.getElem_range, List.getElem_range]
    unfold nextIid
    rw [if_neg]
    rintro ⟨hp, hi'⟩
    dsimp only at hp hi'
    rcases hn with hn | hn
    · exact hp hn
    · omega
  induction leaves with
  | nil => cases hlast
  | cons p l ih =>
    cases l with
    | nil =>
      cases hlast
      -- the end is the slot behind the last one
      have hend : s.slots [s.lastLeaf] ++ [s.leafEnd] =
          (List.range ((s.page s.lastLeaf).numKey + 1)).map (Iid.mk s.lastLeaf) := by
        rw [List.range_succ, List.map_append, slots_cons]
        simp [slots, leafEnd]
      rw [hend]
      exact hinside _ _ (Or.inl rfl)
    | cons q l =>
      have hpos := hne p (q :: l) rfl (List.cons_ne_nil _ _)
      have hp := hpos p List.mem_cons_self
      have hq := hpos q (List.mem_cons_of_mem _ List.mem_cons_self)
      obtain ⟨hpq, hrest⟩ := List.isChain_cons_cons.mp hnext
      rw [List.getLast?_cons_cons] at hlast
      obtain ⟨hpl, hnd'⟩ := List.nodup_cons.mp hnd
      rw [slots_cons, List.append_assoc]
      refine List.isChain_append.mpr ⟨hinside p _ (Or.inr (Nat.le_refl _)), ?_, ?_⟩
      · exact ih hrest hlast hnd' fun _ _ _ _ x hx => hpos x (List.mem_cons_of_mem _ hx)
      · -- from the last slot of `p` to the first one of `q`
        intro x hx y hy
        obtain ⟨n, hn⟩ := Nat.exists_eq_succ_of_ne_zero hp
        obtain ⟨m, hm⟩ := Nat.exists_eq_succ_of_ne_zero hq
        rw [hn, List.range_succ, List.map_append, List.map_singleton, List.getLast?_concat] at hx
        rw [slots_cons, hm, List.range_succ_eq_map] at hy
        cases hx
        cases hy
        have hne' : p ≠ s.lastLeaf := by
          rintro rfl
          exact hpl (List.mem_of_getLast? hlast)
        unfold nextIid
        rw [if_pos ⟨hne', by rw [hn]⟩, hpq]

section Ord

variable [Ord K]

/-- In a tree with several leaves none is empty. -/
theorem Tree.several_ne_zero (h : Tree s leaves levels) {q : Int} {l : List Int}
    (hl : leaves = q :: l) (hne : l ≠ []) : ∀ p ∈ leaves, (s.page p).numKey ≠ 0 := by
  have hlevels : levels ≠ [] := by
    rintro rfl
    obtain ⟨r, hr⟩ := h.upper.leaves_eq_singleton
    rw [hl] at hr
    exact hne (List.cons.inj hr).2
  exact fun p hp => h.numKey_ne_zero hlevels hp

/-- **One step of a scan.** -/
theorem Tree.next_place (h : Tree s leaves levels) {g : Nat} (hg : g < (s.contents leaves).length)
    {stop : Iid} (hstop : s.place leaves g ≠ stop) :
    IxScan.next s ⟨s.place leaves g, stop⟩ = .ok ⟨s.place leaves (g + 1), stop⟩ := by
  have hmem := mem_slots.mp (place_mem hg)
  have hchain := isChain_places h.chain.next h.chain.last h.upper.below_nodup
    fun q l hl hne => h.several_ne_zero hl hne
  have hget : ∀ {i}, i ≤ (s.contents leaves).length →
      (s.slots leaves ++ [s.leafEnd])[i]? = some (s.place leaves i) := by
    intro i hi
    rcases Nat.lt_or_eq_of_le hi with hi | rfl
    · rw [List.getElem?_append_left (by rw [length_slots]; exact hi), place_of_lt hi]
    · rw [List.getElem?_append_right (by rw [length_slots]), place_end, length_slots, Nat.sub_self]
      rfl
  have hstep : s.nextIid (s.place leaves g) = s.place leaves (g + 1) := by
    have hlen : g + 1 < (s.slots leaves ++ [s.leafEnd]).length := by
      rw [List.length_append, length_slots]
      exact Nat.succ_lt_succ hg
    have hrel := List.isChain_iff_getElem.mp hchain g hlen
    rw [(List.getElem?_eq_some_iff.mp (hget (Nat.le_of_lt hg))).2,
      (List.getElem?_eq_some_iff.mp (hget hg)).2] at hrel
    exact hrel
  unfold IxScan.next
  rw [if_neg, hstep]
  rintro (hend | hleaf | hslot)
  · exact hstop (of_decide_eq_true hend)
  · rw [h.isLeaf _ hmem.1] at hleaf
    cases hleaf
  · exact absurd hmem.2 (Nat.not_lt.mpr hslot)

/-- **The way from one place to a later one.** -/
theorem Tree.visits_place (h : Tree s leaves levels) {a e : Nat} (hae : a ≤ e)
    (he : e ≤ (s.contents leaves).length) :
    (IxScan.cursor s).Visits ⟨s.place leaves a, s.place leaves e⟩
      ((((s.contents leaves).take e).drop a).map Prod.snd) := by
  obtain ⟨d, rfl⟩ := Nat.exists_eq_add_of_le hae
  clear hae
  induction d generalizing a with
  | zero =>
    rw [Nat.add_zero, List.drop_eq_nil_of_le (by rw [List.length_take]; omega)]
    exact .done (decide_eq_true rfl)
  | succ d ih =>
    have hlt : a < (s.contents leaves).length := by omega
    have hne : s.place leaves a ≠ s.place leaves (a + (d + 1)) := by
      intro hc
      have := place_inj h.upper.below_nodup (Nat.le_of_lt hlt) he hc
      omega
    have hget : ((s.contents leaves).take (a + (d + 1)))[a]? = some (s.contents leaves)[a] := by
      rw [List.getElem?_take_of_lt (by omega), List.getElem?_eq_getElem hlt]
    have hrest := ih (a := a + 1) (by omega)
    rw [Nat.add_right_comm, Nat.add_assoc] at hrest
    rw [List.drop_eq_getElem?_toList_append, hget, Option.toList_some, List.singleton_append,
      List.map_cons]
    exact .item (decide_eq_false hne) (getRid_place (List.getElem?_eq_getElem hlt))
      (h.next_place hlt hne) hrest

/-- From a later place there is no way back. -/
theorem Tree.not_visits_place (h : Tree s leaves levels) {a e : Nat} (hae : e < a)
    (ha : a ≤ (s.contents leaves).length) {l : List Rid} :
    ¬ (IxScan.cursor s).Visits ⟨s.place leaves a, s.place leaves e⟩ l := by
  intro hv
  generalize hc : (⟨s.place leaves a, s.place leaves e⟩ : IxScan) = c at hv
  have hne : ∀ {a}, e < a → a ≤ (s.contents leaves).length → s.place leaves a ≠ s.place leaves e := by
    intro a hae ha hc
    have := place_inj h.upper.below_nodup ha (by omega) hc
    omega
  induction hv generalizing a with
  | done hend =>
    subst hc
    exact hne hae ha (of_decide_eq_true hend)
  | item hend hitem hnext hrest ih =>
    subst hc
    rcases Nat.lt_or_eq_of_le ha with hlt | rfl
    · have hstep := h.next_place hlt (hne hae ha)
      cases hstep.symm.trans hnext
      exact ih (Nat.lt_succ_of_lt hae) hlt rfl
    · have hitem' : s.getRid (s.place leaves (s.contents leaves).length) = _ := hitem
      rw [place_end, getRid_leafEnd] at hitem'
      cases hitem'

/-! ### Where a scan begins -/

/-- The key falls between two leaves. -/
def BetweenLeaves (s : IxIndexHandle K) (leaves : List Int) (lo : K) : Prop :=
  ∃ A B, leaves = A ++ B ∧ A ≠ [] ∧ B ≠ [] ∧ (∀ e ∈ s.contents A, compare e.1 lo = .lt) ∧
    ∀ e ∈ s.contents B, compare lo e.1 = .lt

omit [Ord K] in
/-- The place of a slot. -/
theorem place_slot {i : Nat} (hi : i < (s.page p).numKey) :
    s.place (A ++ p :: B) ((s.contents A).length + i) = ⟨p, i⟩ := by
  unfold place
  rw [slots_append, slots_cons, List.getElem?_append_right (by rw [length_slots]; omega),
    length_slots, Nat.add_sub_cancel_left, List.getElem?_append_left (by simpa using hi),
    List.getElem?_map, List.getElem?_range hi]
  rfl

omit [Ord K] in
/-- The pairs before a leaf, in it and behind it. -/
theorem length_contents_target (s : IxIndexHandle K) (A B : List Int) (p : Int) :
    (s.contents (A ++ p :: B)).length =
      (s.contents A).length + ((s.page p).numKey + (s.contents B).length) := by
  rw [contents_append, contents_cons, List.length_append, List.length_append, IxNode.length_entries]

variable [TransOrd K]

/-- The leaf of a key, with what is known of its first key. -/
theorem Tree.target_first (h : Tree s leaves levels) (k : K) : ∃ A p B, leaves = A ++ p :: B ∧
    s.findLeafPage k = .ok p ∧ (A = [] ∨ compare k (s.firstKey p) ≠ .lt) ∧
    (∀ e ∈ s.contents A, compare e.1 k = .lt) ∧ ∀ e ∈ s.contents B, compare k e.1 = .lt := by
  obtain ⟨p, ⟨A, B, rfl, hA, hB⟩, hfind⟩ := h.upper.findLeafPage h.increasingKeys h.isLeaf k
  exact ⟨A, p, B, rfl, hfind, hA, h.contents_target hA hB⟩

/-- The place of a key among all pairs, from its place in its leaf. -/
theorem lowerIdx_contents {k : K} (hA : ∀ e ∈ s.contents A, compare e.1 k = .lt)
    (hB : ∀ e ∈ s.contents B, compare k e.1 = .lt) :
    lowerIdx k (s.contents (A ++ p :: B)) = (s.contents A).length + (s.page p).lowerBound k := by
  rw [IxNode.lowerBound_eq]
  obtain ⟨X, Y, heq, hidx, hX, hY⟩ := exists_split k (s.page p).entries
  have hassoc : s.contents (A ++ p :: B) = (s.contents A ++ X) ++ (Y ++ s.contents B) := by
    rw [contents_append, contents_cons, heq]
    simp only [List.append_assoc]
  rw [hidx, hassoc, lowerIdx_append, List.length_append]
  · intro e he
    rcases List.mem_append.mp he with he | he
    · exact hA e he
    · exact hX e he
  · intro e he
    cases Y with
    | nil =>
      rw [hB e (List.mem_of_mem_head? he)]
      rfl
    | cons y Y => exact hY e he

/-- All keys of a leaf are below a key that is to go behind them. -/
theorem lt_of_lowerBound_eq {k : K} (h : (s.page p).lowerBound k = (s.page p).numKey) :
    ∀ e ∈ (s.page p).entries, compare e.1 k = .lt := by
  rw [IxNode.lowerBound_eq] at h
  obtain ⟨X, Y, heq, hidx, hX, -⟩ := exists_split k (s.page p).entries
  have hlen := (s.page p).length_entries
  rw [heq, List.length_append, ← h, hidx] at hlen
  have hY : Y = [] := List.eq_nil_of_length_eq_zero (by omega)
  rw [heq, hY, List.append_nil]
  exact hX

/-- A key between two leaves belongs behind the last slot of its leaf. -/
theorem Tree.behind_of_betweenLeaves (h : Tree s (A ++ p :: B) levels) {k : K}
    (hfirst : A = [] ∨ compare k (s.firstKey p) ≠ .lt)
    (hA : ∀ e ∈ s.contents A, compare e.1 k = .lt) (hB : ∀ e ∈ s.contents B, compare k e.1 = .lt)
    (hb : BetweenLeaves s (A ++ p :: B) k) :
    (s.page p).lowerBound k = (s.page p).numKey ∧ B ≠ [] := by
  obtain ⟨A', B', heq, hA', hB', hlow, hhigh⟩ := hb
  have hpos : ∀ q ∈ A ++ p :: B, (s.page q).numKey ≠ 0 := by
    cases A' with
    | nil => exact absurd rfl hA'
    | cons a A' => exact h.several_ne_zero (heq.trans (List.cons_append ..)) (by simp [hB'])
  have hpp := hpos p (List.mem_append_right _ List.mem_cons_self)
  obtain ⟨e₀, l₀, hl₀, he₀⟩ := entries_eq_cons hpp
  -- a leaf cannot be on both sides
  have hboth : ∀ q ∈ A ++ p :: B, (∀ e ∈ (s.page q).entries, compare e.1 k = .lt) →
      ¬ ∀ e ∈ (s.page q).entries, compare k e.1 = .lt := by
    intro q hq h1 h2
    obtain ⟨e, l, hl, -⟩ := entries_eq_cons (hpos q hq)
    have hlt := h1 e (by rw [hl]; exact List.mem_cons_self)
    rw [OrientedCmp.gt_of_lt (h2 e (by rw [hl]; exact List.mem_cons_self))] at hlt
    cases hlt
  have hsub : ∀ {q : Int} {L : List Int}, q ∈ L → ∀ e ∈ (s.page q).entries, e ∈ s.contents L :=
    fun hq e he => List.mem_flatMap.mpr ⟨_, hq, he⟩
  -- the leaf of the key is on the left side, by its first key
  have hpA : p ∈ A' := by
    by_contra hpA
    have hpB : p ∈ B' := by
      have hmem : p ∈ A' ++ B' := heq ▸ List.mem_append_right _ List.mem_cons_self
      exact (List.mem_append.mp hmem).resolve_left hpA
    have hlt : compare k (s.firstKey p) = .lt := by
      rw [← he₀]
      exact hhigh e₀ (hsub hpB e₀ (by rw [hl₀]; exact List.mem_cons_self))
    rcases hfirst with rfl | hfirst
    · cases A' with
      | nil => exact hA' rfl
      | cons a A' =>
        rw [List.nil_append, List.cons_append] at heq
        exact hpA ((List.cons.inj heq).1 ▸ List.mem_cons_self)
    · exact hfirst hlt
  obtain ⟨L, R, rfl⟩ := List.append_of_mem hpA
  have hnd := h.upper.below_nodup
  have hsplit : A = L ∧ B = R ++ B' := by
    rw [List.append_assoc, List.cons_append] at heq
    have hpn := (List.nodup_middle.mp hnd)
    obtain ⟨hleft, -, hright⟩ := (List.append_cons_inj_of_notMem
      (fun hm => (List.nodup_cons.mp hpn).1 (List.mem_append_left _ hm))
      fun hm => (List.nodup_cons.mp hpn).1 (List.mem_append_right _ hm)).mp heq
    exact ⟨hleft, hright⟩
  obtain ⟨rfl, rfl⟩ := hsplit
  refine ⟨?_, by simp [hB']⟩
  rw [IxNode.lowerBound_eq, ← IxNode.length_entries]
  have hall : ∀ e ∈ (s.page p).entries, compare e.1 k = .lt := fun e he => hlow e (hsub hpA e he)
  have := lowerIdx_append (Y := []) hall fun e he => nomatch he
  rwa [List.append_nil] at this

/-- **`lower_bound`** is the place of its key. -/
theorem Tree.lowerBound_place (h : Tree s leaves levels) {lo : K} (hlo : ¬ BetweenLeaves s leaves lo) :
    s.lowerBound lo = .ok (s.place leaves (lowerIdx lo (s.contents leaves))) := by
  obtain ⟨A, p, B, rfl, hfind, -, hA, hB⟩ := h.target_first lo
  have hiid : s.lowerBound lo = .ok ⟨p, (s.page p).lowerBound lo⟩ := by
    unfold lowerBound
    rw [hfind]
    rfl
  have hle : (s.page p).lowerBound lo ≤ (s.page p).numKey := by
    rw [IxNode.lowerBound_eq, ← IxNode.length_entries]
    exact lowerIdx_le _ _
  rw [hiid, lowerIdx_contents hA hB]
  rcases Nat.lt_or_eq_of_le hle with hlt | heq
  · rw [place_slot hlt]
  · -- behind the last slot, so this is the last leaf
    cases B with
    | cons b B =>
      refine absurd ⟨A ++ [p], b :: B, by simp, by simp, List.cons_ne_nil _ _, ?_, hB⟩ hlo
      intro e he
      rw [contents_append, List.mem_append] at he
      rcases he with he | he
      · exact hA e he
      · rw [contents_cons, contents, List.flatMap_nil, List.append_nil] at he
        exact lt_of_lowerBound_eq heq e he
    | nil =>
      have hlast : s.lastLeaf = p := by
        have := h.chain.last
        rw [List.getLast?_concat] at this
        exact (Option.some.inj this).symm
      have hlen : (s.contents A).length + (s.page p).lowerBound lo =
          (s.contents (A ++ [p])).length := by
        rw [length_contents_target, heq]
        rfl
      rw [hlen, place_end, leafEnd, hlast, heq]

/-- `lower_bound` of a key between two leaves points to no slot. -/
theorem Tree.lowerBound_between (h : Tree s leaves levels) {lo : K} (hlo : BetweenLeaves s leaves lo) :
    ∃ iid, s.lowerBound lo = .ok iid ∧ iid ≠ s.leafEnd ∧
      s.getRid iid = .error (.rmdbError "Index entry not found") := by
  obtain ⟨A, p, B, rfl, hfind, hfirst, hA, hB⟩ := h.target_first lo
  obtain ⟨heq, hBne⟩ := h.behind_of_betweenLeaves hfirst hA hB hlo
  refine ⟨⟨p, (s.page p).numKey⟩, ?_, fun hc => ?_, if_pos (Nat.le_refl _)⟩
  · unfold lowerBound
    rw [hfind]
    show Except.ok (⟨p, (s.page p).lowerBound lo⟩ : Iid) = _
    rw [heq]
  · -- the last leaf is one of `B`
    have hp : p = s.lastLeaf := congrArg Iid.pageNo hc
    have hlast := h.chain.last
    rw [List.getLast?_append_cons, List.getLast?_cons_of_ne_nil hBne, ← hp] at hlast
    exact (List.nodup_cons.mp (List.nodup_append.mp h.upper.below_nodup).2.1).1
      (List.mem_of_getLast? hlast)

/-! ### Where a scan ends -/

/-- The pairs up to the key, and the first one in any case, end where a leaf ends. -/
def EndsLeaf (s : IxIndexHandle K) (leaves : List Int) (hi : K) : Prop :=
  ∃ A, A <+: leaves ∧ (s.contents A).length = max 1 (upperIdx hi (s.contents leaves))

/-- Where the keys above a key begin among all pairs, from where they begin in its leaf. -/
theorem Tree.upperIdx_contents (h : Tree s (A ++ p :: B) levels) (hp : (s.page p).numKey ≠ 0) {k : K}
    (hfirst : A = [] ∨ compare k (s.firstKey p) ≠ .lt)
    (hA : ∀ e ∈ s.contents A, compare e.1 k = .lt) (hB : ∀ e ∈ s.contents B, compare k e.1 = .lt) :
    max 1 (upperIdx k (s.contents (A ++ p :: B))) =
      (s.contents A).length + (s.page p).upperBound k := by
  have hpm : p ∈ A ++ p :: B := List.mem_append_right _ List.mem_cons_self
  rw [IxNode.upperBound_eq _ _ hp (h.leaf_sorted hpm), contents_append, contents_cons,
    upperIdx_append fun e he => by rw [hA e he]; rfl,
    upperIdx_append_of_gt fun e he => hB e (List.mem_of_mem_head? he)]
  rcases hfirst with rfl | hfirst
  · rw [contents, List.flatMap_nil, List.length_nil, Nat.zero_add, Nat.zero_add]
  · -- the first key of the leaf is not above `k`
    obtain ⟨e₀, l, hl, he₀⟩ := entries_eq_cons hp
    have hpos : 0 < upperIdx k (s.page p).entries := by
      refine ((h.leaf_sorted hpm).lt_upperIdx_iff (e := e₀) (by rw [hl]; rfl)).mpr ?_
      rw [he₀, ← OrientedCmp.isGE_iff_isLE]
      revert hfirst
      cases compare k (s.firstKey p) <;> simp
    omega

omit [Ord K] [TransOrd K] in
/-- Fewer leaves hold fewer pairs. -/
theorem length_contents_le {l l' : List Int} (h : l <+: l') :
    (s.contents l).length ≤ (s.contents l').length := by
  obtain ⟨r, rfl⟩ := h
  rw [contents_append, List.length_append]
  exact Nat.le_add_right _ _

/-- The key ends a leaf if `upper_bound` of its leaf is the size of the leaf. -/
theorem Tree.endsLeaf_iff (h : Tree s (A ++ p :: B) levels) (hp : (s.page p).numKey ≠ 0) {k : K}
    (hfirst : A = [] ∨ compare k (s.firstKey p) ≠ .lt)
    (hA : ∀ e ∈ s.contents A, compare e.1 k = .lt) (hB : ∀ e ∈ s.contents B, compare k e.1 = .lt) :
    EndsLeaf s (A ++ p :: B) k ↔ (s.page p).upperBound k = (s.page p).numKey := by
  have hone : (s.contents (A ++ [p])).length = (s.contents A).length + (s.page p).numKey := by
    rw [length_contents_target]
    rfl
  have hpre : A ++ [p] <+: A ++ p :: B := ⟨B, by simp⟩
  obtain ⟨j, hj, hjn, -⟩ := (s.page p).upperBound_spec k hp
  unfold EndsLeaf
  rw [h.upperIdx_contents hp hfirst hA hB]
  constructor
  · rintro ⟨A', hA', hlen⟩
    rcases List.prefix_or_prefix_of_prefix hA' hpre with hle | hle
    · rcases List.prefix_concat_iff.mp hle with rfl | hle
      · omega
      · have := length_contents_le (s := s) hle
        omega
    · have := length_contents_le (s := s) hle
      omega
  · intro heq
    exact ⟨A ++ [p], hpre, by rw [hone, heq]⟩

/-- **`upper_bound`** is the place behind its key, or the end if the key ends a leaf. -/
theorem Tree.upperBound_place (h : Tree s leaves levels) (hne : s.contents leaves ≠ []) (hi : K) :
    (EndsLeaf s leaves hi → s.upperBound hi = .ok (s.place leaves (s.contents leaves).length)) ∧
      (¬ EndsLeaf s leaves hi → s.upperBound hi =
        .ok (s.place leaves (max 1 (upperIdx hi (s.contents leaves))))) := by
  obtain ⟨A, p, B, rfl, hfind, hfirst, hA, hB⟩ := h.target_first hi
  have hp : (s.page p).numKey ≠ 0 := by
    by_cases hlevels : levels = []
    · subst hlevels
      obtain ⟨r, hr⟩ := h.upper.leaves_eq_singleton
      rw [hr, contents_cons, contents, List.flatMap_nil, List.append_nil] at hne
      have hpr : p = r := by
        have hmem : p ∈ A ++ p :: B := List.mem_append_right _ List.mem_cons_self
        rw [hr] at hmem
        exact List.mem_singleton.mp hmem
      rw [hpr, ← IxNode.length_entries]
      exact fun hz => hne (List.eq_nil_of_length_eq_zero hz)
    · exact h.numKey_ne_zero hlevels (List.mem_append_right _ List.mem_cons_self)
  have hub : s.upperBound hi = .ok (if (s.page p).upperBound hi = (s.page p).numKey then s.leafEnd
      else ⟨p, (s.page p).upperBound hi⟩) := by
    unfold upperBound
    rw [hfind]
    rfl
  rw [h.endsLeaf_iff hp hfirst hA hB, h.upperIdx_contents hp hfirst hA hB, hub]
  obtain ⟨j, hj, hjn, -⟩ := (s.page p).upperBound_spec hi hp
  refine ⟨fun heq => ?_, fun hneq => ?_⟩
  · rw [if_pos heq, place_end]
  · rw [if_neg hneq, place_slot (by omega)]

/-- The leaf of a key in an empty tree. -/
theorem Tree.entries_eq_nil (h : Tree s leaves levels) (hnil : s.contents leaves = []) {k : K}
    (hfind : s.findLeafPage k = .ok p) : (s.page p).entries = [] := by
  obtain ⟨A, q, B, rfl, hfind', -⟩ := h.target_first k
  cases hfind.symm.trans hfind'
  rw [contents_append, contents_cons, List.append_eq_nil_iff, List.append_eq_nil_iff] at hnil
  exact hnil.2.1

/-- On an empty tree a scan starts at a slot that is not there, and ends at the next one. -/
theorem Tree.scan_empty (h : Tree s leaves levels) (hnil : s.contents leaves = []) {lo hi : K}
    {lower upper : Iid} (hlower : s.lowerBound lo = .ok lower) (hupper : s.upperBound hi = .ok upper) :
    lower.slotNo = 0 ∧ upper.slotNo = 1 ∧
      s.getRid lower = .error (.rmdbError "Index entry not found") := by
  obtain ⟨p, hp, hlower⟩ := bind_eq_ok.mp hlower
  obtain ⟨q, hq, hupper⟩ := bind_eq_ok.mp hupper
  have hpz := h.entries_eq_nil hnil hp
  have hqz : (s.page q).numKey = 0 := by
    rw [← IxNode.length_entries, h.entries_eq_nil hnil hq]
    rfl
  have hone : (s.page q).upperBound hi = 1 := by
    unfold IxNode.upperBound
    rw [hqz]
    rfl
  cases hlower
  rw [hone, hqz] at hupper
  dsimp only at hupper
  rw [if_neg Nat.one_ne_zero] at hupper
  cases hupper
  refine ⟨?_, rfl, if_pos ?_⟩
  · show (s.page p).lowerBound lo = 0
    rw [IxNode.lowerBound_eq, hpz]
    rfl
  · rw [← IxNode.length_entries, hpz]
    exact Nat.zero_le _

/-! ### Scans -/

/-- **When a scan ends well**: there is a pair, the lower key does not fall between two leaves, and it
    does not lie behind the end of the scan. -/
structure ScanEnds (s : IxIndexHandle K) (leaves : List Int) (lo hi : K) : Prop where
  ne_nil : s.contents leaves ≠ []
  low : ¬ BetweenLeaves s leaves lo
  order : EndsLeaf s leaves hi ∨
    lowerIdx lo (s.contents leaves) ≤ max 1 (upperIdx hi (s.contents leaves))

/-- The pair of a key is visited. -/
def Scanned (s : IxIndexHandle K) (leaves : List Int) (lo hi k : K) : Prop :=
  (compare lo k).isLE ∧ (EndsLeaf s leaves hi ∨
    lowerIdx k (s.contents leaves) < max 1 (upperIdx hi (s.contents leaves)))

omit [TransOrd K] in
/-- The end of a scan is not behind the last pair. -/
theorem max_upperIdx_le (hne : s.contents leaves ≠ []) (hi : K) :
    max 1 (upperIdx hi (s.contents leaves)) ≤ (s.contents leaves).length := by
  have hpos := List.length_pos_of_ne_nil hne
  have hle : upperIdx hi (s.contents leaves) ≤ (s.contents leaves).length := List.findIdx_le_length
  omega

/-- **What a scan visits.** -/
theorem Tree.scan_visits (h : Tree s leaves levels) {lo hi : K} (hs : ScanEnds s leaves lo hi) :
    ∃ c e, s.scan lo hi = .ok c ∧
      (EndsLeaf s leaves hi ∧ e = (s.contents leaves).length ∨
        ¬ EndsLeaf s leaves hi ∧ e = max 1 (upperIdx hi (s.contents leaves))) ∧
      (IxScan.cursor s).Visits c
        ((((s.contents leaves).take e).drop (lowerIdx lo (s.contents leaves))).map Prod.snd) := by
  have hlow := h.lowerBound_place hs.low
  obtain ⟨hend, hinside⟩ := h.upperBound_place hs.ne_nil hi
  have hscan : ∀ {u}, s.upperBound hi = .ok u →
      s.scan lo hi = .ok ⟨s.place leaves (lowerIdx lo (s.contents leaves)), u⟩ := by
    intro u hu
    unfold scan
    rw [hlow]
    show (s.upperBound hi >>= _) = _
    rw [hu]
    rfl
  by_cases he : EndsLeaf s leaves hi
  · exact ⟨_, _, hscan (hend he), Or.inl ⟨he, rfl⟩, h.visits_place (lowerIdx_le _ _) (Nat.le_refl _)⟩
  · exact ⟨_, _, hscan (hinside he), Or.inr ⟨he, rfl⟩,
      h.visits_place (hs.order.resolve_left he) (max_upperIdx_le hs.ne_nil hi)⟩

omit [Ord K] [TransOrd K] in
/-- A scan that starts at no slot, and not at its end, throws. -/
theorem not_visits_of_getRid {iid stop : Iid} {e : IxError} (hne : iid ≠ stop)
    (hrid : s.getRid iid = .error e) {l : List Rid} : ¬ (IxScan.cursor s).Visits ⟨iid, stop⟩ l := by
  intro hv
  cases hv with
  | done hend => exact hne (of_decide_eq_true hend)
  | item hend hitem _ _ =>
    have hitem' : s.getRid iid = .ok _ := hitem
    rw [hrid] at hitem'
    cases hitem'

/-- Both ends of a scan are found. -/
theorem Tree.scan_ok (h : Tree s leaves levels) (lo hi : K) : ∃ c, s.scan lo hi = .ok c := by
  obtain ⟨A, p, B, -, hp, -⟩ := h.target_first lo
  obtain ⟨A', q, B', -, hq, -⟩ := h.target_first hi
  unfold scan lowerBound upperBound
  rw [hp, hq]
  exact ⟨_, rfl⟩

/-- **In all other cases the scan does not reach its end.** -/
theorem Tree.scan_fails (h : Tree s leaves levels) {lo hi : K} (hs : ¬ ScanEnds s leaves lo hi)
    {c : IxScan} (hc : s.scan lo hi = .ok c) (l : List Rid) : ¬ (IxScan.cursor s).Visits c l := by
  obtain ⟨lower, hlower, hc⟩ := bind_eq_ok.mp hc
  obtain ⟨upper, hupper, hc⟩ := bind_eq_ok.mp hc
  cases hc
  by_cases hne : s.contents leaves = []
  · obtain ⟨hzero, hone, hrid⟩ := h.scan_empty hne hlower hupper
    refine not_visits_of_getRid (fun hc => ?_) hrid
    rw [← hc, hzero] at hone
    cases hone
  · obtain ⟨hend, hinside⟩ := h.upperBound_place hne hi
    have hupper' : ∃ e ≤ (s.contents leaves).length, upper = s.place leaves e ∧
        (EndsLeaf s leaves hi ∨ e = max 1 (upperIdx hi (s.contents leaves))) := by
      by_cases he : EndsLeaf s leaves hi
      · cases hupper.symm.trans (hend he)
        exact ⟨_, Nat.le_refl _, rfl, Or.inl he⟩
      · cases hupper.symm.trans (hinside he)
        exact ⟨_, max_upperIdx_le hne hi, rfl, Or.inr rfl⟩
    obtain ⟨e, he, rfl, hcase⟩ := hupper'
    by_cases hlo : BetweenLeaves s leaves lo
    · obtain ⟨iid, hiid, hlast, hrid⟩ := h.lowerBound_between hlo
      cases hlower.symm.trans hiid
      refine not_visits_of_getRid (fun hc => ?_) hrid
      rcases Nat.lt_or_eq_of_le he with hlt | rfl
      · -- a slot can be read
        rw [hc, getRid_place (List.getElem?_eq_getElem hlt)] at hrid
        cases hrid
      · rw [place_end] at hc
        exact hlast hc
    · cases hlower.symm.trans (h.lowerBound_place hlo)
      have horder : ¬ (EndsLeaf s leaves hi ∨
          lowerIdx lo (s.contents leaves) ≤ max 1 (upperIdx hi (s.contents leaves))) :=
        fun hor => hs ⟨hne, hlo, hor⟩
      rw [not_or, Nat.not_le] at horder
      obtain rfl := hcase.resolve_left horder.1
      exact h.not_visits_place horder.2 (lowerIdx_le _ _)

/-- The pairs a scan visits, by their keys. -/
theorem Tree.mem_visited (h : Tree s leaves levels) (lo : K) {hi : K} {e : Nat}
    (he : EndsLeaf s leaves hi ∧ e = (s.contents leaves).length ∨
      ¬ EndsLeaf s leaves hi ∧ e = max 1 (upperIdx hi (s.contents leaves))) (x : K × Rid) :
    x ∈ ((s.contents leaves).take e).drop (lowerIdx lo (s.contents leaves)) ↔
      x ∈ s.contents leaves ∧ Scanned s leaves lo hi x.1 := by
  have hplace : ∀ {g : Nat}, (s.contents leaves)[g]? = some x →
      (lowerIdx lo (s.contents leaves) ≤ g ∧ g < e ↔ Scanned s leaves lo hi x.1) := by
    intro g hg
    have hlt := (List.getElem?_eq_some_iff.mp hg).1
    unfold Scanned
    rw [h.sorted.lowerIdx_le_iff hg, h.sorted.lowerIdx_eq hg]
    refine and_congr_right fun _ => ?_
    rcases he with ⟨hend, rfl⟩ | ⟨hend, rfl⟩
    · exact ⟨fun _ => Or.inl hend, fun _ => hlt⟩
    · exact ⟨Or.inr, fun hor => hor.resolve_left hend⟩
  constructor
  · intro hx
    obtain ⟨i, hi'⟩ := List.mem_iff_getElem?.mp hx
    rw [List.getElem?_drop] at hi'
    obtain ⟨hlen, -⟩ := List.getElem?_eq_some_iff.mp hi'
    rw [List.length_take] at hlen
    rw [List.getElem?_take_of_lt (by omega)] at hi'
    exact ⟨List.mem_of_getElem? hi', (hplace hi').mp ⟨Nat.le_add_right _ _, by omega⟩⟩
  · rintro ⟨hx, hs⟩
    obtain ⟨g, hg⟩ := List.mem_iff_getElem?.mp hx
    obtain ⟨hle, hlt⟩ := (hplace hg).mpr hs
    refine List.mem_iff_getElem?.mpr ⟨g - lowerIdx lo (s.contents leaves), ?_⟩
    rw [List.getElem?_drop, Nat.add_sub_cancel' hle, List.getElem?_take_of_lt hlt]
    exact hg

end Ord

end IxIndexHandle

end Rmdb
