import Mathlib.Logic.Function.Basic
import Rmdb.Defs
import Rmdb.Lib.SortedKeys

namespace Rmdb

open Lib Std

/-!
# Nodes of the B+ tree (`class IxNodeHandle`)

A node is a page: a header and an array of slots, each with a key and a record id (in an inner node
the page number of a child).  The slots from `num_key` on keep what was written there before, and
`insert` reads one of them.

* `IxNode.entries` — the slots in use, as a list;
* `entries_insertPairs`, `entries_shiftDown` — what the functions that move slots do to this list;
* `lowerBound_eq`, `internalLookup_split`, `leafLookup_eq`, `insert_split` — searches and `insert`.

The keys are of any type with a comparison (`ix_compare`); `default` is the key of zero bytes.
-/

/-- What can stop an operation of the index. -/
inductive IxError where
  | rmdbError (msg : String)
  /-- An `assert` fails. -/
  | assertion
  /-- A loop over the levels of the tree does not end. -/
  | outOfFuel
  deriving DecidableEq, Repr

/-- A page of the index, as `IxNodeHandle` reads it. -/
structure IxNode (K : Type) where
  parent : Int
  numKey : Nat
  isLeaf : Bool
  prevLeaf : Int
  nextLeaf : Int
  keys : Nat → K
  rids : Nat → Rid

namespace IxNode

variable {K : Type}

/-- A page filled with zeros. -/
def zero [Inhabited K] : IxNode K where
  parent := 0
  numKey := 0
  isLeaf := false
  prevLeaf := 0
  nextLeaf := 0
  keys _ := default
  rids _ := ⟨0, 0⟩

/-- `value_at`. -/
def valueAt (n : IxNode K) (i : Nat) : Int := (n.rids i).pageNo

/-- `is_root_page`. -/
def isRootPage (n : IxNode K) : Bool := n.parent = -1

/-- `insert_pairs`: `cnt` pairs at `pos`, the later ones make room.  Every caller has
    `pos ≤ num_key`. -/
def insertPairs (n : IxNode K) (pos : Nat) (ks : Nat → K) (rs : Nat → Rid) (cnt : Nat) : IxNode K :=
  { n with
    keys := fun i => if i < pos then n.keys i else if i < pos + cnt then ks (i - pos)
      else if i < n.numKey + cnt then n.keys (i - cnt) else n.keys i
    rids := fun i => if i < pos then n.rids i else if i < pos + cnt then rs (i - pos)
      else if i < n.numKey + cnt then n.rids (i - cnt) else n.rids i
    numKey := n.numKey + cnt }

/-- `insert_pair`. -/
def insertPair (n : IxNode K) (pos : Nat) (k : K) (r : Rid) : IxNode K :=
  n.insertPairs pos (fun _ => k) (fun _ => r) 1

/-- The slots from `pos` on move down by one. -/
def shiftDown (n : IxNode K) (pos : Nat) : IxNode K :=
  { n with
    keys := fun i => if i < pos then n.keys i else if i < n.numKey - 1 then n.keys (i + 1)
      else n.keys i
    rids := fun i => if i < pos then n.rids i else if i < n.numKey - 1 then n.rids (i + 1)
      else n.rids i
    numKey := n.numKey - 1 }

/-- `erase_pair`. -/
def erasePair (n : IxNode K) (pos : Nat) : Except IxError (IxNode K) :=
  if n.numKey ≤ pos then .error (.rmdbError "erase_pair pos wrong!") else .ok (n.shiftDown pos)

/-- `find_child`: the number of a child; the assertion fails if it is not there. -/
def findChild (n : IxNode K) (child : Int) : Except IxError Nat :=
  match (List.range n.numKey).find? fun i => n.valueAt i = child with
  | some i => .ok i
  | none => .error .assertion

section Ord

variable [Ord K]

/-- `lower_bound`: the first slot whose key is not below the target. -/
def lowerBound (n : IxNode K) (target : K) : Nat :=
  ((List.range n.numKey).find? fun i => (compare target (n.keys i)).isLE).getD n.numKey

/-- `upper_bound`: the first slot, from 1 on, whose key is above the target. -/
def upperBound (n : IxNode K) (target : K) : Nat :=
  ((List.range' 1 (n.numKey - 1)).find? fun i => (compare target (n.keys i)).isLT).getD
    (max 1 n.numKey)

/-- `leaf_lookup`. -/
def leafLookup (n : IxNode K) (key : K) : Option Rid :=
  let i := n.lowerBound key
  if i = n.numKey ∨ n.numKey = 0 then none
  else if compare (n.keys i) key = .eq then some (n.rids i) else none

/-- `internal_lookup`. -/
def internalLookup (n : IxNode K) (key : K) : Int := n.valueAt (n.upperBound key - 1)

/-- `insert`: the node afterwards; what the function returns is its size.  If all keys are lower than
    `key`, the slot compared is the one behind the last. -/
def insert (n : IxNode K) (key : K) (value : Rid) : IxNode K :=
  let i := n.lowerBound key
  if n.numKey ≠ 0 ∧ compare (n.keys i) key = .eq then n else n.insertPair i key value

end Ord

/-! ### The slots in use -/

/-- The pairs of a node. -/
def entries (n : IxNode K) : List (K × Rid) := (List.range n.numKey).map fun i => (n.keys i, n.rids i)

/-- There are as many pairs as the header says. -/
@[simp] theorem length_entries (n : IxNode K) : n.entries.length = n.numKey := by
  unfold entries
  rw [List.length_map, List.length_range]

/-- The pair of a slot. -/
theorem getElem?_entries (n : IxNode K) (i : Nat) :
    n.entries[i]? = if i < n.numKey then some (n.keys i, n.rids i) else none := by
  unfold entries
  rw [List.getElem?_map]
  split
  · rename_i h
    rw [List.getElem?_range h]
    rfl
  · rename_i h
    rw [List.getElem?_eq_none (by rw [List.length_range]; omega)]
    rfl

/-- The pairs before a slot, the pair in it, and those behind. -/
theorem entries_split (n : IxNode K) {i : Nat} (hi : i < n.numKey) :
    n.entries = n.entries.take i ++ (n.keys i, n.rids i) :: n.entries.drop (i + 1) := by
  have hlen : i < n.entries.length := by rw [length_entries]; exact hi
  have hget := getElem?_entries n i
  rw [if_pos hi, List.getElem?_eq_getElem hlen] at hget
  rw [← Option.some.inj hget, List.getElem_cons_drop, List.take_append_drop]

/-- The pairs depend on the slots in use only. -/
theorem entries_congr {n n' : IxNode K} (hn : n'.numKey = n.numKey)
    (h : ∀ i < n.numKey, n'.keys i = n.keys i ∧ n'.rids i = n.rids i) : n'.entries = n.entries := by
  unfold entries
  rw [hn]
  refine List.map_congr_left fun i hi => ?_
  obtain ⟨hk, hr⟩ := h i (List.mem_range.mp hi)
  rw [hk, hr]

/-- `insert_pairs` puts a block between the pairs. -/
theorem entries_insertPairs (n : IxNode K) {pos : Nat} (hpos : pos ≤ n.numKey) (ks : Nat → K)
    (rs : Nat → Rid) (cnt : Nat) : (n.insertPairs pos ks rs cnt).entries =
      n.entries.take pos ++ (List.range cnt).map (fun i => (ks i, rs i)) ++ n.entries.drop pos := by
  refine List.ext_getElem? fun i => ?_
  have hlen : (n.entries.take pos).length = pos := by
    rw [List.length_take, length_entries]
    omega
  have hlen' : (n.entries.take pos ++ (List.range cnt).map fun i => (ks i, rs i)).length =
      pos + cnt := by
    rw [List.length_append, hlen, List.length_map, List.length_range]
  rw [getElem?_entries, List.getElem?_append, hlen', List.getElem?_append, hlen, List.getElem?_drop,
    getElem?_entries, List.getElem?_take, getElem?_entries, List.getElem?_map]
  unfold insertPairs
  dsimp only
  by_cases h₁ : i < pos
  · rw [if_pos (by omega), if_pos h₁, if_pos h₁, if_pos (by omega), if_pos h₁, if_pos h₁,
      if_pos (by omega)]
  by_cases h₂ : i < pos + cnt
  · rw [if_pos (by omega), if_neg h₁, if_pos h₂, if_neg h₁, if_pos h₂, if_pos h₂, if_neg h₁,
      List.getElem?_range (by omega)]
    rfl
  by_cases h₃ : i < n.numKey + cnt
  · rw [if_pos h₃, if_neg h₁, if_neg h₂, if_pos h₃, if_neg h₁, if_neg h₂, if_pos h₃, if_neg h₂,
      if_pos (by omega)]
    have hi : pos + (i - (pos + cnt)) = i - cnt := by omega
    rw [hi]
  · rw [if_neg h₃, if_neg h₂, if_neg (by omega)]

/-- `insert_pair` puts one pair between them. -/
theorem entries_insertPair (n : IxNode K) {pos : Nat} (hpos : pos ≤ n.numKey) (k : K) (r : Rid) :
    (n.insertPair pos k r).entries = n.entries.take pos ++ (k, r) :: n.entries.drop pos := by
  unfold insertPair
  rw [entries_insertPairs n hpos, List.append_assoc]
  rfl

/-- The first key stays if the pair goes behind it. -/
theorem keys_zero_insertPair (n : IxNode K) (pos : Nat) (k : K) (r : Rid) :
    (n.insertPair (pos + 1) k r).keys 0 = n.keys 0 := by
  unfold insertPair insertPairs
  dsimp only
  rw [if_pos (Nat.succ_pos pos)]

/-- A pair is taken out. -/
theorem entries_shiftDown (n : IxNode K) {pos : Nat} (hpos : pos < n.numKey) :
    (n.shiftDown pos).entries = n.entries.take pos ++ n.entries.drop (pos + 1) := by
  refine List.ext_getElem? fun i => ?_
  have hlen : (n.entries.take pos).length = pos := by
    rw [List.length_take, length_entries]
    omega
  rw [getElem?_entries, List.getElem?_append, hlen, List.getElem?_take, List.getElem?_drop,
    getElem?_entries, getElem?_entries]
  unfold shiftDown
  dsimp only
  by_cases h₁ : i < pos
  · rw [if_pos (by omega), if_pos h₁, if_pos h₁, if_pos h₁, if_pos h₁, if_pos (by omega)]
  by_cases h₂ : i < n.numKey - 1
  · rw [if_pos h₂, if_neg h₁, if_pos h₂, if_neg h₁, if_pos h₂, if_neg h₁, if_pos (by omega)]
    have hi : pos + 1 + (i - pos) = i + 1 := by omega
    rw [hi]
  · rw [if_neg h₂, if_neg h₁, if_neg (by omega)]

/-- The first key stays if another is taken out. -/
theorem keys_zero_shiftDown (n : IxNode K) {pos : Nat} (hpos : pos ≠ 0) :
    (n.shiftDown pos).keys 0 = n.keys 0 := by
  unfold shiftDown
  dsimp only
  rw [if_pos (Nat.pos_of_ne_zero hpos)]

/-! ### Searches -/

/-- A search over the first numbers, as the position found. -/
theorem getD_find?_range (p : Nat → Bool) (m : Nat) :
    ((List.range m).find? p).getD m = (List.range m).findIdx p := by
  cases h : (List.range m).find? p with
  | none =>
    rw [List.findIdx_eq_length_of_false, List.length_range, Option.getD_none]
    intro i hi
    simpa using List.find?_eq_none.mp h i hi
  | some i =>
    obtain ⟨hp, hi, hlt⟩ := List.find?_range_eq_some.mp h
    rw [List.mem_range] at hi
    rw [Option.getD_some, eq_comm, List.findIdx_eq (by rw [List.length_range]; exact hi)]
    refine ⟨by rw [List.getElem_range]; exact hp, fun j hj => ?_⟩
    rw [List.getElem_range]
    simpa using hlt j hj

section Ord

variable [Ord K]

/-- `lower_bound` is the first index not below the key. -/
theorem lowerBound_eq (n : IxNode K) (k : K) : n.lowerBound k = lowerIdx k n.entries := by
  unfold lowerBound lowerIdx entries
  rw [getD_find?_range, List.findIdx_map]
  rfl

/-- What `upper_bound` returns: a slot from 1 on, or the end of the node. -/
theorem upperBound_spec (n : IxNode K) (k : K) (hn : n.numKey ≠ 0) :
    ∃ j, n.upperBound k = j + 1 ∧ j < n.numKey ∧ (j = 0 ∨ compare k (n.keys j) ≠ .lt) ∧
      (j + 1 < n.numKey → compare k (n.keys (j + 1)) = .lt) := by
  unfold upperBound
  cases h : (List.range' 1 (n.numKey - 1)).find? fun i => (compare k (n.keys i)).isLT with
  | none =>
    refine ⟨n.numKey - 1, by rw [Option.getD_none]; omega, by omega, ?_, fun h => by omega⟩
    by_cases h1 : n.numKey = 1
    · left
      omega
    · right
      have hmem : n.numKey - 1 ∈ List.range' 1 (n.numKey - 1) := by
        rw [List.mem_range'_1]
        omega
      simpa using List.find?_eq_none.mp h _ hmem
  | some i =>
    obtain ⟨hp, hi, hlt⟩ := List.find?_range'_eq_some.mp h
    rw [List.mem_range'_1] at hi
    refine ⟨i - 1, by rw [Option.getD_some]; omega, by omega, ?_, fun _ => ?_⟩
    · by_cases h1 : i = 1
      · left
        omega
      · right
        have hprev := hlt (i - 1) (by omega) (by omega)
        intro hc
        rw [hc] at hprev
        cases hprev
    · rw [Nat.sub_add_cancel hi.1]
      simpa using hp

/-- A child that `internal_lookup` takes: the last one whose key is not above `k`, or the first. -/
theorem internalLookup_split (n : IxNode K) (k : K) (hn : n.numKey ≠ 0) :
    ∃ X e Y, n.entries = X ++ e :: Y ∧ n.internalLookup k = e.2.pageNo ∧
      (X = [] ∨ compare k e.1 ≠ .lt) ∧ ∀ e' ∈ Y.head?, compare k e'.1 = .lt := by
  obtain ⟨j, hj, hjn, hle, hlt⟩ := n.upperBound_spec k hn
  refine ⟨n.entries.take j, (n.keys j, n.rids j), n.entries.drop (j + 1), n.entries_split hjn, ?_, ?_,
    ?_⟩
  · unfold internalLookup valueAt
    rw [hj]
    rfl
  · rcases hle with rfl | hle
    · exact Or.inl List.take_zero
    · exact Or.inr hle
  · intro e' he'
    rw [List.head?_drop, getElem?_entries] at he'
    split at he'
    · rename_i h
      cases he'
      exact hlt h
    · cases he'

/-- The call adds its pair if the key is not among the keys of the node. -/
def Adds (n : IxNode K) (k : K) (v : Rid) : Prop :=
  (∀ i < n.numKey, compare k (n.keys i) ≠ .eq) → (n.insert k v).numKey = n.numKey + 1

instance (n : IxNode K) (k : K) (v : Rid) : Decidable (n.Adds k v) :=
  inferInstanceAs (Decidable ((∀ i < n.numKey, compare k (n.keys i) ≠ .eq) →
    (n.insert k v).numKey = n.numKey + 1))

/-- A call that does not add its pair changes nothing. -/
theorem insert_of_not_adds {n : IxNode K} {k : K} {v : Rid} (h : ¬ n.Adds k v) : n.insert k v = n := by
  unfold Adds at h
  push Not at h
  unfold insert at h ⊢
  dsimp only at h ⊢
  split
  · rfl
  · rename_i hc
    rw [if_neg hc] at h
    exact absurd rfl h.2

variable [TransOrd K]

/-- `leaf_lookup` finds the pair of a key. -/
theorem leafLookup_eq (n : IxNode K) (k : K) (h : Increasing n.entries) :
    n.leafLookup k = lookup k n.entries := by
  obtain ⟨X, Y, heq, hidx, hX, hY⟩ := exists_split k n.entries
  have hlen : X.length + Y.length = n.numKey := by
    rw [← length_entries, heq, List.length_append]
  have hnone : lookup k X = none := by
    rw [lookup_eq_none]
    intro e he hc
    rw [OrientedCmp.eq_comm, hX e he] at hc
    cases hc
  unfold leafLookup
  rw [lowerBound_eq, hidx]
  dsimp only
  rw [heq, lookup_append, hnone, Option.none_or]
  cases Y with
  | nil => rw [if_pos (by rw [List.length_nil] at hlen; omega), lookup_nil]
  | cons a Y =>
    rw [List.length_cons] at hlen
    have hget : n.entries[X.length]? = some a := by
      rw [heq, List.getElem?_append_right (Nat.le_refl _), Nat.sub_self]
      rfl
    rw [getElem?_entries, if_pos (by omega)] at hget
    have ha := Option.some.inj hget
    rw [if_neg (by omega), lookup_cons, ← ha]
    by_cases hc : compare k (n.keys X.length) = .eq
    · rw [if_pos hc, if_pos (OrientedCmp.eq_symm hc)]
    · -- the pairs behind are above `k`
      rw [if_neg hc, if_neg fun hc' => hc (OrientedCmp.eq_symm hc'), eq_comm, lookup_eq_none]
      intro e he hc
      rw [heq] at h
      have hlt := (List.pairwise_cons.mp (increasing_append.mp h).2.1).1 e he
      have hka := hY a rfl
      have hke := TransCmp.lt_of_isLE_of_lt hka hlt
      rw [hke] at hc
      cases hc

/-- `upper_bound` of a node that is not empty. -/
theorem upperBound_eq (n : IxNode K) (k : K) (hn : n.numKey ≠ 0) (h : Increasing n.entries) :
    n.upperBound k = max 1 (upperIdx k n.entries) := by
  obtain ⟨j, hj, hjn, hle, hlt⟩ := n.upperBound_spec k hn
  have hget : ∀ i < n.numKey, n.entries[i]? = some (n.keys i, n.rids i) := by
    intro i hi
    rw [getElem?_entries, if_pos hi]
  -- the slots from `j + 1` on are above `k`
  have hupper : upperIdx k n.entries ≤ j + 1 := by
    rcases Nat.lt_or_ge (j + 1) n.numKey with hj1 | hj1
    · refine Nat.le_of_not_lt fun hc => ?_
      have hle' := (h.lt_upperIdx_iff (hget _ hj1)).mp hc
      rw [OrientedCmp.gt_of_lt (hlt hj1)] at hle'
      cases hle'
    · refine Nat.le_trans List.findIdx_le_length ?_
      rw [length_entries]
      exact hj1
  rcases hle with rfl | hle
  · omega
  · have hlow : j < upperIdx k n.entries := by
      refine (h.lt_upperIdx_iff (hget _ hjn)).mpr ?_
      rw [← OrientedCmp.isGE_iff_isLE]
      revert hle
      cases compare k (n.keys j) <;> simp
    omega

/-- A key that is in the node is not inserted again. -/
theorem insert_of_mem {n : IxNode K} {k : K} (v : Rid) (h : Increasing n.entries) {e : K × Rid}
    (he : e ∈ n.entries) (hk : compare k e.1 = .eq) : n.insert k v = n := by
  have hsome : (lookup k n.entries).isSome = true := lookup_isSome.mpr ⟨e, he, hk⟩
  rw [← leafLookup_eq n k h] at hsome
  unfold leafLookup at hsome
  dsimp only at hsome
  split at hsome
  · cases hsome
  · rename_i hi
    split at hsome
    · rename_i hc
      unfold insert
      exact if_pos ⟨fun h0 => hi (Or.inr h0), hc⟩
    · cases hsome

/-- **`insert` of a new key.** The pair goes between the lower and the higher keys. -/
theorem insert_split {n : IxNode K} {k : K} {v : Rid} (hadds : n.Adds k v)
    (hnew : lookup k n.entries = none) : ∃ X Y, n.entries = X ++ Y ∧
      (n.insert k v).entries = X ++ (k, v) :: Y ∧ n.insert k v = n.insertPair X.length k v ∧
      (∀ e ∈ X, compare e.1 k = .lt) ∧ ∀ e ∈ Y.head?, compare k e.1 = .lt := by
  obtain ⟨X, Y, heq, hidx, hX, hY⟩ := exists_split k n.entries
  have habsent : ∀ e ∈ n.entries, compare k e.1 ≠ .eq := lookup_eq_none.mp hnew
  have hlen : X.length ≤ n.numKey := by
    rw [← length_entries, heq, List.length_append]
    omega
  have hins : n.insert k v = n.insertPair X.length k v := by
    have hsize := hadds fun i hi => habsent (n.keys i, n.rids i) <| by
      rw [List.mem_iff_getElem?]
      exact ⟨i, by rw [getElem?_entries, if_pos hi]⟩
    unfold insert at hsize ⊢
    rw [lowerBound_eq, hidx] at hsize ⊢
    dsimp only at hsize ⊢
    split
    · rename_i hc
      rw [if_pos hc] at hsize
      omega
    · rfl
  refine ⟨X, Y, heq, ?_, hins, hX, fun e he => ?_⟩
  · rw [hins, entries_insertPair n hlen, heq, List.take_left, List.drop_left]
  · have hle := hY e he
    have hmem : e ∈ n.entries := by
      rw [heq]
      exact List.mem_append_right _ (List.mem_of_mem_head? he)
    have hne := habsent e hmem
    revert hle hne
    cases compare k e.1 <;> simp

end Ord

end IxNode

end Rmdb
