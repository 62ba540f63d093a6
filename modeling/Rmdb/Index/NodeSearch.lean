import Rmdb.Index.IxCompare
import Rmdb.Index.IxNodeHandle
import Rmdb.Lib.Bisect

namespace Rmdb

open Lib Std

/-!
# Searching a node (`index/ix_index_handle.cpp`, `binary_search`)

`lower_bound` and `upper_bound` have two branches, a loop over the keys and a bisection; a constant selects
the loop.  They compare in different directions.

* `IxNode.lowerBoundBinary`, `upperBoundBinary` — the other branches;
* `IxNode.Ascending` — the keys of the node increase strictly;
* `IxNode.lowerBound_downTo` and the like — what the four of them find;
* `KeyCols`, `ixCompare_eq_eq_iff` — columns whose keys compare equal just if they are;
* `ixCompare_bounds` — the order, and both branches on it.
-/

namespace IxNode

variable {K : Type} [Ord K]

/-- `lower_bound` with `binary_search`. -/
def lowerBoundBinary (n : IxNode K) (target : K) : Nat :=
  bisect (fun mid => (compare (n.keys mid) target).isLT) 0 n.numKey

/-- `upper_bound` with `binary_search`. -/
def upperBoundBinary (n : IxNode K) (target : K) : Nat :=
  bisect (fun mid => (compare (n.keys mid) target).isLE) 1 n.numKey

/-- The keys in use increase strictly. -/
def Ascending (n : IxNode K) : Prop := ∀ i j, i < j → j < n.numKey → compare (n.keys i) (n.keys j) = .lt

/-- The number of keys less than the target. -/
def countLess (n : IxNode K) (target : K) : Nat :=
  (List.range n.numKey).countP fun i => (compare (n.keys i) target).isLT

/-- The number of keys not greater than the target. -/
def countNotGreater (n : IxNode K) (target : K) : Nat :=
  (List.range n.numKey).countP fun i => (compare (n.keys i) target).isLE

variable [TransOrd K] {n : IxNode K}

/-- Keys further right are not smaller. -/
theorem Ascending.isLE (h : n.Ascending) {i j : Nat} (hij : i ≤ j) (hj : j < n.numKey) :
    (compare (n.keys i) (n.keys j)).isLE = true := by
  rcases Nat.eq_or_lt_of_le hij with rfl | hlt
  · exact ReflCmp.isLE_rfl
  · rw [h i j hlt hj]
    rfl

/-- Keys below a key that is less than the target are less, too. -/
theorem Ascending.falling_isLT (h : n.Ascending) (target : K) :
    Falling (fun i => (compare (n.keys i) target).isLT) n.numKey := by
  intro i j hij hj hlt
  have hkey : compare (n.keys j) target = .lt := by simpa using hlt
  simpa using TransCmp.lt_of_isLE_of_lt (h.isLE hij hj) hkey

/-- Behind a key that is too great all are. -/
theorem Ascending.falling_isLE (h : n.Ascending) (target : K) :
    Falling (fun i => (compare (n.keys i) target).isLE) n.numKey := fun _ _ hij hj hle =>
  TransCmp.isLE_trans (h.isLE hij hj) hle

/-- Comparing the other way. -/
theorem isLE_swap (a b : K) : (compare a b).isLE = !(compare b a).isLT := by
  have hswap : compare a b = (compare b a).swap := OrientedCmp.eq_swap
  rw [hswap]
  cases compare b a <;> rfl

/-! ### The two loops -/

/-- The loop of `lower_bound` stops at the first key that is not less. -/
theorem lowerBound_downTo (h : n.Ascending) (target : K) :
    DownTo (fun i => (compare (n.keys i) target).isLT) 0 n.numKey (n.lowerBound target) := by
  have hfall := h.falling_isLT target
  unfold lowerBound
  cases hfind : (List.range n.numKey).find? fun i => (compare target (n.keys i)).isLE with
  | none =>
    rw [Option.getD_none]
    refine ⟨Nat.zero_le _, Nat.le_refl _, fun i _ hi => ?_, fun i h1 h2 => by omega⟩
    have hnot := List.find?_eq_none.mp hfind i (List.mem_range.mpr hi)
    rw [isLE_swap] at hnot
    simpa using hnot
  | some r =>
    obtain ⟨hr, hmem, hbefore⟩ := List.find?_range_eq_some.mp hfind
    rw [List.mem_range] at hmem
    rw [isLE_swap] at hr
    rw [Option.getD_some]
    refine ⟨Nat.zero_le _, Nat.le_of_lt hmem, fun i _ hi => ?_, fun i hri hi => ?_⟩
    · have hnot := hbefore i hi
      rw [isLE_swap] at hnot
      simpa using hnot
    · -- a key behind it that is less would make this one less
      by_contra hp
      have hback := hfall r i hri hi (by simpa using hp)
      simp only [hback, Bool.not_true] at hr
      cases hr

/-- The loop of `upper_bound` stops at the first key, from the second on, that is greater. -/
theorem upperBound_downTo (h : n.Ascending) (target : K) (hn : 1 ≤ n.numKey) :
    DownTo (fun i => (compare (n.keys i) target).isLE) 1 n.numKey (n.upperBound target) := by
  have hfall := h.falling_isLE target
  obtain ⟨j, hj, hjn, hle, hlt⟩ := n.upperBound_spec target (by omega)
  rw [hj]
  refine ⟨by omega, hjn, fun i hi hij => ?_, fun i hji hi => ?_⟩
  · -- the key before it is not greater, and neither are those in front of that
    have hkey : (compare (n.keys j) target).isLE = true := by
      have hne := hle.resolve_left (by omega)
      rw [isLE_swap]
      cases hcmp : compare target (n.keys j) with
      | lt => exact absurd hcmp hne
      | eq => rfl
      | gt => rfl
    exact hfall i j (by omega) hjn hkey
  · -- the key at the end of the loop is greater, and so are those behind it
    have hgt := hlt (by omega)
    have hnext : (compare (n.keys (j + 1)) target).isLE = false := by
      rw [isLE_swap, hgt]
      rfl
    exact Bool.eq_false_iff.mpr fun hp => Bool.eq_false_iff.mp hnext (hfall (j + 1) i hji hi hp)

/-! ### The two bisections -/

/-- The binary search for the first key that is not smaller. -/
theorem lowerBoundBinary_downTo (h : n.Ascending) (target : K) :
    DownTo (fun i => (compare (n.keys i) target).isLT) 0 n.numKey (n.lowerBoundBinary target) :=
  bisect_downTo (Nat.zero_le _) fun i j _ => h.falling_isLT target i j

/-- The binary search for the first greater key, behind the first slot. -/
theorem upperBoundBinary_downTo (h : n.Ascending) (target : K) (hn : 1 ≤ n.numKey) :
    DownTo (fun i => (compare (n.keys i) target).isLE) 1 n.numKey (n.upperBoundBinary target) :=
  bisect_downTo hn fun i j _ => h.falling_isLE target i j

end IxNode

/-! ### Keys without floats -/

/-- Columns of type INT, BIGINT, STRING and DATETIME, with the lengths of the two number types. -/
def KeyCols (cols : List IxCol) : Prop :=
  ∀ col ∈ cols, col.1 ≠ .float ∧ (col.1 = .int → col.2 = 4) ∧ (col.1 = .bigint → col.2 = 8)

/-- Bytes of one length that are the same number are the same. -/
theorem ofLeBytes_inj {a b : List UInt8} (hlen : a.length = b.length) (h : ofLeBytes a = ofLeBytes b) : a = b := by
  induction a generalizing b with
  | nil => exact (List.eq_nil_of_length_eq_zero hlen.symm).symm
  | cons x a ih =>
    cases b with
    | nil => simp at hlen
    | cons y b =>
      have hx := x.toNat_lt
      have hy := y.toNat_lt
      unfold ofLeBytes at h
      have hxy : x = y := UInt8.toNat_inj.mp (by omega)
      rw [hxy, ih (Nat.succ.inj hlen) (by omega)]

/-- Numbers of `w` bits are told by their two's complement value. -/
theorem signed_inj {w x y : Nat} (hx : x < 2 ^ w) (hy : y < 2 ^ w) (h : signed w x = signed w y) : x = y := by
  have hcast : ((2 ^ w : Nat) : Int) = 2 ^ w := by push_cast; rfl
  unfold signed at h
  rw [Nat.mod_eq_of_lt hx, Nat.mod_eq_of_lt hy] at h
  dsimp only at h
  split at h <;> split at h <;> omega

/-- Bytes that compare equal are equal. -/
theorem bytes_eq_of_compare {a b : List UInt8} (h : compare a b = .eq) : a = b := LawfulEqCmp.eq_of_compare h

/-- A column of two keys compares equal just if its bytes are equal. -/
theorem take_eq_of_ixCompareCol {col : IxCol} {a b : List UInt8}
    (hcol : col.1 ≠ .float ∧ (col.1 = .int → col.2 = 4) ∧ (col.1 = .bigint → col.2 = 8))
    (ha : col.2 ≤ a.length) (hb : col.2 ≤ b.length) (h : ixCompareCol col a b = .eq) :
    a.take col.2 = b.take col.2 := by
  obtain ⟨type, len⟩ := col
  obtain ⟨hfloat, hint, hbigint⟩ := hcol
  have hlen : ∀ k ≤ len, (a.take k).length = k ∧ (b.take k).length = k := fun k hk => by
    simp only [List.length_take]
    omega
  have hnumber : ∀ w k, 256 ^ k = 2 ^ w → k ≤ len →
      compare (signed w (ofLeBytes (a.take k))) (signed w (ofLeBytes (b.take k))) = .eq →
      a.take k = b.take k := fun w k hw hk hcmp => by
    obtain ⟨hla, hlb⟩ := hlen k hk
    have hbound : ∀ l : List UInt8, l.length = k → ofLeBytes l < 2 ^ w := fun l hl => by
      have hlt := ofLeBytes_lt l
      rwa [hl, hw] at hlt
    exact ofLeBytes_inj (hla.trans hlb.symm)
      (signed_inj (hbound _ hla) (hbound _ hlb) (LawfulEqCmp.eq_of_compare hcmp))
  cases type with
  | int =>
    obtain rfl := hint rfl
    exact hnumber 32 4 (by decide) (Nat.le_refl _) h
  | bigint =>
    obtain rfl := hbigint rfl
    exact hnumber 64 8 (by decide) (Nat.le_refl _) h
  | float => exact absurd rfl hfloat
  | string => exact bytes_eq_of_compare h
  | datetime => exact bytes_eq_of_compare h

/-- **0 only for equal keys.** -/
theorem eq_of_ixCompare {cols : List IxCol} (hcols : KeyCols cols) {a b : List UInt8}
    (ha : a.length = colTotLen cols) (hb : b.length = colTotLen cols) (h : ixCompare cols a b = .eq) : a = b := by
  induction cols generalizing a b with
  | nil => rw [List.eq_nil_of_length_eq_zero ha, List.eq_nil_of_length_eq_zero hb]
  | cons col cols ih =>
    have hsum : colTotLen (col :: cols) = col.2 + colTotLen cols := by simp [colTotLen]
    rw [hsum] at ha hb
    rw [ixCompare] at h
    cases hcol : ixCompareCol col a b with
    | lt => simp [hcol] at h
    | gt => simp [hcol] at h
    | eq =>
      rw [hcol] at h
      have htake := take_eq_of_ixCompareCol (hcols col List.mem_cons_self) (by omega) (by omega) hcol
      have hdrop := ih (fun c hc => hcols c (List.mem_cons_of_mem _ hc)) (by rw [List.length_drop]; omega)
        (by rw [List.length_drop]; omega) h
      rw [← List.take_append_drop col.2 a, htake, hdrop, List.take_append_drop]

/-- Keys of such columns have no NaN. -/
theorem noNaN_of_keyCols {cols : List IxCol} (h : KeyCols cols) (a : List UInt8) : NoNaN cols a := by
  induction cols generalizing a with
  | nil => trivial
  | cons col cols ih =>
    exact ⟨fun hfloat => absurd hfloat (h col List.mem_cons_self).1,
      ih (fun c hc => h c (List.mem_cons_of_mem _ hc)) _⟩

/-- **`ix_compare` and the two searches.**  On keys of such columns, that is all byte strings of the length of
    the key, `ix_compare` is the lexicographic order of the column values, a total preorder that tells
    different keys apart; and in a node with increasing keys the branches of `lower_bound` and of
    `upper_bound` find the same. -/
theorem ixCompare_bounds {cols : List IxCol} (h : KeyCols cols) :
    (∀ bytes : List UInt8, bytes.length = colTotLen cols → ∃ a : IxKey cols, a.bytes = bytes) ∧
    (∀ a b : IxKey cols, ixCompare cols a.bytes b.bytes =
      compare (keyRank cols a.bytes) (keyRank cols b.bytes)) ∧
    ((∀ a b : IxKey cols, (compare a b).isLE ∨ (compare b a).isLE) ∧
      ∀ a b c : IxKey cols, (compare a b).isLE → (compare b c).isLE → (compare a c).isLE) ∧
    (∀ a b : IxKey cols, ixCompare cols a.bytes b.bytes = .eq ↔ a.bytes = b.bytes) ∧
    ∀ (n : IxNode (IxKey cols)) (target : IxKey cols), n.Ascending →
      (n.lowerBoundBinary target = n.lowerBound target ∧ n.lowerBound target = n.countLess target) ∧
      (1 ≤ n.numKey → n.upperBoundBinary target = n.upperBound target ∧
        n.upperBound target = max 1 (n.countNotGreater target)) := by
  refine ⟨fun bytes hlen => ⟨⟨bytes, hlen, noNaN_of_keyCols h bytes⟩, rfl⟩,
    fun a b => ixCompare_eq a.noNaN b.noNaN, ⟨fun a b => ?_, fun a b c => TransCmp.isLE_trans⟩,
    fun a b => ⟨eq_of_ixCompare h a.length_eq b.length_eq, fun heq => ?_⟩, fun n target hasc => ⟨?_, fun hn => ?_⟩⟩
  · rw [IxNode.isLE_swap b a]
    cases compare a b <;> simp
  · rw [ixCompare_eq a.noNaN b.noNaN, heq]
    exact ReflCmp.compare_self
  · have hloop := (IxNode.lowerBound_downTo hasc target).eq_countP
    exact ⟨(IxNode.lowerBoundBinary_downTo hasc target).eq_countP.trans hloop.symm, hloop⟩
  · have hfall := hasc.falling_isLE target
    have hloop := (IxNode.upperBound_downTo hasc target hn).eq_max_countP hfall
    exact ⟨((IxNode.upperBoundBinary_downTo hasc target hn).eq_max_countP hfall).trans hloop.symm, hloop⟩

/-- A key of four bytes. -/
theorem length_byteKey (x : UInt8) : [x, 0, 0, 0].length = colTotLen [(.int, 4)] := rfl

/-- An INT is no NaN. -/
theorem noNaN_byteKey (x : UInt8) : NoNaN [(.int, 4)] [x, 0, 0, 0] := ⟨nofun, trivial⟩

/-- A key of one INT column. -/
def byteKey (x : UInt8) : IxKey [(.int, 4)] := ⟨[x, 0, 0, 0], length_byteKey x, noNaN_byteKey x⟩

/-- Keys 0, 1 and 2 in the node. -/
def threeKeys : IxNode (IxKey [(.int, 4)]) :=
  { (IxNode.zero : IxNode (IxKey [(.int, 4)])) with numKey := 3, keys := fun i => byteKey (UInt8.ofNat i) }

/-- The keys of the sample node stand in order. -/
theorem ascending_threeKeys : threeKeys.Ascending := by
  have hall : ∀ j < 3, ∀ i < j,
      compare (byteKey (UInt8.ofNat i)) (byteKey (UInt8.ofNat j)) = .lt := by decide
  exact fun i j hij hj => hall j hj i hij

/-- Key 1 is searched. -/
theorem ixCompare_bounds_threeKeys :
    (threeKeys.lowerBoundBinary (byteKey 1) = 1 ∧ threeKeys.lowerBound (byteKey 1) = 1) ∧
    threeKeys.upperBoundBinary (byteKey 1) = 2 ∧ threeKeys.upperBound (byteKey 1) = 2 := by
  have hcols : KeyCols [(.int, 4)] := fun col hcol => by
    rw [List.mem_singleton.mp hcol]
    exact ⟨by decide, fun _ => rfl, fun h => by cases h⟩
  obtain ⟨-, -, -, -, hnode⟩ := ixCompare_bounds hcols
  obtain ⟨⟨hlower, hless⟩, hupper⟩ := hnode threeKeys (byteKey 1) ascending_threeKeys
  obtain ⟨hupper, hgreater⟩ := hupper (by decide)
  have hone : threeKeys.lowerBound (byteKey 1) = 1 := by rw [hless]; decide
  have htwo : threeKeys.upperBound (byteKey 1) = 2 := by rw [hgreater]; decide
  exact ⟨⟨hlower.trans hone, hone⟩, hupper.trans htwo, htwo⟩

end Rmdb
