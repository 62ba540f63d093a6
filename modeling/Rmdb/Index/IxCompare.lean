import Rmdb.Execution.Values
import Rmdb.Lib.SortedKeys

namespace Rmdb

open Std

/-!
# Comparing keys (`ix_compare`)

A key is the bytes of the indexed columns.  `ix_compare` compares column by column: integers by value,
floats with `<` and `>`, strings and dates byte by byte.

* `ixCompare` — the comparison, for any bytes;
* `IxKey` — keys without NaN in a float column;
* `ixCompare_eq` — on these keys it is the lexicographic order of the column values, so it is a total
  order up to the two zeros (`instTransOrdIxKey`).

A NaN compares equal to every float.
-/

/-- The type and the length of an indexed column. -/
abbrev IxCol := ColType × Nat

/-- The two's complement value of the low `w` bits. -/
def signed (w bits : Nat) : Int :=
  let low := bits % 2 ^ w
  if low < 2 ^ (w - 1) then low else (low : Int) - 2 ^ w

/-- An `int` in a field of eight bytes keeps its value. -/
theorem signed_signExtend (bits : Nat) : signed 64 (signExtend bits) = signed 32 bits := by
  unfold signed signExtend
  dsimp only
  split <;> split <;> omega

/-- A 32-bit float pattern is a NaN. -/
def isNaN (bits : Nat) : Bool := 0x7F800000 < bits % 2 ^ 31

/-- The place of a float, not a NaN, in the order of the floats. -/
def floatRank (bits : Nat) : Int :=
  if bits / 2 ^ 31 % 2 = 1 then -((bits % 2 ^ 31 : Nat) : Int) else (bits % 2 ^ 31 : Nat)

/-- `fa < fb` on bit patterns. -/
def floatLt (a b : Nat) : Bool := !isNaN a && !isNaN b && floatRank a < floatRank b

/-- `ix_compare` of one column, at the start of the bytes. -/
def ixCompareCol (col : IxCol) (a b : List UInt8) : Ordering :=
  match col.1 with
  | .int => compare (signed 32 (ofLeBytes (a.take 4))) (signed 32 (ofLeBytes (b.take 4)))
  | .float =>
    let fa := ofLeBytes (a.take 4)
    let fb := ofLeBytes (b.take 4)
    if floatLt fa fb then .lt else if floatLt fb fa then .gt else .eq
  | .string | .datetime => compare (a.take col.2) (b.take col.2)
  | .bigint => compare (signed 64 (ofLeBytes (a.take 8))) (signed 64 (ofLeBytes (b.take 8)))

/-- `ix_compare` of composite keys. -/
def ixCompare : List IxCol → List UInt8 → List UInt8 → Ordering
  | [], _, _ => .eq
  | col :: cols, a, b =>
    match ixCompareCol col a b with
    | .eq => ixCompare cols (a.drop col.2) (b.drop col.2)
    | o => o

/-- `col_tot_len_`. -/
def colTotLen (cols : List IxCol) : Nat := (cols.map Prod.snd).sum

/-- No float column of the key is a NaN. -/
def NoNaN : List IxCol → List UInt8 → Prop
  | [], _ => True
  | col :: cols, a => (col.1 = .float → isNaN (ofLeBytes (a.take 4)) = false) ∧
    NoNaN cols (a.drop col.2)

/-! ### Ranks -/

/-- The value of a column as a list of numbers. -/
def colRank (col : IxCol) (a : List UInt8) : List Int :=
  match col.1 with
  | .int => [signed 32 (ofLeBytes (a.take 4))]
  | .float => [floatRank (ofLeBytes (a.take 4))]
  | .string | .datetime => (a.take col.2).map fun b => (b.toNat : Int)
  | .bigint => [signed 64 (ofLeBytes (a.take 8))]

/-- The values of the columns. -/
def keyRank : List IxCol → List UInt8 → List (List Int)
  | [], _ => []
  | col :: cols, a => colRank col a :: keyRank cols (a.drop col.2)

/-- Lists of one number. -/
theorem compare_singleton (a b : Int) : compare [a] [b] = compare a b := by
  show List.compareLex compare [a] [b] = _
  rw [List.compareLex_cons_cons, List.compareLex_nil_nil]
  cases compare a b <;> rfl

/-- The three ways of the source. -/
theorem compare_int (a b : Int) :
    compare a b = if a < b then .lt else if b < a then .gt else .eq := by
  show compareOfLessAndEq a b = _
  unfold compareOfLessAndEq
  split
  · rfl
  · split
    · rw [if_neg (by omega)]
    · rw [if_pos (by omega)]

/-- Bytes are compared as numbers. -/
theorem compare_toNat (x y : UInt8) : compare (x.toNat : Int) (y.toNat : Int) = compare x y := by
  show _ = compareOfLessAndEq x y
  rw [compare_int]
  unfold compareOfLessAndEq
  have hlt : x < y ↔ x.toNat < y.toNat := UInt8.lt_iff_toNat_lt
  have heq : x = y ↔ x.toNat = y.toNat := UInt8.toNat_inj.symm
  by_cases h : x.toNat < y.toNat
  · rw [if_pos (by omega), if_pos (hlt.mpr h)]
  · rw [if_neg (by omega), if_neg fun hxy => h (hlt.mp hxy)]
    by_cases h' : x.toNat = y.toNat
    · rw [if_neg (by omega), if_pos (heq.mpr h')]
    · rw [if_pos (by omega), if_neg fun hxy => h' (heq.mp hxy)]

/-- So are texts. -/
theorem compare_map_toNat (a b : List UInt8) :
    compare (a.map fun b => (b.toNat : Int)) (b.map fun b => (b.toNat : Int)) = compare a b := by
  show List.compareLex compare _ _ = List.compareLex compare _ _
  induction a generalizing b with
  | nil => cases b <;> rfl
  | cons x a ih =>
    cases b with
    | nil => rfl
    | cons y b =>
      rw [List.map_cons, List.map_cons, List.compareLex_cons_cons, List.compareLex_cons_cons, ih]
      congr 1
      exact compare_toNat x y

/-- Two columns are compared by their ranks, unless one is NaN. -/
theorem ixCompareCol_eq {col : IxCol} {a b : List UInt8}
    (ha : col.1 = .float → isNaN (ofLeBytes (a.take 4)) = false)
    (hb : col.1 = .float → isNaN (ofLeBytes (b.take 4)) = false) :
    ixCompareCol col a b = compare (colRank col a) (colRank col b) := by
  obtain ⟨type, len⟩ := col
  cases type with
  | int => exact (compare_singleton _ _).symm
  | bigint => exact (compare_singleton _ _).symm
  | float =>
    refine Eq.trans ?_ (compare_singleton _ _).symm
    have hlt : ∀ x y, isNaN x = false → isNaN y = false →
        (floatLt x y = true ↔ floatRank x < floatRank y) := by
      intro x y hx hy
      unfold floatLt
      rw [hx, hy]
      exact decide_eq_true_iff
    rw [compare_int]
    show (if floatLt _ _ = true then _ else if floatLt _ _ = true then _ else _) = _
    by_cases h : floatRank (ofLeBytes (a.take 4)) < floatRank (ofLeBytes (b.take 4))
    · rw [if_pos h, if_pos ((hlt _ _ (ha rfl) (hb rfl)).mpr h)]
    · rw [if_neg h, if_neg fun h' => h ((hlt _ _ (ha rfl) (hb rfl)).mp h')]
      by_cases h' : floatRank (ofLeBytes (b.take 4)) < floatRank (ofLeBytes (a.take 4))
      · rw [if_pos h', if_pos ((hlt _ _ (hb rfl) (ha rfl)).mpr h')]
      · rw [if_neg h', if_neg fun h'' => h' ((hlt _ _ (hb rfl) (ha rfl)).mp h'')]
  | string => exact (compare_map_toNat _ _).symm
  | datetime => exact (compare_map_toNat _ _).symm

/-- **`ix_compare` is lexicographic** on keys without NaN. -/
theorem ixCompare_eq {cols : List IxCol} {a b : List UInt8} (ha : NoNaN cols a) (hb : NoNaN cols b) :
    ixCompare cols a b = compare (keyRank cols a) (keyRank cols b) := by
  induction cols generalizing a b with
  | nil => rfl
  | cons col cols ih =>
    show _ = List.compareLex compare (colRank col a :: _) (colRank col b :: _)
    rw [List.compareLex_cons_cons, ixCompare, ixCompareCol_eq ha.1 hb.1]
    cases compare (colRank col a) (colRank col b) with
    | eq => exact ih ha.2 hb.2
    | lt => rfl
    | gt => rfl

/-! ### Keys -/

/-- The bytes of a key, whatever they are. -/
structure RawKey (cols : List IxCol) where
  bytes : List UInt8
  deriving DecidableEq

instance (cols : List IxCol) : Ord (RawKey cols) := ⟨fun a b => ixCompare cols a.bytes b.bytes⟩

instance (cols : List IxCol) : Inhabited (RawKey cols) := ⟨⟨List.replicate (colTotLen cols) 0⟩⟩

/-- A key of the right length without NaN. -/
structure IxKey (cols : List IxCol) where
  bytes : List UInt8
  length_eq : bytes.length = colTotLen cols
  noNaN : NoNaN cols bytes
  deriving DecidableEq

/-- Zero bytes are the number 0. -/
theorem ofLeBytes_replicate (n : Nat) : ofLeBytes (List.replicate n 0) = 0 := by
  induction n with
  | zero => rfl
  | succ n ih => simp [List.replicate_succ, ofLeBytes, ih]

/-- They are no NaN. -/
theorem noNaN_zero (cols : List IxCol) (n : Nat) : NoNaN cols (List.replicate n 0) := by
  induction cols generalizing n with
  | nil => trivial
  | cons col cols ih =>
    refine ⟨fun _ => ?_, ?_⟩
    · rw [List.take_replicate, ofLeBytes_replicate]
      rfl
    · rw [List.drop_replicate]
      exact ih _

namespace IxKey

variable {cols : List IxCol}

instance : Ord (IxKey cols) := ⟨fun a b => ixCompare cols a.bytes b.bytes⟩

/-- The key of zero bytes. -/
instance : Inhabited (IxKey cols) :=
  ⟨⟨List.replicate (colTotLen cols) 0, List.length_replicate, noNaN_zero cols _⟩⟩

/-- Keys are compared by the ranks of their columns. -/
theorem compare_eq (a b : IxKey cols) :
    compare a b = compare (keyRank cols a.bytes) (keyRank cols b.bytes) := ixCompare_eq a.noNaN b.noNaN

/-- **Without NaN `ix_compare` is a total order**, up to keys that compare equal. -/
instance : TransOrd (IxKey cols) where
  eq_swap {a b} := by
    rw [compare_eq, compare_eq]
    exact OrientedCmp.eq_swap
  isLE_trans {a b c} hab hbc := by
    rw [compare_eq] at hab hbc ⊢
    exact TransCmp.isLE_trans hab hbc

end IxKey

end Rmdb
