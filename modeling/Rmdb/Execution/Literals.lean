import Mathlib.Algebra.Field.Rat
import Mathlib.Algebra.Order.Ring.Rat
import Mathlib.Tactic.FieldSimp
import Mathlib.Tactic.IntervalCases
import Rmdb.Execution.KeyRange
import Rmdb.Execution.ValueOrder

namespace Rmdb

/-!
# Literals in columns (`common/common.h`, `execution/executor_insert.h`)

A literal is written into a record by `init_raw`, which follows the type of the literal and the length of
the column, and read back by `load_raw`, which follows the type of the column.

* `TypeLen`, `Literal` — what the grammar can declare, and what `convert_sv_value` makes;
* `Value.initRawInto` — `init_raw` with the buffer it allocates and the bytes it touches;
* `Stores` — the literal is rejected as too long, or stored and read back as the same value;
* `Storable`, `stores_iff` — the columns and literals for which this holds.
-/

/-- `ast::TypeLen`.  The length of a `CHAR` is any integer token. -/
inductive TypeLen where
  | int
  | bigint
  | float
  | char (n : Int)
  | datetime
  deriving DecidableEq, Repr

namespace TypeLen

/-- The type of the column. -/
def type : TypeLen → ColType
  | .int => .int
  | .bigint => .bigint
  | .float => .float
  | .char _ => .string
  | .datetime => .datetime

/-- The length of the column. -/
def len : TypeLen → Int
  | .int => 4
  | .bigint => 8
  | .float => 4
  | .char n => n
  | .datetime => 20

end TypeLen

/-- A literal of a statement; a float by its pattern. -/
inductive Literal where
  | int (b : BitVec 32)
  | bigint (b : BitVec 64)
  | float (b : BitVec 32)
  | str (s : List UInt8)
  | datetime (s : List UInt8)
  deriving DecidableEq, Repr

namespace Literal

/-- `Analyze::convert_sv_value`: the member the setter sets, the texts empty otherwise. -/
def value : Literal → Value
  | .int b => { type := .int, bits := b.toNat, datetimeVal := [], strVal := [] }
  | .bigint b => { type := .bigint, bits := b.toNat, datetimeVal := [], strVal := [] }
  | .float b => { type := .float, bits := b.toNat, datetimeVal := [], strVal := [] }
  | .str s => { type := .string, bits := 0, datetimeVal := [], strVal := s }
  | .datetime s => { type := .datetime, bits := 0, datetimeVal := s, strVal := [] }

/-- The text of a literal. -/
def text : Literal → List UInt8
  | .str s | .datetime s => s
  | _ => []

end Literal

/-! ### Writing -/

/-- What `init_raw` comes to. -/
inductive InitRaw where
  /-- `new char[size_]` with a negative size throws `std::bad_array_new_length`. -/
  | badArrayNewLength
  | thrown (e : ExecError)
  /-- The buffer, and how many bytes from its start have been written to. -/
  | written (extent : Nat) (bytes : List UInt8)
  deriving DecidableEq, Repr

/-- The bytes `init_raw` writes to, counted from the start of a buffer of `len` bytes. -/
def Value.rawExtent (v : Value) (len : Nat) : Nat :=
  match v.type with
  | .int => if len = 4 then 4 else 8
  | .bigint => 8
  | .float => 4
  -- `memset` of the column, then `memcpy` of the text
  | .datetime => max len v.datetimeVal.length
  | .string => max len v.strVal.length

/-- `Value::init_raw`, with the allocation of the buffer. -/
def Value.initRawInto (v : Value) (len : Int) : InitRaw :=
  if len < 0 then .badArrayNewLength
  else match v.initRaw len.toNat with
    | .error e => .thrown e
    | .ok bytes => .written (v.rawExtent len.toNat) bytes

/-! ### The same value -/

/-- The number a finite float is. -/
def floatValue (bits : Nat) : ℚ :=
  let e : Nat := bits / 2 ^ 23 % 256
  let fraction : Nat := bits % 2 ^ 23
  -- the numbers of the smallest exponent have no leading bit
  let m : Nat := if e = 0 then fraction else 2 ^ 23 + fraction
  let magnitude : ℚ := (m : ℚ) * 2 ^ (((max e 1 : Nat) : Int) - 150)
  if bits / 2 ^ 31 % 2 = 1 then -magnitude else magnitude

/-- Neither an infinity nor a NaN. -/
def floatFinite (bits : Nat) : Bool := bits % 2 ^ 31 < 0x7F800000

/-- A value read from a column is the literal: the same integer, the nearest float, or the same text up to
zero padding. -/
def Literal.ReadAs (lit : Literal) (v : Value) : Prop :=
  match v.type, lit with
  | .int, .int b | .bigint, .int b => v.intVal = b.toInt
  | .int, .bigint b | .bigint, .bigint b => v.intVal = b.toInt
  | .int, .float b | .bigint, .float b => floatFinite b.toNat ∧ floatValue b.toNat = v.intVal
  | .float, .int b => v.floatBits = floatOfInt b.toInt
  | .float, .bigint b => v.floatBits = floatOfInt b.toInt
  | .float, .float b => v.floatBits = b.toNat
  | .string, .str s | .string, .datetime s | .datetime, .str s | .datetime, .datetime s =>
    ∃ k, v.text = s ++ List.replicate k 0
  | _, _ => False

/-- The literal is refused because its text is longer than the column, or fills exactly the column and is
read back. -/
def Stores (decl : TypeLen) (lit : Literal) : Prop :=
  match lit.value.initRawInto decl.len with
  | .badArrayNewLength => False
  | .thrown e => e = .stringOverflowError ∧ decl.len < lit.text.length
  | .written extent bytes => (extent : Int) = decl.len ∧ (bytes.length : Int) = decl.len ∧
      ∃ v, Value.loadRaw decl.type decl.len.toNat bytes = .ok v ∧ lit.ReadAs v

/-- The literals that are stored: an integer column takes integers that are not wider than it, and an `INT`
column the float whose pattern is zero; a float column takes floats, and the three integers that are the
pattern of their own float; a text column takes strings, and the datetimes that fit. -/
def Storable : TypeLen → Literal → Prop
  | .int, .int _ => True
  | .int, .float b => b = 0
  | .bigint, .int _ => True
  | .bigint, .bigint _ => True
  | .float, .float _ => True
  | .float, .int b => b.toInt = 0 ∨ b.toInt = 1318926965 ∨ b.toInt = -834214802
  | .char n, .str _ => 0 ≤ n
  | .char n, .datetime s => (s.length : Int) ≤ n
  | .datetime, .datetime s => s.length ≤ 20
  | _, _ => False

/-! ### Numbers -/

theorem signed_toNat_32 (b : BitVec 32) : signed 32 b.toNat = b.toInt := by
  have hlt := b.isLt
  unfold signed
  rw [BitVec.toInt_eq_toNat_cond, Nat.mod_eq_of_lt hlt]
  dsimp only
  split <;> split <;> omega

theorem signed_toNat_64 (b : BitVec 64) : signed 64 b.toNat = b.toInt := by
  have hlt := b.isLt
  unfold signed
  rw [BitVec.toInt_eq_toNat_cond, Nat.mod_eq_of_lt hlt]
  dsimp only
  split <;> split <;> omega

/-- A number and the pattern of its nearest float, without the sign. -/
theorem floatOfNat_eq_iff {n : Nat} (hn : n ≠ 0) (h : n < 2 ^ 31) :
    floatOfNat n = n ↔ n = 1318926965 := by
  have hlow := Nat.log2_self_le hn
  have hhigh := @Nat.lt_log2_self n
  have hlog : n.log2 < 31 := by
    rw [Nat.log2_lt hn]
    omega
  rw [floatOfNat_eq]
  generalize n.log2 = l at hlow hhigh hlog
  by_cases hl : l ≤ 23
  · -- the pattern is above the exponent's, the number below it
    have h24 : 2 ^ (l + 1) ≤ 2 ^ 24 := Nat.pow_le_pow_right (by omega) (by omega)
    omega
  · rw [significand_large (by omega)]
    interval_cases l <;> split <;> omega

/-- A negative number and the pattern of its nearest float. -/
theorem floatOfNat_neg_eq_iff {n : Nat} (hn : n ≠ 0) (h : n ≤ 2 ^ 31) :
    2 ^ 31 + floatOfNat n = 2 ^ 32 - n ↔ n = 834214802 := by
  have hlow := Nat.log2_self_le hn
  have hhigh := @Nat.lt_log2_self n
  obtain ⟨hsig, hsig'⟩ := significand_bounds hn
  have hlog : n.log2 < 32 := by
    rw [Nat.log2_lt hn]
    omega
  rw [floatOfNat_eq]
  generalize n.log2 = l at *
  by_cases hl : l ≤ 23
  · have h24 : 2 ^ (l + 1) ≤ 2 ^ 24 := Nat.pow_le_pow_right (by omega) (by omega)
    omega
  · rw [significand_large (by omega)]
    interval_cases l <;> split <;> omega

/-- **The integers that are the pattern of their nearest float.** -/
theorem floatOfInt_eq_pattern (b : BitVec 32) : b.toNat = floatOfInt b.toInt ↔
    b.toInt = 0 ∨ b.toInt = 1318926965 ∨ b.toInt = -834214802 := by
  have hlt := b.isLt
  unfold floatOfInt
  rw [BitVec.toInt_eq_toNat_cond]
  generalize b.toNat = n at hlt
  by_cases hsign : 2 * n < 2 ^ 32
  · rw [if_pos hsign]
    by_cases hn : n = 0
    · rw [hn]
      decide
    · rw [if_neg (by omega), if_neg (by omega), Int.natAbs_natCast, eq_comm,
        floatOfNat_eq_iff hn (by omega)]
      omega
  · rw [if_neg hsign, if_neg (by omega), if_pos (by omega)]
    obtain ⟨m, hm⟩ : ∃ m, m = ((n : Int) - (2 ^ 32 : Nat)).natAbs := ⟨_, rfl⟩
    have hneg := floatOfNat_neg_eq_iff (n := m) (by omega) (by omega)
    rw [← hm]
    omega

/-- The scaled equation of a float and an integer. -/
theorem floatValue_eq {bits : Nat} {i : Int} (h : floatValue bits = i) :
    ((if bits / 2 ^ 23 % 256 = 0 then bits % 2 ^ 23 else 2 ^ 23 + bits % 2 ^ 23 : Nat) : Int) *
      2 ^ (max (bits / 2 ^ 23 % 256) 1) = (if bits / 2 ^ 31 % 2 = 1 then -i else i) * 2 ^ 150 := by
  unfold floatValue at h
  dsimp only at h
  generalize bits / 2 ^ 23 % 256 = e at *
  generalize (if e = 0 then bits % 2 ^ 23 else 2 ^ 23 + bits % 2 ^ 23 : Nat) = m at *
  have hscale : (m : ℚ) * 2 ^ (max e 1) =
      ((m : ℚ) * 2 ^ (((max e 1 : Nat) : Int) - 150)) * 2 ^ (150 : Nat) := by
    rw [zpow_sub₀ (by norm_num), zpow_natCast]
    field_simp
  have hmag : ((m : ℚ) * 2 ^ (((max e 1 : Nat) : Int) - 150)) =
      ((if bits / 2 ^ 31 % 2 = 1 then -i else i : Int) : ℚ) := by
    split at h
    · rw [if_pos ‹_›, Int.cast_neg, ← h, neg_neg]
    · rw [if_neg ‹_›, h]
  rw [hmag] at hscale
  exact_mod_cast hscale

section Pattern

variable {n m e magnitude : Nat}

/-- Below the unit a number is less than half of its significand. -/
theorem pattern_below (hlt : n < 2 ^ 32) (he : e = n / 2 ^ 23 % 256) (hsmall : e < 150)
    (hm : m = if e = 0 then n % 2 ^ 23 else 2 ^ 23 + n % 2 ^ 23)
    (hmag : magnitude = if n / 2 ^ 31 % 2 = 1 then 2 ^ 32 - n else n)
    (heq : m * 2 ^ max e 1 = magnitude * 2 ^ 150) : n = 0 := by
  have hpow : m * 2 ^ max e 1 ≤ m * 2 ^ 149 :=
    Nat.mul_le_mul_left _ (Nat.pow_le_pow_right (by omega) (by omega))
  have hhalf : 2 * magnitude ≤ m := by omega
  split at hmag <;> split at hm <;> omega

/-- From the unit on, one equation for the fraction for each sign and exponent. -/
theorem pattern_above {k : Nat} (hlt : n < 2 ^ 32) (he : 150 + k = n / 2 ^ 23 % 256)
    (hm : m = 2 ^ 23 + n % 2 ^ 23)
    (hmag : magnitude = if n / 2 ^ 31 % 2 = 1 then 2 ^ 32 - n else n)
    (heq : m * 2 ^ k = magnitude) : False := by
  have hk : k < 9 := by
    by_contra hlarge
    have hpow : 2 ^ 9 ≤ 2 ^ k := Nat.pow_le_pow_right (by omega) (by omega)
    have hmul : 2 ^ 23 * 2 ^ 9 ≤ m * 2 ^ k := Nat.mul_le_mul (by omega) hpow
    split at hmag <;> omega
  have hparts : n = n / 2 ^ 31 % 2 * 2 ^ 31 + (150 + k) * 2 ^ 23 + n % 2 ^ 23 := by omega
  have hf : n % 2 ^ 23 < 2 ^ 23 := Nat.mod_lt _ (by decide)
  generalize n % 2 ^ 23 = f at hparts hf hm
  split at hmag
  · rename_i hsign
    rw [hsign] at hparts
    have hsum : m * 2 ^ k + 2 ^ 31 + (150 + k) * 2 ^ 23 + f = 2 ^ 32 := by omega
    clear hparts hmag heq hsign hlt he
    interval_cases k <;> omega
  · have hsign : n / 2 ^ 31 % 2 = 0 := by omega
    rw [hsign] at hparts
    have hsum : m * 2 ^ k = (150 + k) * 2 ^ 23 + f := by omega
    clear hparts hmag heq hsign hlt he
    interval_cases k <;> omega

end Pattern

/-- **The only float whose pattern is the integer it denotes is `+0.0`.** -/
theorem floatValue_eq_pattern {b : BitVec 32} (h : floatValue b.toNat = b.toInt) : b = 0 := by
  have heq := floatValue_eq h
  have hlt := b.isLt
  rw [BitVec.toInt_eq_toNat_cond] at heq
  suffices hzero : b.toNat = 0 from BitVec.eq_of_toNat_eq hzero
  generalize b.toNat = n at heq hlt
  have hmag : (if n / 2 ^ 31 % 2 = 1 then -(if 2 * n < 2 ^ 32 then (n : Int) else n - (2 ^ 32 : Nat))
      else if 2 * n < 2 ^ 32 then (n : Int) else n - (2 ^ 32 : Nat)) =
      (if n / 2 ^ 31 % 2 = 1 then 2 ^ 32 - n else n : Nat) := by
    split <;> split <;> omega
  rw [hmag] at heq
  norm_cast at heq
  by_cases hsmall : n / 2 ^ 23 % 256 < 150
  · exact pattern_below hlt rfl hsmall rfl rfl heq
  · obtain ⟨k, hk⟩ : ∃ k, 150 + k = n / 2 ^ 23 % 256 := ⟨n / 2 ^ 23 % 256 - 150, by omega⟩
    rw [← hk, max_eq_left (by omega), Nat.pow_add, ← Nat.mul_assoc, Nat.mul_right_comm,
      if_neg (by omega)] at heq
    exact (pattern_above hlt hk rfl rfl (Nat.eq_of_mul_eq_mul_right (Nat.two_pow_pos 150) heq)).elim

/-! ### Reading back -/

/-- A number that was written as wide as the column. -/
theorem loadRaw_leBytes (type : ColType) (len : Nat) {bits : Nat} (hbits : bits < 256 ^ len)
    (h : (type = .int ∨ type = .float) ∧ len = 4 ∨ type = .bigint ∧ len = 8) :
    Value.loadRaw type len (leBytes bits len) =
      .ok { type := type, bits := bits, datetimeVal := [], strVal := [] } := by
  have htake : (leBytes bits len).take len = leBytes bits len := by
    rw [List.take_of_length_le]
    rw [length_leBytes]
  have hread : ofLeBytes (leBytes bits len) = bits := by
    rw [ofLeBytes_leBytes, Nat.mod_eq_of_lt hbits]
  obtain ⟨rfl | rfl, rfl⟩ | ⟨rfl, rfl⟩ := h
  all_goals
    unfold Value.loadRaw
    simp only [if_true, htake, hread]

/-- Eight bytes in a field of eight. -/
theorem padBytes_leBytes (bits len : Nat) : padBytes (leBytes bits len) len = leBytes bits len := by
  unfold padBytes
  rw [length_leBytes, Nat.sub_self, List.replicate_zero, List.append_nil, List.take_of_length_le]
  rw [length_leBytes]

/-- A text that fits is read back with zeros behind it. -/
theorem padBytes_fits {s : List UInt8} {len : Nat} (h : s.length ≤ len) :
    (padBytes s len).take len = s ++ List.replicate (len - s.length) 0 := by
  unfold padBytes
  rw [List.take_take, Nat.min_self, List.take_of_length_le]
  rw [List.length_append, List.length_replicate]
  omega

section Cases

variable (decl : TypeLen) (lit : Literal)

/-- A literal that is written and read. -/
theorem stores_written {bytes : List UInt8} {v : Value} (hlen : 0 ≤ decl.len)
    (hinit : lit.value.initRaw decl.len.toNat = .ok bytes)
    (hload : Value.loadRaw decl.type decl.len.toNat bytes = .ok v) :
    Stores decl lit ↔ (lit.value.rawExtent decl.len.toNat : Int) = decl.len ∧ lit.ReadAs v := by
  have hbytes : (bytes.length : Int) = decl.len := by
    rw [Value.length_initRaw hinit]
    omega
  unfold Stores Value.initRawInto
  rw [if_neg (by omega), hinit]
  simp only [hload, hbytes, true_and, Except.ok.injEq, exists_eq_left']

/-- A literal that is refused. -/
theorem stores_thrown {e : ExecError} (hlen : 0 ≤ decl.len)
    (hinit : lit.value.initRaw decl.len.toNat = .error e) :
    Stores decl lit ↔ e = .stringOverflowError ∧ decl.len < lit.text.length := by
  unfold Stores Value.initRawInto
  rw [if_neg (by omega), hinit]

theorem stores_negative {decl : TypeLen} {lit : Literal} (hlen : decl.len < 0) : ¬ Stores decl lit := by
  unfold Stores Value.initRawInto
  rw [if_pos hlen]
  exact not_false

/-- A text in a column of texts. -/
theorem stores_str (n : Int) (s : List UInt8) : Stores (.char n) (.str s) ↔ 0 ≤ n := by
  by_cases hn : n < 0
  · exact iff_of_false (stores_negative hn) (by omega)
  · have hlen : 0 ≤ (TypeLen.char n).len := Int.not_lt.mp hn
    refine iff_of_true ?_ (by omega)
    by_cases hfits : n.toNat < s.length
    · have hinit : (Literal.str s).value.initRaw n.toNat = .error .stringOverflowError :=
        if_pos hfits
      rw [stores_thrown (.char n) (.str s) hlen hinit]
      exact ⟨rfl, show n < s.length by omega⟩
    · have hinit : (Literal.str s).value.initRaw n.toNat = .ok (padBytes s n.toNat) := if_neg hfits
      rw [stores_written (.char n) (.str s) hlen hinit rfl]
      refine ⟨show ((max n.toNat s.length : Nat) : Int) = n by omega, n.toNat - s.length, ?_⟩
      exact padBytes_fits (show s.length ≤ n.toNat by omega)

/-- A datetime in a column of texts: `init_raw` checks the length of the string, which is empty. -/
theorem stores_datetime (decl : TypeLen) (hlen : 0 ≤ decl.len)
    (htype : decl.type = .string ∨ decl.type = .datetime) (s : List UInt8) : Stores decl (.datetime s) ↔ (s.length : Int) ≤ decl.len := by
  have hinit : (Literal.datetime s).value.initRaw decl.len.toNat =
      .ok (padBytes s decl.len.toNat) := by
    unfold Value.initRaw Literal.value
    exact if_neg (Nat.not_lt_zero _)
  have hextent : (Literal.datetime s).value.rawExtent decl.len.toNat =
      max decl.len.toNat s.length := rfl
  have hread : ∀ hfits : s.length ≤ decl.len.toNat, ∃ v, Value.loadRaw decl.type decl.len.toNat
      (padBytes s decl.len.toNat) = .ok v ∧ (Literal.datetime s).ReadAs v := by
    intro hfits
    obtain htype | htype := htype
    all_goals
      rw [htype]
      exact ⟨_, rfl, _, padBytes_fits hfits⟩
  have hload : ∃ v, Value.loadRaw decl.type decl.len.toNat (padBytes s decl.len.toNat) = .ok v := by
    obtain htype | htype := htype
    all_goals
      rw [htype]
      exact ⟨_, rfl⟩
  obtain ⟨v, hv⟩ := hload
  rw [stores_written decl (.datetime s) hlen hinit hv, hextent]
  constructor
  · rintro ⟨hle, -⟩
    omega
  · intro hfits
    obtain ⟨w, hw, hreads⟩ := hread (by omega)
    rw [hv] at hw
    cases hw
    exact ⟨by omega, hreads⟩

end Cases

/-- **What is stored.** -/
theorem stores_iff {decl : TypeLen} {lit : Literal}
    (h : isCompatibleType decl.type lit.value.type = true) : Stores decl lit ↔ Storable decl lit := by
  cases decl with
  | int =>
    -- an INT column takes four bytes as they are; a BIGINT fails the assertion
    cases lit with
    | int b =>
      have hload := loadRaw_leBytes .int 4 b.isLt (.inl ⟨.inl rfl, rfl⟩)
      rw [stores_written .int (.int b) (by decide) rfl hload]
      exact iff_of_true ⟨rfl, signed_toNat_32 b⟩ trivial
    | bigint b =>
      rw [stores_thrown .int (.bigint b) (e := .assertion) (by decide) rfl]
      exact iff_of_false (fun hs => nomatch hs.1) not_false
    | float b =>
      have hload := loadRaw_leBytes .int 4 b.isLt (.inl ⟨.inl rfl, rfl⟩)
      rw [stores_written .int (.float b) (by decide) rfl hload]
      constructor
      · rintro ⟨-, -, hvalue⟩
        refine floatValue_eq_pattern (hvalue.trans ?_)
        exact congrArg Int.cast (signed_toNat_32 b)
      · rintro rfl
        exact ⟨rfl, by decide, by decide +kernel⟩
    | str s => cases h
    | datetime s => cases h
  | bigint =>
    -- an INT is extended with its sign; a FLOAT fails the assertion
    cases lit with
    | int b =>
      have hinit : (Literal.int b).value.initRaw 8 = .ok (leBytes (signExtend b.toNat) 8) :=
        congrArg Except.ok (padBytes_leBytes _ 8)
      have hlt : signExtend b.toNat < 256 ^ 8 := by
        have := b.isLt
        unfold signExtend
        dsimp only
        split <;> omega
      have hload := loadRaw_leBytes .bigint 8 hlt (.inr ⟨rfl, rfl⟩)
      rw [stores_written .bigint (.int b) (by decide) hinit hload]
      exact iff_of_true ⟨rfl, (signed_signExtend _).trans (signed_toNat_32 b)⟩ trivial
    | bigint b =>
      have hload := loadRaw_leBytes .bigint 8 b.isLt (.inr ⟨rfl, rfl⟩)
      rw [stores_written .bigint (.bigint b) (by decide) rfl hload]
      exact iff_of_true ⟨rfl, signed_toNat_64 b⟩ trivial
    | float b =>
      rw [stores_thrown .bigint (.float b) (e := .assertion) (by decide) rfl]
      exact iff_of_false (fun hs => nomatch hs.1) not_false
    | str s => cases h
    | datetime s => cases h
  | float =>
    -- the four bytes of an INT are stored as if they were those of a float
    cases lit with
    | int b =>
      have hload := loadRaw_leBytes .float 4 b.isLt (.inl ⟨.inr rfl, rfl⟩)
      rw [stores_written .float (.int b) (by decide) rfl hload]
      have hmod : b.toNat % 2 ^ 32 = b.toNat := Nat.mod_eq_of_lt b.isLt
      refine (and_iff_right rfl).trans (Iff.trans ?_ (floatOfInt_eq_pattern b))
      show b.toNat % 2 ^ 32 = _ ↔ _
      rw [hmod]
    | bigint b =>
      rw [stores_thrown .float (.bigint b) (e := .assertion) (by decide) rfl]
      exact iff_of_false (fun hs => nomatch hs.1) not_false
    | float b =>
      have hload := loadRaw_leBytes .float 4 b.isLt (.inl ⟨.inr rfl, rfl⟩)
      rw [stores_written .float (.float b) (by decide) rfl hload]
      exact iff_of_true ⟨rfl, Nat.mod_eq_of_lt b.isLt⟩ trivial
    | str s => cases h
    | datetime s => cases h
  | char n =>
    -- texts are padded; a negative length lets nothing through
    cases lit with
    | str s => exact stores_str n s
    | datetime s =>
      by_cases hn : n < 0
      · exact iff_of_false (stores_negative hn) (show ¬ (s.length : Int) ≤ n by omega)
      · exact stores_datetime (.char n) (Int.not_lt.mp hn) (.inl rfl) s
    | int b => cases h
    | bigint b => cases h
    | float b => cases h
  | datetime =>
    -- at most 20 bytes
    cases lit with
    | datetime s =>
      rw [stores_datetime .datetime (by decide) (.inr rfl) s]
      exact Int.ofNat_le
    | str s => cases h
    | int b => cases h
    | bigint b => cases h
    | float b => cases h

/-- An integer in a `BIGINT` column. -/
theorem stores_iff_bigint : Stores .bigint (.int 7) ↔ Storable .bigint (.int 7) :=
  stores_iff (by decide)

/-- An integer in a `FLOAT` column comes back as the float with the bits of the integer. -/
theorem not_stores_one : isCompatibleType TypeLen.float.type (Literal.int 1).value.type = true ∧
    ¬ Stores .float (.int 1) := by
  refine ⟨by decide, ?_⟩
  have hload := loadRaw_leBytes .float 4 (BitVec.isLt 1#32) (.inl ⟨.inr rfl, rfl⟩)
  rw [stores_written .float (.int 1) (by decide) rfl hload]
  rintro ⟨-, hread⟩
  have hbits : (1 : Nat) = floatOfInt 1 := hread
  exact absurd hbits (by decide)

end Rmdb
