import Rmdb.Execution.Binop

namespace Rmdb

open Std

/-!
# The order of the values (`common/common.h`)

`binop` compares two integers exactly and an integer with a float as floats.  Numbers that compare as
equal with a third one may be different, but greater than is transitive.

* `floatOfNat_mono` — the conversion to floats keeps the order;
* `Value.compare_gt` — when a value is greater than another;
* `Value.compare_gt_trans` — greater than is transitive.
-/

/-! ### Rounding -/

/-- The 24 bits that are left of a number with the given logarithm. -/
def significand (l n : Nat) : Nat :=
  let q := if l ≤ 23 then n * 2 ^ (23 - l) else n / 2 ^ (l - 23)
  let rest := if l ≤ 23 then 0 else n % 2 ^ (l - 23)
  let half := 2 ^ (l - 24)
  if 23 < l ∧ (half < rest ∨ (half = rest ∧ q % 2 = 1)) then q + 1 else q

/-- Exponent and significand of a number. -/
theorem floatOfNat_eq (n : Nat) :
    floatOfNat n = (n.log2 + 127) * 2 ^ 23 + (significand n.log2 n - 2 ^ 23) := rfl

/-- A number of at most 24 bits is exact. -/
theorem significand_small {l : Nat} (hl : l ≤ 23) (n : Nat) : significand l n = n * 2 ^ (23 - l) := by
  unfold significand
  simp only [hl, if_true, Nat.not_lt.mpr hl, false_and, if_false]

/-- A longer one is rounded, halves to the even side. -/
theorem significand_large {l : Nat} (hl : 23 < l) (n : Nat) :
    significand l n = n / 2 ^ (l - 23) + if 2 ^ (l - 24) < n % 2 ^ (l - 23) ∨
      2 ^ (l - 24) = n % 2 ^ (l - 23) ∧ n / 2 ^ (l - 23) % 2 = 1 then 1 else 0 := by
  unfold significand
  simp only [hl, Nat.not_le.mpr hl, true_and, if_false]
  split <;> rfl

/-- Rounding keeps the order. -/
theorem significand_mono {l m n : Nat} (h : m ≤ n) : significand l m ≤ significand l n := by
  by_cases hl : l ≤ 23
  · rw [significand_small hl, significand_small hl]
    exact Nat.mul_le_mul_right _ h
  · rw [significand_large (Nat.lt_of_not_le hl), significand_large (Nat.lt_of_not_le hl)]
    have hdiv : m / 2 ^ (l - 23) ≤ n / 2 ^ (l - 23) := Nat.div_le_div_right h
    by_cases heq : m / 2 ^ (l - 23) = n / 2 ^ (l - 23)
    · -- the same upper bits: the lower ones decide
      have hm := Nat.div_add_mod m (2 ^ (l - 23))
      have hn := Nat.div_add_mod n (2 ^ (l - 23))
      rw [heq] at hm ⊢
      generalize 2 ^ (l - 23) * (n / 2 ^ (l - 23)) = upper at hm hn
      have hrest : m % 2 ^ (l - 23) ≤ n % 2 ^ (l - 23) := by omega
      split <;> split <;> omega
    · split <;> split <;> omega

/-- A significand has 24 bits, or has been rounded up to 25. -/
theorem significand_bounds {n : Nat} (hn : n ≠ 0) :
    2 ^ 23 ≤ significand n.log2 n ∧ significand n.log2 n ≤ 2 ^ 24 := by
  have hlow := Nat.log2_self_le hn
  have hhigh := @Nat.lt_log2_self n
  generalize n.log2 = l at hlow hhigh
  by_cases hl : l ≤ 23
  · rw [significand_small hl]
    have hpow : 2 ^ l * 2 ^ (23 - l) = 2 ^ 23 := by rw [← Nat.pow_add, Nat.add_sub_of_le hl]
    have hsucc : 2 ^ (l + 1) * 2 ^ (23 - l) = 2 ^ 24 := by
      rw [← Nat.pow_add]
      congr 1
      omega
    have h₁ := Nat.mul_le_mul_right (2 ^ (23 - l)) hlow
    have h₂ := Nat.mul_le_mul_right (2 ^ (23 - l)) (Nat.le_of_lt hhigh)
    omega
  · rw [significand_large (Nat.lt_of_not_le hl)]
    have hpos : 0 < 2 ^ (l - 23) := Nat.two_pow_pos _
    have h₁ : 2 ^ 23 ≤ n / 2 ^ (l - 23) := by
      rw [Nat.le_div_iff_mul_le hpos, ← Nat.pow_add]
      exact Nat.le_trans (Nat.le_of_eq (by congr 1; omega)) hlow
    have h₂ : n / 2 ^ (l - 23) < 2 ^ 24 := by
      rw [Nat.div_lt_iff_lt_mul hpos, ← Nat.pow_add]
      exact Nat.lt_of_lt_of_le hhigh (Nat.le_of_eq (by congr 1; omega))
    split <;> omega

/-- **The conversion to floats keeps the order.** -/
theorem floatOfNat_mono {m n : Nat} (hm : m ≠ 0) (h : m ≤ n) : floatOfNat m ≤ floatOfNat n := by
  have hn : n ≠ 0 := by omega
  obtain ⟨-, hmhigh⟩ := significand_bounds hm
  obtain ⟨hnlow, -⟩ := significand_bounds hn
  rw [floatOfNat_eq, floatOfNat_eq]
  by_cases hlog : m.log2 = n.log2
  · have hle := significand_mono (l := n.log2) h
    rw [hlog]
    omega
  · have hlt : m.log2 < n.log2 := by
      refine Nat.lt_of_le_of_ne ?_ hlog
      rw [Nat.le_log2 hn]
      exact Nat.le_trans (Nat.log2_self_le hm) h
    omega

/-- A number of 64 bits is below the infinity. -/
theorem floatOfNat_lt {n : Nat} (hn : n ≠ 0) (h : n ≤ 2 ^ 64) : floatOfNat n < 0x7F800000 := by
  obtain ⟨-, hhigh⟩ := significand_bounds hn
  have hlog : n.log2 < 65 := by
    rw [Nat.log2_lt hn]
    omega
  rw [floatOfNat_eq]
  omega

/-- The rank of a float without sign. -/
theorem floatRank_nonneg {b : Nat} (h : b < 2 ^ 31) : floatRank b = b := by
  unfold floatRank
  rw [if_neg (by omega)]
  omega

/-- The rank of one with it. -/
theorem floatRank_neg {b : Nat} (h : b < 2 ^ 31) : floatRank (2 ^ 31 + b) = -(b : Int) := by
  unfold floatRank
  rw [if_pos (by omega)]
  omega

/-- The place of the float of an integer. -/
theorem floatRank_floatOfInt {i : Int} (h : i.natAbs ≤ 2 ^ 64) :
    isNaN (floatOfInt i) = false ∧ floatRank (floatOfInt i) =
      if i = 0 then 0 else if i < 0 then -(floatOfNat i.natAbs : Int) else floatOfNat i.natAbs := by
  unfold floatOfInt isNaN
  by_cases hzero : i = 0
  · rw [if_pos hzero, if_pos hzero]
    exact ⟨by decide, by decide⟩
  · have hlt := floatOfNat_lt (Int.natAbs_ne_zero.mpr hzero) h
    rw [if_neg hzero, if_neg hzero]
    split
    · exact ⟨by rw [decide_eq_false_iff_not]; omega, floatRank_neg (by omega)⟩
    · exact ⟨by rw [decide_eq_false_iff_not]; omega, floatRank_nonneg (by omega)⟩

/-- The conversion to float keeps the order. -/
theorem floatRank_floatOfInt_mono {i j : Int} (hi : i.natAbs ≤ 2 ^ 64) (hj : j.natAbs ≤ 2 ^ 64)
    (h : i ≤ j) : floatRank (floatOfInt i) ≤ floatRank (floatOfInt j) := by
  rw [(floatRank_floatOfInt hi).2, (floatRank_floatOfInt hj).2]
  have hmono : ∀ m n : Nat, m ≠ 0 → m ≤ n → floatOfNat m ≤ floatOfNat n := fun _ _ => floatOfNat_mono
  by_cases hneg : j < 0
  · have := hmono j.natAbs i.natAbs (by omega) (by omega)
    split <;> split <;> omega
  · by_cases hpos : 0 < i
    · have := hmono i.natAbs j.natAbs (by omega) (by omega)
      split <;> split <;> omega
    · split <;> split <;> omega

/-! ### Values -/

instance transCmp_strcmp : TransCmp strcmp := inferInstanceAs (TransCmp (compareOn cStr))

/-- How the values of a type are compared. -/
inductive ValueKind where
  | exact
  | float
  | text
  deriving DecidableEq, Repr

namespace Value

def kind (v : Value) : ValueKind :=
  match v.type with
  | .int | .bigint => .exact
  | .float => .float
  | .string | .datetime => .text

/-- The number of an integer. -/
def intVal (v : Value) : Int := if v.type = .int then signed 32 v.bits else signed 64 v.bits

/-- The bits of a number as a float. -/
def floatBits (v : Value) : Nat := if v.type = .float then v.bits % 2 ^ 32 else floatOfInt v.intVal

/-- The text of a string or a date. -/
def text (v : Value) : List UInt8 := if v.type = .string then v.strVal else v.datetimeVal

/-- The integers of values have 64 bits. -/
theorem natAbs_intVal (v : Value) : v.intVal.natAbs ≤ 2 ^ 64 := by
  unfold intVal signed
  dsimp only
  split <;> split <;> omega

/-- The floats of two integers do not compare the other way. -/
theorem floatBits_exact {u v : Value} (hu : u.kind = .exact) (hv : v.kind = .exact) :
    isNaN u.floatBits = false ∧
      (u.intVal ≤ v.intVal → floatRank u.floatBits ≤ floatRank v.floatBits) := by
  have hnot : ∀ w : Value, w.kind = .exact → w.floatBits = floatOfInt w.intVal := by
    intro w hw
    refine if_neg fun hfloat => ?_
    unfold kind at hw
    rw [hfloat] at hw
    cases hw
  rw [hnot u hu, hnot v hv]
  exact ⟨(floatRank_floatOfInt u.natAbs_intVal).1,
    floatRank_floatOfInt_mono u.natAbs_intVal v.natAbs_intVal⟩

/-- A float is greater than another. -/
theorem compareFloat_eq_gt {a b : Nat} : compareFloat a b = some .gt ↔
    isNaN a = false ∧ isNaN b = false ∧ floatRank b < floatRank a := by
  unfold compareFloat
  cases isNaN a <;> cases isNaN b <;> simp [Int.compare_eq_gt]

/-- **When a value is greater than another.** -/
theorem compare_gt {u v : Value} : u.compare v = .ok (some .gt) ↔
    match u.kind, v.kind with
    | .text, .text => strcmp u.text v.text = .gt
    | .exact, .exact => v.intVal < u.intVal
    | .text, _ | _, .text => False
    | _, _ => isNaN u.floatBits = false ∧ isNaN v.floatBits = false ∧
        floatRank v.floatBits < floatRank u.floatBits := by
  obtain ⟨ut, ub, ud, us⟩ := u
  obtain ⟨vt, vb, vd, vs⟩ := v
  cases ut <;> cases vt
  all_goals simp [Value.compare, kind, intVal, floatBits, text, compareFloat_eq_gt, Int.compare_eq_gt]

/-- No value is greater than itself. -/
theorem not_compare_gt_self (v : Value) : v.compare v ≠ .ok (some .gt) := by
  intro h
  rw [compare_gt] at h
  cases hk : v.kind <;> rw [hk] at h
  · exact absurd h (Int.lt_irrefl _)
  · exact absurd h.2.2 (Int.lt_irrefl _)
  · have hself : strcmp v.text v.text = .eq := ReflCmp.compare_self
    rw [hself] at h
    cases h

/-- **Greater than is transitive.** -/
theorem compare_gt_trans {u v w : Value} (h₁ : u.compare v = .ok (some .gt))
    (h₂ : v.compare w = .ok (some .gt)) : u.compare w = .ok (some .gt) := by
  rw [compare_gt] at h₁ h₂ ⊢
  cases hu : u.kind <;> cases hv : v.kind <;> cases hw : w.kind
  all_goals simp only [hu, hv, hw] at h₁ h₂ ⊢
  case exact.exact.exact => exact Int.lt_trans h₂ h₁
  case text.text.text =>
    have hvu := OrientedCmp.lt_of_gt h₁
    have hwv := OrientedCmp.lt_of_gt h₂
    exact OrientedCmp.gt_of_lt (TransCmp.lt_trans hwv hvu)
  case exact.exact.float =>
    have hle := (floatBits_exact hv hu).2 (Int.le_of_lt h₁)
    exact ⟨(floatBits_exact hu hv).1, h₂.2.1, Int.lt_of_lt_of_le h₂.2.2 hle⟩
  case float.exact.exact =>
    have hle := (floatBits_exact hw hv).2 (Int.le_of_lt h₂)
    exact ⟨h₁.1, (floatBits_exact hw hv).1, Int.lt_of_le_of_lt hle h₁.2.2⟩
  case exact.float.exact =>
    -- the floats of the two integers are different
    by_contra hle
    exact absurd ((floatBits_exact hu hw).2 (Int.not_lt.mp hle))
      (Int.not_le.mpr (Int.lt_trans h₂.2.2 h₁.2.2))
  all_goals exact ⟨h₁.1, h₂.2.1, Int.lt_trans h₂.2.2 h₁.2.2⟩

end Value

end Rmdb
