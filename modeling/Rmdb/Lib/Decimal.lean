import Mathlib.Algebra.Order.Ring.Int
import Mathlib.Data.List.Induction
import Mathlib.Order.Compare

namespace Rmdb.Lib

open Std

/-!
# Decimal digits

Numbers as bytes of decimal digits, compared byte by byte.  Texts of one length are in the order of their
numbers, with zeros in front or not.

* `digitsVal` — the number that digits stand for;
* `digits` — a number with a given count of digits;
* `compare_digits` — digits of one length compare as their numbers;
* `compare_append` — texts whose first parts are of one length compare part by part.
-/

/-- `'0' <= b && b <= '9'`. -/
def isDigit (b : UInt8) : Bool := 48 ≤ b.toNat && b.toNat ≤ 57

/-- All bytes are digits. -/
def AllDigits (l : List UInt8) : Prop := ∀ b ∈ l, isDigit b = true

instance (l : List UInt8) : Decidable (AllDigits l) :=
  decidable_of_iff (l.all isDigit = true) List.all_eq_true

/-- The number with these digits. -/
def digitsVal (l : List UInt8) : Nat := l.foldl (fun n b => 10 * n + (b.toNat - 48)) 0

/-- The last `w` digits of a number. -/
def digits : Nat → Nat → List UInt8
  | 0, _ => []
  | w + 1, n => digits w (n / 10) ++ [UInt8.ofNat (48 + n % 10)]

variable {l l' r r' : List UInt8} {b : UInt8} {w n : Nat}

@[simp] theorem digitsVal_nil : digitsVal [] = 0 := rfl

/-- A digit more at the end. -/
theorem digitsVal_concat (l : List UInt8) (b : UInt8) :
    digitsVal (l ++ [b]) = 10 * digitsVal l + (b.toNat - 48) := by
  unfold digitsVal
  rw [List.foldl_append]
  rfl

/-- The bytes of the digits. -/
theorem isDigit_iff : isDigit b = true ↔ 48 ≤ b.toNat ∧ b.toNat ≤ 57 := by
  simp [isDigit]

/-- The parts of a text of digits. -/
theorem AllDigits.of_append (h : AllDigits (l ++ r)) : AllDigits l ∧ AllDigits r :=
  ⟨fun b hb => h b (List.mem_append_left _ hb), fun b hb => h b (List.mem_append_right _ hb)⟩

/-- Its first digit and the rest. -/
theorem AllDigits.tail (h : AllDigits (b :: l)) : isDigit b = true ∧ AllDigits l :=
  List.forall_mem_cons.mp h

/-- The first digit counts most. -/
theorem digitsVal_cons (b : UInt8) (l : List UInt8) :
    digitsVal (b :: l) = (b.toNat - 48) * 10 ^ l.length + digitsVal l := by
  induction l using List.reverseRecOn with
  | nil => simp [digitsVal]
  | append_singleton l c ih =>
    rw [← List.cons_append, digitsVal_concat, ih, digitsVal_concat, List.length_append, List.length_singleton,
      Nat.pow_succ]
    have hassoc : (b.toNat - 48) * (10 ^ l.length * 10) = 10 * ((b.toNat - 48) * 10 ^ l.length) := by
      rw [← Nat.mul_assoc, Nat.mul_comm]
    omega

/-- A number of `w` digits. -/
theorem digitsVal_lt (h : AllDigits l) : digitsVal l < 10 ^ l.length := by
  induction l using List.reverseRecOn with
  | nil => simp
  | append_singleton l c ih =>
    obtain ⟨hl, hc⟩ := h.of_append
    have hlt := ih hl
    have hbyte := isDigit_iff.mp (hc c List.mem_cons_self)
    rw [digitsVal_concat, List.length_append, List.length_singleton, Nat.pow_succ]
    omega

/-! ### Writing -/

/-- It is written with `w` digits. -/
@[simp] theorem length_digits (w n : Nat) : (digits w n).length = w := by
  induction w generalizing n with
  | zero => rfl
  | succ w ih => simp [digits, ih]

/-- The byte of a digit. -/
theorem digit_toNat (n : Nat) : (UInt8.ofNat (48 + n % 10)).toNat = 48 + n % 10 := by
  rw [UInt8.toNat_ofNat']
  omega

/-- Only digits are written. -/
theorem allDigits_digits (w n : Nat) : AllDigits (digits w n) := by
  induction w generalizing n with
  | zero => exact fun b hb => absurd hb List.not_mem_nil
  | succ w ih =>
    intro b hb
    rcases List.mem_append.mp hb with hb | hb
    · exact ih _ b hb
    · rw [List.mem_singleton.mp hb, isDigit_iff, digit_toNat]
      omega

/-- The number that was written is read back. -/
theorem digitsVal_digits (h : n < 10 ^ w) : digitsVal (digits w n) = n := by
  induction w generalizing n with
  | zero =>
    have hzero : n = 0 := by simpa using h
    rw [hzero]
    rfl
  | succ w ih =>
    rw [Nat.pow_succ] at h
    rw [digits, digitsVal_concat, ih (by omega), digit_toNat]
    omega

/-! ### The order -/

/-- Texts are compared byte by byte. -/
theorem compare_cons (a b : UInt8) (l l' : List UInt8) :
    compare (a :: l) (b :: l') = (compare a b).then (compare l l') :=
  List.compareLex_cons_cons

/-- **Texts whose first parts have one length** compare part by part. -/
theorem compare_append (h : l.length = l'.length) (r r' : List UInt8) :
    compare (l ++ r) (l' ++ r') = (compare l l').then (compare r r') := by
  induction l generalizing l' with
  | nil =>
    rw [List.eq_nil_of_length_eq_zero h.symm]
    rfl
  | cons a l ih =>
    cases l' with
    | nil => simp at h
    | cons b l' =>
      rw [List.cons_append, List.cons_append, compare_cons, compare_cons, ih (Nat.succ.inj h)]
      cases compare a b <;> rfl

/-- Equal beginnings do not matter. -/
theorem compare_same_append (l r r' : List UInt8) : compare (l ++ r) (l ++ r') = compare r r' := by
  have hself : compare l l = .eq := ReflCmp.compare_self
  rw [compare_append rfl, hself]
  rfl

/-- Bytes are compared as numbers. -/
theorem compare_byte (a b : UInt8) : compare a b = compare a.toNat b.toNat := by
  show compareOfLessAndEq a b = compareOfLessAndEq a.toNat b.toNat
  unfold compareOfLessAndEq
  simp only [UInt8.lt_iff_toNat_lt, UInt8.toNat_inj]

/-- **Digits of one length** compare as their numbers. -/
theorem compare_digits (hl : AllDigits l) (hr : AllDigits r) (h : l.length = r.length) :
    compare l r = compare (digitsVal l) (digitsVal r) := by
  induction l generalizing r with
  | nil =>
    rw [List.eq_nil_of_length_eq_zero h.symm]
    rfl
  | cons a l ih =>
    cases r with
    | nil => simp at h
    | cons b r =>
      obtain ⟨ha, hl⟩ := hl.tail
      obtain ⟨hb, hr⟩ := hr.tail
      have hlen : l.length = r.length := Nat.succ.inj h
      obtain ⟨ha48, -⟩ := isDigit_iff.mp ha
      obtain ⟨hb48, -⟩ := isDigit_iff.mp hb
      have hltl := digitsVal_lt hl
      have hltr := digitsVal_lt hr
      rw [compare_cons, ih hl hr hlen, compare_byte, digitsVal_cons, digitsVal_cons, hlen]
      rw [hlen] at hltl
      generalize 10 ^ r.length = p at *
      rcases Nat.lt_trichotomy a.toNat b.toNat with hab | hab | hab
      · -- the first digit decides
        have hle : (a.toNat - 48 + 1) * p ≤ (b.toNat - 48) * p := Nat.mul_le_mul_right p (by omega)
        rw [Nat.add_mul, Nat.one_mul] at hle
        have hval : (a.toNat - 48) * p + digitsVal l < (b.toNat - 48) * p + digitsVal r := by omega
        rw [Nat.compare_eq_lt.mpr hab, Nat.compare_eq_lt.mpr hval]
        rfl
      · -- the others decide
        have hfirst : compare b.toNat b.toNat = .eq := Nat.compare_eq_eq.mpr rfl
        rw [hab, hfirst, Nat.compare_eq_ite_lt, Nat.compare_eq_ite_lt]
        simp only [Nat.add_lt_add_iff_left]
        rfl
      · have hle : (b.toNat - 48 + 1) * p ≤ (a.toNat - 48) * p := Nat.mul_le_mul_right p (by omega)
        rw [Nat.add_mul, Nat.one_mul] at hle
        have hval : (b.toNat - 48) * p + digitsVal r < (a.toNat - 48) * p + digitsVal l := by omega
        rw [Nat.compare_eq_gt.mpr hab, Nat.compare_eq_gt.mpr hval]
        rfl

end Rmdb.Lib
