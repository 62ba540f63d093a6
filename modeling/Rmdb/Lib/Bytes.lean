import Mathlib.Data.Nat.Bitwise
import Mathlib.Tactic.IntervalCases

namespace Rmdb.Lib

/-!
# Bytes in memory

Memory is read through a function from addresses to bytes.

* `int32Bytes` and `int32At` — a 32-bit signed integer as four bytes, least significant first, with
  the round trip `int32At_eq`;
* `bitMask`, `testBit`, `setBit`, `clearBit` — the bits of a byte, the most significant one first,
  with one lemma for what each operation does to each bit.
-/

/-! ### 32-bit integers -/

/-- The integer fits in 32 bits. -/
def Int32Range (v : Int) : Prop := -2147483648 ≤ v ∧ v < 2147483648

/-- Byte `k` of a 32-bit integer. -/
def int32Bytes (v : Int) (k : Nat) : UInt8 :=
  UInt8.ofNat ((v % 4294967296).toNat / 256 ^ k)

/-- The 32-bit integer at an address. -/
def int32At (m : Nat → UInt8) (off : Nat) : Int :=
  let n := (m off).toNat + 256 * (m (off + 1)).toNat + 65536 * (m (off + 2)).toNat +
    16777216 * (m (off + 3)).toNat
  if n < 2147483648 then n else (n : Int) - 4294967296

/-- Reading back what was written. -/
theorem int32At_eq {m : Nat → UInt8} {off : Nat} {v : Int} (hv : Int32Range v)
    (h : ∀ k < 4, m (off + k) = int32Bytes v k) : int32At m off = v := by
  have h0 := h 0 (by decide)
  have h1 := h 1 (by decide)
  have h2 := h 2 (by decide)
  have h3 := h 3 (by decide)
  rw [Nat.add_zero] at h0
  obtain ⟨hlo, hhi⟩ := hv
  have hmod : ((v % 4294967296).toNat : Int) = v % 4294967296 := Int.toNat_of_nonneg (by omega)
  generalize hn : (v % 4294967296).toNat = n at hmod
  have hlt : n < 4294967296 := by omega
  -- the four digits in base 256
  have hdigit : ∀ k, (int32Bytes v k).toNat = n / 256 ^ k % 256 := by
    intro k
    rw [int32Bytes, hn]
    rfl
  unfold int32At
  rw [h0, h1, h2, h3, hdigit, hdigit, hdigit, hdigit]
  have hsum : n / 256 ^ 0 % 256 + 256 * (n / 256 ^ 1 % 256) + 65536 * (n / 256 ^ 2 % 256) +
      16777216 * (n / 256 ^ 3 % 256) = n := by
    norm_num
    omega
  rw [hsum]
  dsimp only
  split <;> omega

/-- The integer at an address depends on its four bytes only. -/
theorem int32At_congr {m m' : Nat → UInt8} {off : Nat} (h : ∀ k < 4, m' (off + k) = m (off + k)) :
    int32At m' off = int32At m off := by
  have h0 := h 0 (by decide)
  rw [Nat.add_zero] at h0
  unfold int32At
  rw [h0, h 1 (by decide), h 2 (by decide), h 3 (by decide)]

/-! ### The bits of a byte -/

/-- The mask of bit `k`, counted from the most significant bit. -/
def bitMask (k : Nat) : UInt8 := 0x80 >>> UInt8.ofNat k

/-- Bit `k` is set. -/
def testBit (x : UInt8) (k : Nat) : Bool := x &&& bitMask k ≠ 0

/-- Set bit `k`. -/
def setBit (x : UInt8) (k : Nat) : UInt8 := x ||| bitMask k

/-- Clear bit `k`. -/
def clearBit (x : UInt8) (k : Nat) : UInt8 := x &&& ~~~bitMask k

theorem bitMask_toNat {k : Nat} (hk : k < 8) : (bitMask k).toNat = 2 ^ (7 - k) := by
  interval_cases k <;> rfl

/-- The test reads one bit of the number the byte is. -/
theorem testBit_eq {k : Nat} (hk : k < 8) (x : UInt8) : testBit x k = x.toNat.testBit (7 - k) := by
  unfold testBit
  have hand : (x &&& bitMask k).toNat = (x.toNat.testBit (7 - k)).toNat * 2 ^ (7 - k) := by
    rw [UInt8.toNat_and, bitMask_toNat hk, Nat.and_two_pow]
  have hzero : x &&& bitMask k = 0 ↔ (x &&& bitMask k).toNat = 0 := by
    rw [← UInt8.toNat_inj]
    rfl
  cases hb : x.toNat.testBit (7 - k) with
  | false =>
    rw [hb] at hand
    simpa [hzero] using hand
  | true =>
    rw [hb] at hand
    simp only [ne_eq, hzero, hand, decide_eq_true_eq]
    simp

theorem testBit_setBit {j k : Nat} (hj : j < 8) (hk : k < 8) (x : UInt8) :
    testBit (setBit x k) j = (decide (j = k) || testBit x j) := by
  rw [testBit_eq hj, testBit_eq hj, setBit, UInt8.toNat_or, bitMask_toNat hk, Nat.testBit_or,
    Nat.testBit_two_pow, Bool.or_comm]
  congr 1
  rw [decide_eq_decide]
  omega

theorem testBit_clearBit {j k : Nat} (hj : j < 8) (hk : k < 8) (x : UInt8) :
    testBit (clearBit x k) j = (!decide (j = k) && testBit x j) := by
  have hnot : (~~~bitMask k).toNat.testBit (7 - j) = !decide (j = k) := by
    interval_cases k <;> interval_cases j <;> rfl
  rw [testBit_eq hj, testBit_eq hj, clearBit, UInt8.toNat_and, Nat.testBit_and, hnot,
    Bool.and_comm]

end Rmdb.Lib
