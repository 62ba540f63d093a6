import Mathlib.Data.List.Basic

namespace Rmdb.Lib

/-!
# Memory behind a pointer

The bytes at the offsets from a pointer, before it and behind it.

* `RawMemory.write`, `read` — a list of bytes at an offset;
* `write_append` — one write after the other;
* `read_write` — what is read inside of what was written.
-/

/-- The bytes by their offsets. -/
abbrev RawMemory := Int → UInt8

namespace RawMemory

variable (m : RawMemory) (off : Int) (a b c : List UInt8)

/-- `memcpy(p + off, bs, n)`. -/
def write (bs : List UInt8) : RawMemory := fun i =>
  if off ≤ i then bs[(i - off).toNat]?.getD (m i) else m i

/-- The bytes from an offset on. -/
def read (n : Nat) : List UInt8 := (List.range n).map fun k : Nat => m (off + k)

@[simp] theorem write_nil : m.write off [] = m := by
  funext i
  simp [write]

@[simp] theorem length_read (n : Nat) : (m.read off n).length = n := by
  simp [read]

@[simp] theorem read_zero : m.read off 0 = [] := rfl

/-- Two writes, the second one where the first one ends. -/
theorem write_append : (m.write off a).write (off + a.length) b = m.write off (a ++ b) := by
  funext i
  simp only [write]
  by_cases hb : off + a.length ≤ i
  · have hi : off ≤ i := by omega
    have hidx : (i - (off + a.length)).toNat = (i - off).toNat - a.length := by omega
    rw [if_pos hb, if_pos hi, if_pos hi, List.getElem?_append_right (by omega), hidx,
      List.getElem?_eq_none (l := a) (by omega), Option.getD_none]
  · rw [if_neg hb]
    by_cases hi : off ≤ i
    · rw [if_pos hi, if_pos hi, List.getElem?_append_left (by omega)]
    · rw [if_neg hi, if_neg hi]

/-- The same from the pointer on. -/
theorem write_write {a : List UInt8} {off : Int} (h : off = a.length) :
    (m.write 0 a).write off b = m.write 0 (a ++ b) := by
  have hw := m.write_append 0 a b
  rwa [Int.zero_add, ← h] at hw

/-- A byte that was written. -/
theorem write_apply {k : Nat} (hk : k < a.length) : m.write off a (off + k) = a[k] := by
  have hidx : (off + (k : Int) - off).toNat = k := by omega
  simp only [write]
  rw [if_pos (by omega), hidx, List.getElem?_eq_getElem hk, Option.getD_some]

/-- **Reading a part of what was written.** -/
theorem read_write : (m.write 0 (a ++ (b ++ c))).read a.length b.length = b := by
  apply List.ext_getElem
  · simp
  · intro k _ hk
    have hlt : a.length + k < (a ++ (b ++ c)).length := by
      simp only [List.length_append]
      omega
    have hat := m.write_apply 0 (a ++ (b ++ c)) hlt
    have hoff : (0 : Int) + ((a.length + k : Nat) : Int) = (a.length : Int) + k := by omega
    rw [hoff] at hat
    simp only [read, List.getElem_map, List.getElem_range, hat]
    rw [List.getElem_append_right (by omega), List.getElem_append_left (by omega)]
    simp

/-- A write of two lists is a write of lists of one length. -/
theorem length_eq_of_write (h : ∀ m : RawMemory, m.write 0 a = m.write 0 b) : a.length = b.length := by
  -- where one list ends the old byte stays, and the other one would have to write every byte
  have hle : ∀ {a b : List UInt8}, (∀ m : RawMemory, m.write 0 a = m.write 0 b) → b.length ≤ a.length := by
    intro a b h
    by_contra hlt
    have hval : ∀ x : UInt8, x = b[a.length] := by
      intro x
      have hx := congrFun (h fun _ => x) (0 + a.length)
      rw [write_apply _ 0 b (by omega)] at hx
      rw [← hx]
      simp [write]
    have h01 : (0 : UInt8) = 1 := (hval 0).trans (hval 1).symm
    cases h01
  exact Nat.le_antisymm (hle fun m => (h m).symm) (hle h)

end RawMemory

end Rmdb.Lib
