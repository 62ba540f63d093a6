import Rmdb.Index.IxCompare

namespace Rmdb

open Std

/-!
# Comparing values (`common/common.h`)

`binop` compares two values of numeric types, or two of string types, under the conversions of C++:
`int` and `int64_t` meet as `int64_t`, an integer and a float meet as floats.

* `floatOfInt` — the conversion of an integer to a 32-bit float, to nearest, ties to even;
* `Value.compare` — how two values compare; a NaN compares with nothing;
* `binop_swap` — the sides of a comparison may be exchanged together with its operator.
-/

/-- `enum CompOp`. -/
inductive CompOp where
  | eq
  | ne
  | lt
  | gt
  | le
  | ge
  deriving DecidableEq, Repr

/-- `swap_op`. -/
def CompOp.swap : CompOp → CompOp
  | .eq => .eq
  | .ne => .ne
  | .lt => .gt
  | .gt => .lt
  | .le => .ge
  | .ge => .le

/-- What the operator says of two operands; `none` where they are not ordered. -/
def CompOp.holds : CompOp → Option Ordering → Bool
  | .eq, o => o = some .eq
  | .ne, o => o ≠ some .eq
  | .lt, o => o = some .lt
  | .gt, o => o = some .gt
  | .le, o => o = some .lt ∨ o = some .eq
  | .ge, o => o = some .gt ∨ o = some .eq

theorem CompOp.holds_swap (op : CompOp) (o : Option Ordering) :
    op.swap.holds (o.map Ordering.swap) = op.holds o := by
  cases op <;> cases o with
  | none => decide
  | some o => cases o <;> decide

/-- The bits of the float nearest to a number that is not 0. -/
def floatOfNat (n : Nat) : Nat :=
  let l := n.log2
  -- 24 significant bits
  let q := if l ≤ 23 then n * 2 ^ (23 - l) else n / 2 ^ (l - 23)
  let rest := if l ≤ 23 then 0 else n % 2 ^ (l - 23)
  let half := 2 ^ (l - 24)
  let q := if 23 < l ∧ (half < rest ∨ (half = rest ∧ q % 2 = 1)) then q + 1 else q
  (l + 127) * 2 ^ 23 + (q - 2 ^ 23)

/-- `(float) i`, as a bit pattern. -/
def floatOfInt (i : Int) : Nat :=
  if i = 0 then 0 else if i < 0 then 2 ^ 31 + floatOfNat i.natAbs else floatOfNat i.natAbs

/-- How two float patterns compare. -/
def compareFloat (a b : Nat) : Option Ordering :=
  if isNaN a || isNaN b then none else some (compare (floatRank a) (floatRank b))

/-- `s.c_str()`: the bytes before the first 0. -/
def cStr (s : List UInt8) : List UInt8 := s.takeWhile (· ≠ 0)

/-- `strcmp`. -/
def strcmp (a b : List UInt8) : Ordering := compare (cStr a) (cStr b)

/-- `binop` up to the operator: the conversions, and the types that do not go together. -/
def Value.compare (l r : Value) : Except ExecError (Option Ordering) :=
  match l.type, r.type with
  | .int, .int => .ok (some (Ord.compare (signed 32 l.bits) (signed 32 r.bits)))
  | .int, .float => .ok (compareFloat (floatOfInt (signed 32 l.bits)) (r.bits % 2 ^ 32))
  | .int, .bigint => .ok (some (Ord.compare (signed 32 l.bits) (signed 64 r.bits)))
  | .bigint, .int => .ok (some (Ord.compare (signed 64 l.bits) (signed 32 r.bits)))
  | .bigint, .float => .ok (compareFloat (floatOfInt (signed 64 l.bits)) (r.bits % 2 ^ 32))
  | .bigint, .bigint => .ok (some (Ord.compare (signed 64 l.bits) (signed 64 r.bits)))
  | .float, .int => .ok (compareFloat (l.bits % 2 ^ 32) (floatOfInt (signed 32 r.bits)))
  | .float, .float => .ok (compareFloat (l.bits % 2 ^ 32) (r.bits % 2 ^ 32))
  | .float, .bigint => .ok (compareFloat (l.bits % 2 ^ 32) (floatOfInt (signed 64 r.bits)))
  | .datetime, .string => .ok (some (strcmp l.datetimeVal r.strVal))
  | .datetime, .datetime => .ok (some (strcmp l.datetimeVal r.datetimeVal))
  | .string, .string => .ok (some (strcmp l.strVal r.strVal))
  | .string, .datetime => .ok (some (strcmp l.strVal r.datetimeVal))
  | a, b => .error (.incompatibleTypeError a b)

/-- `binop`. -/
def binop (op : CompOp) (l r : Value) : Except ExecError Bool :=
  match l.compare r with
  | .ok o => .ok (op.holds o)
  | .error e => .error e

-- 2^24 + 1 is half way between two floats and goes to the even one; 2^24 + 3 goes up
example : floatOfInt 16777217 = floatOfInt 16777216 := by decide
example : floatOfInt 16777219 = floatOfInt 16777220 := by decide
example : floatOfInt 1 = 0x3F800000 ∧ floatOfInt (-2) = 0xC0000000 := by decide

theorem compareFloat_swap (a b : Nat) :
    compareFloat b a = (compareFloat a b).map Ordering.swap := by
  have hswap : compare (floatRank b) (floatRank a) = (compare (floatRank a) (floatRank b)).swap :=
    OrientedCmp.eq_swap
  unfold compareFloat
  rw [Bool.or_comm, hswap]
  split <;> rfl

theorem compareInt_swap (a b : Int) :
    some (Ord.compare b a) = (some (Ord.compare a b)).map Ordering.swap :=
  congrArg some OrientedCmp.eq_swap

theorem strcmp_swap (a b : List UInt8) :
    some (strcmp b a) = (some (strcmp a b)).map Ordering.swap := by
  have hswap : compare (cStr b) (cStr a) = (compare (cStr a) (cStr b)).swap := OrientedCmp.eq_swap
  exact congrArg some hswap

/-- Exchanging the sides of a comparison. -/
theorem Value.compare_swap {l r : Value} {o : Option Ordering} (h : l.compare r = .ok o) :
    r.compare l = .ok (o.map Ordering.swap) := by
  obtain ⟨lt, lb, ld, ls⟩ := l
  obtain ⟨rt, rb, rd, rs⟩ := r
  cases lt <;> cases rt <;> cases h
  all_goals refine congrArg Except.ok ?_
  all_goals first
    | exact compareInt_swap _ _
    | exact compareFloat_swap _ _
    | exact strcmp_swap _ _

/-- **The sides may be exchanged.** -/
theorem binop_swap {op : CompOp} {l r : Value} {b : Bool} (h : binop op l r = .ok b) :
    binop op.swap r l = .ok b := by
  unfold binop at h ⊢
  split at h
  · next o ho =>
    rw [Value.compare_swap ho]
    cases h
    exact congrArg Except.ok (op.holds_swap o)
  · cases h

/-- Values of compatible types can be compared, from either side. -/
theorem binop_of_compatible {l r : Value} (h : isCompatibleType l.type r.type = true) (op : CompOp) :
    ∃ b, binop op l r = .ok b ∧ binop op.swap r l = .ok b := by
  have hcmp : ∃ o, l.compare r = .ok o := by
    obtain ⟨lt, lb, ld, ls⟩ := l
    obtain ⟨rt, rb, rd, rs⟩ := r
    cases lt <;> cases rt <;> first | exact ⟨_, rfl⟩ | cases h
  obtain ⟨o, ho⟩ := hcmp
  have hb : binop op l r = .ok (op.holds o) := by
    unfold binop
    rw [ho]
  exact ⟨_, hb, binop_swap hb⟩

end Rmdb
