import Mathlib.Algebra.Order.Ring.Int
import Mathlib.Data.List.Basic
import Rmdb.Defs

namespace Rmdb

/-!
# Values, columns and keys (`common/common.h`, `system/sm_meta.h`)

Values as the statements carry them, the bytes they become in a record, and the keys the executors cut
out of a record for an index.

The numeric members of `Value` are a union; `bits` are its eight bytes.  Integer addition wraps; float
addition is a parameter.
-/

/-- `enum ColType`. -/
inductive ColType where
  | int
  | bigint
  | float
  | string
  | datetime
  deriving DecidableEq, Repr

/-- `struct ColMeta`. -/
structure ColMeta where
  name : String
  type : ColType
  len : Nat
  offset : Nat
  deriving DecidableEq, Repr

/-- `struct IndexMeta`.  `col_num` is the number of columns, as `create_index` checks. -/
structure IndexMeta where
  colTotLen : Nat
  cols : List ColMeta
  deriving DecidableEq, Repr

/-- The description `SmManager::create_index` stores: `col_tot_len` stays 0. -/
def IndexMeta.create (cols : List ColMeta) : IndexMeta := { colTotLen := 0, cols := cols }

/-- `struct Value`; `raw` is computed where it is used. -/
structure Value where
  type : ColType
  bits : Nat
  datetimeVal : List UInt8
  strVal : List UInt8
  deriving DecidableEq, Repr

/-- `struct SetClause`. -/
structure SetClause where
  lhs : String
  rhs : Value
  isSelfadd : Bool
  deriving DecidableEq, Repr

/-- What the executors can throw. -/
inductive ExecError where
  | incompatibleTypeError (lhs rhs : ColType)
  | columnNotFoundError (name : String)
  | invalidValueCountError
  | stringOverflowError
  | internalError (msg : String)
  | rmdbError (msg : String)
  /-- An `assert` fails. -/
  | assertion
  /-- A record id without a record, where `get_record` would return stale bytes. -/
  | noRecord (rid : Rid)
  deriving DecidableEq, Repr

/-- `is_compatible_type`. -/
def isCompatibleType : ColType → ColType → Bool
  | .int, b | .bigint, b | .float, b => b = .int || b = .bigint || b = .float
  | .string, b => b = .datetime || b = .string
  | .datetime, b => b = .datetime

/-! ### Bytes -/

/-- The low `len` bytes of a number, least significant first. -/
def leBytes (n len : Nat) : List UInt8 := (List.range len).map fun k => UInt8.ofNat (n / 256 ^ k)

/-- The number with these bytes. -/
def ofLeBytes : List UInt8 → Nat
  | [] => 0
  | b :: bs => b.toNat + 256 * ofLeBytes bs

theorem ofLeBytes_lt (l : List UInt8) : ofLeBytes l < 256 ^ l.length := by
  induction l with
  | nil => exact Nat.one_pos
  | cons b l ih =>
    have hb := b.toNat_lt
    rw [ofLeBytes, List.length_cons, Nat.pow_succ]
    omega

/-- The bytes of a string in a field of `len` bytes. -/
def padBytes (s : List UInt8) (len : Nat) : List UInt8 :=
  (s ++ List.replicate (len - s.length) 0).take len

/-- `int_val` of the union as a 64-bit pattern. -/
def signExtend (bits : Nat) : Nat :=
  let low := bits % 2 ^ 32
  if low < 2 ^ 31 then low else low + 2 ^ 64 - 2 ^ 32

/-- The `len` bytes at an offset of a record. -/
def slice (rec : List UInt8) (offset len : Nat) : List UInt8 := (rec.drop offset).take len

/-- `memcpy` into a record. -/
def splice (rec : List UInt8) (offset : Nat) (bytes : List UInt8) : List UInt8 :=
  rec.take offset ++ bytes ++ rec.drop (offset + bytes.length)

/-- `Value::init_raw`. -/
def Value.initRaw (v : Value) (len : Nat) : Except ExecError (List UInt8) :=
  match v.type with
  | .int =>
    if len < 4 then .error .assertion
    else if len = 4 then .ok (leBytes v.bits 4)
    else .ok (padBytes (leBytes (signExtend v.bits) 8) len)
  | .bigint => if len = 8 then .ok (leBytes v.bits 8) else .error .assertion
  | .float => if len = 4 then .ok (leBytes v.bits 4) else .error .assertion
  | .datetime =>
    if len < v.strVal.length then .error .stringOverflowError else .ok (padBytes v.datetimeVal len)
  | .string =>
    if len < v.strVal.length then .error .stringOverflowError else .ok (padBytes v.strVal len)

/-- `val += old_val` in the member the column's type selects. -/
def Value.selfAdd (floatAdd : Nat → Nat → Nat) (v : Value) (col : ColMeta) (old : List UInt8) :
    Except ExecError Value :=
  let low := v.bits % 2 ^ 32
  match col.type with
  | .int =>
    if col.len = 4 then
      .ok { v with bits := v.bits - low + (low + ofLeBytes old) % 2 ^ 32 }
    else .error .assertion
  | .bigint =>
    if col.len = 8 then .ok { v with bits := (v.bits + ofLeBytes old) % 2 ^ 64 }
    else .error .assertion
  | .float =>
    if col.len = 4 then .ok { v with bits := v.bits - low + floatAdd low (ofLeBytes old) }
    else .error .assertion
  | _ => .error (.internalError "Unsupported operation.")

/-- `TabMeta::get_col`. -/
def getCol (cols : List ColMeta) (name : String) : Except ExecError ColMeta :=
  match cols.find? (fun c => c.name = name) with
  | some c => .ok c
  | none => .error (.columnNotFoundError name)

/-- One set clause of an update. -/
def SetClause.apply (floatAdd : Nat → Nat → Nat) (cols : List ColMeta) (old rec : List UInt8)
    (x : SetClause) : Except ExecError (List UInt8) := do
  let col ← getCol cols x.lhs
  if !isCompatibleType col.type x.rhs.type then
    throw (.incompatibleTypeError col.type x.rhs.type)
  let val ← if x.isSelfadd then x.rhs.selfAdd floatAdd col (slice old col.offset col.len)
    else pure x.rhs
  let raw ← val.initRaw col.len
  return splice rec col.offset raw

/-- The record an update writes: all clauses, on a copy of the old record. -/
def applySet (floatAdd : Nat → Nat → Nat) (cols : List ColMeta) (clauses : List SetClause)
    (old : List UInt8) : Except ExecError (List UInt8) :=
  clauses.foldlM (SetClause.apply floatAdd cols old) old

/-- One value of an insert. -/
def insertValue (rec : List UInt8) (p : ColMeta × Value) : Except ExecError (List UInt8) :=
  if !isCompatibleType p.1.type p.2.type then
    .error (.incompatibleTypeError p.1.type p.2.type)
  else do
    let raw ← p.2.initRaw p.1.len
    return splice rec p.1.offset raw

/-- The record an insert writes. -/
def makeRecord (cols : List ColMeta) (recordSize : Nat) (values : List Value) :
    Except ExecError (List UInt8) :=
  if values.length ≠ cols.length then .error .invalidValueCountError
  else (cols.zip values).foldlM insertValue (List.replicate recordSize 0)

/-! ### Keys -/

/-- The key of a record: the bytes of the indexed columns, one after the other. -/
def indexKey (cols : List ColMeta) (rec : List UInt8) : List UInt8 :=
  cols.flatMap fun c => slice rec c.offset c.len

/-- A key up to `ix_compare`: the two zeros of a float column compare equal. -/
def canonKey : List ColMeta → List UInt8 → List UInt8
  | [], _ => []
  | c :: cs, key =>
    let field := key.take c.len
    (if c.type = .float ∧ field = [0, 0, 0, 0x80] then [0, 0, 0, 0] else field) ++
      canonKey cs (key.drop c.len)

/-- `strncmp(a, b, n) == 0`.  `beyond` is the outcome when the comparison leaves the buffers. -/
def strncmpEq (beyond : Bool) : Nat → List UInt8 → List UInt8 → Bool
  | 0, _, _ => true
  | n + 1, a :: as, b :: bs => if a ≠ b then false else if a = 0 then true else strncmpEq beyond n as bs
  | _ + 1, _, _ => beyond

/-- `memcmp(a, b, n) == 0` on buffers of `n` bytes, zero where the key does not reach. -/
def memcmpEq (n : Nat) (a b : List UInt8) : Bool := a.take n = b.take n

end Rmdb
