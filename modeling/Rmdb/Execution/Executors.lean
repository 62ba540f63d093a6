import Rmdb.Execution.ScanExecutors
import Rmdb.Lib.Traversal

namespace Rmdb

open Lib

/-!
# Executors (`executor_abstract.h` and its subclasses)

An executor is a traversal of records together with the description of the records that the executor
above it reads when it is built: `cols()`, `tupleLen()` and `get_col_offset()`.

* `AbstractExecutor` — the virtual methods;
* `AbstractExecutor.seqScan`, `AbstractExecutor.indexScan` — the two scans;
* `AbstractExecutor.blockNestedLoopJoin` — the join, which reads the left side in blocks of
  `maxBufferSize`;
* `AbstractExecutor.projection` — the projection.

`Next` takes no record away from these executors.  Every loop has fuel.
-/

/-- What a run of executors can end in. -/
inductive RunError where
  | scan (e : ScanError)
  | exec (e : ExecError)
  /-- A null pointer is read: a scan that was not started, or a slot of the block that was not filled. -/
  | nullPointer
  | outOfFuel
  deriving DecidableEq, Repr

/-- An entry of `cols()`: a column, its table and its place in the records of the executor. -/
structure ExecCol where
  tabName : String
  col : ColMeta
  deriving DecidableEq, Repr

/-- `ColMeta()`. -/
def ExecCol.default : ExecCol := ⟨"", { name := "", type := .int, len := 0, offset := 0 }⟩

/-- The search for a column by the names of the table and the column. -/
def ExecCol.find? (cols : List ExecCol) (x : TabCol) : Option ExecCol :=
  cols.find? fun c => c.tabName = x.tabName ∧ c.col.name = x.colName

/-- `class AbstractExecutor`. -/
structure AbstractExecutor (σ : Type) extends Traversal σ (List UInt8) RunError where
  cols : List ExecCol
  tupleLen : Nat
  getColOffset : TabCol → Except RunError ExecCol

namespace ExecutorUtils

/-- The value of a column in a record of an executor. -/
def loadField (cols : List ExecCol) (rec : List UInt8) (x : TabCol) : Except ExecError Value :=
  match ExecCol.find? cols x with
  | some c => Value.loadRaw c.col.type c.col.len (slice rec c.col.offset c.col.len)
  | none => .error (.columnNotFoundError x.colName)

/-- The right side of a condition. -/
def rhsField (cols : List ExecCol) (rec : List UInt8) (c : Condition) : Except ExecError Value :=
  if c.isRhsVal then .ok c.rhsVal else loadField cols rec c.rhsCol

/-- One turn of the loop of `checkConds`. -/
def checkField (cols : List ExecCol) (rec : List UInt8) (c : Condition) : Except ExecError Bool := do
  let lval ← loadField cols rec c.lhsCol
  let rval ← rhsField cols rec c
  binop c.op lval rval

/-- `checkConds` on the columns of an executor. -/
def checkFields (cols : List ExecCol) (rec : List UInt8) : List Condition → Except ExecError Bool
  | [] => .ok true
  | c :: conds => do
    if ← checkField cols rec c then checkFields cols rec conds else return false

end ExecutorUtils

namespace AbstractExecutor

/-! ### Scans -/

/-- The columns of a table. -/
def tableCols (t : ScanTable) : List ExecCol := t.cols.map fun c => ⟨t.tab, c⟩

/-- `cols_.back().offset + cols_.back().len`. -/
def tableLen (t : ScanTable) : Nat :=
  match t.cols.getLast? with
  | some c => c.offset + c.len
  | none => 0

/-- A column of `cols_`; without one the end of the list is read. -/
def findOffset (cols : List ExecCol) (x : TabCol) : Except RunError ExecCol :=
  match ExecCol.find? cols x with
  | some c => .ok c
  | none => .error (.exec (.columnNotFoundError (x.tabName ++ "." ++ x.colName)))

/-- `SeqScanExecutor`. -/
def seqScan (fuel : Nat) (t : ScanTable) (conds : List Condition) : AbstractExecutor (Option Rid) where
  toTraversal :=
    ((RmScan.cursor t.hdr t.pages RunError.outOfFuel).traversal (.ok (RmScan.start t.hdr t.pages))
      (fun rid => (t.check conds rid).mapError .scan) .nullPointer fuel).bindItem
        fun rid => (t.getRecord rid).mapError .scan
  cols := tableCols t
  tupleLen := tableLen t
  getColOffset := findOffset (tableCols t)

/-- The start of `IndexScanExecutor`: the conditions as its constructor turns them, and the key range. -/
def indexStart (t : ScanTable) (index : IndexMeta)
    (ih : IxIndexHandle (RawKey (IndexScan.ixCols index.cols))) (conds : List Condition) :
    Except ScanError IxScan := do
  let conds ← t.orientConds conds
  let range ← (IndexScan.keyRange conds index.cols false).mapError .exec
  (ih.scan ⟨range.1⟩ ⟨range.2⟩).mapError .index

/-- `IndexScanExecutor`: `tupleLen` and `get_col_offset` are those of `AbstractExecutor`. -/
def indexScan (fuel : Nat) (t : ScanTable) (index : IndexMeta)
    (ih : IxIndexHandle (RawKey (IndexScan.ixCols index.cols))) (conds : List Condition) :
    AbstractExecutor (Option IxScan) where
  toTraversal :=
    (((IxScan.cursor ih).mapError fun e => RunError.scan (.index e)).traversal
      ((indexStart t index ih conds).mapError .scan)
      (fun rid => (do t.check (← t.orientConds conds) rid).mapError .scan) .nullPointer fuel).bindItem
        fun rid => (t.getRecord rid).mapError .scan
  cols := tableCols t
  tupleLen := 0
  getColOffset _ := .ok ExecCol.default

/-! ### The join -/

/-- `MAX_BUFFER_SIZE`. -/
def maxBufferSize : Nat := 2048

/-- `left_ptr += 1` on a `size_t`. -/
def incPtr (ptr : Nat) : Nat := (ptr + 1) % 2 ^ 64

/-- The state of a join: those of its children and the block. -/
structure JoinState (σ τ : Type) where
  left : σ
  right : τ
  leftPtr : Nat
  leftSize : Nat
  buffer : Nat → Option (List UInt8)

/-- The state after the constructor. -/
def JoinState.create {σ τ : Type} (left : σ) (right : τ) : JoinState σ τ :=
  { left := left, right := right, leftPtr := 0, leftSize := 0, buffer := fun _ => none }

/-- The record of a pair: `left_len` and `right_len` bytes are copied. -/
def joinRow (leftLen rightLen : Nat) (l r : List UInt8) : List UInt8 :=
  padBytes l leftLen ++ padBytes r rightLen

/-- The columns of a join: those of the right side behind the left record. -/
def joinCols (left right : List ExecCol) (leftLen : Nat) : List ExecCol :=
  left ++ right.map fun c => { c with col := { c.col with offset := c.col.offset + leftLen } }

section Join

variable {σ τ : Type} (left : AbstractExecutor σ) (right : AbstractExecutor τ) (conds : List Condition)

/-- `BlockNestedLoopJoinExecutor::Next`. -/
def joinNext (st : JoinState σ τ) : Except RunError (List UInt8) :=
  match st.buffer st.leftPtr with
  | none => .error .nullPointer
  | some l => do return joinRow left.tupleLen right.tupleLen l (← right.item st.right)

/-- The loop of `load_left_buffer`, with the slots that are left. -/
def loadFrom : Nat → JoinState σ τ → Except RunError (JoinState σ τ)
  | 0, st => .ok st
  | n + 1, st => do
    if ← left.isEnd st.left then return st
    let l ← left.item st.left
    let next ← left.next st.left
    loadFrom n { st with
      left := next
      buffer := fun i => if i = st.leftSize then some l else st.buffer i
      leftSize := st.leftSize + 1 }

/-- `load_left_buffer`.  Nothing reads `left_isend`. -/
def loadLeftBuffer (st : JoinState σ τ) : Except RunError (JoinState σ τ) :=
  loadFrom left maxBufferSize { st with leftPtr := 0, leftSize := 0 }

/-- The `for` loop of `nextTuple` over the slots that are left: whether it returns, and where. -/
def scanBlock : Nat → JoinState σ τ → Except RunError (Bool × JoinState σ τ)
  | 0, st => .ok (false, st)
  | n + 1, st => do
    let rec ← joinNext left right st
    if ← (ExecutorUtils.checkFields (joinCols left.cols right.cols left.tupleLen) rec
        conds).mapError .exec then return (true, st)
    scanBlock n { st with leftPtr := incPtr st.leftPtr }

/-- `is_end`. -/
def joinEnd (st : JoinState σ τ) : Except RunError Bool := do
  if ← left.isEnd st.left then right.isEnd st.right else return false

/-- Behind the last slot of the block: the next record of the right side, and behind the last of these
    the next block.  It says whether the loop goes on. -/
def advance (st : JoinState σ τ) : Except RunError (Bool × JoinState σ τ) := do
  let next ← right.next st.right
  if ← right.isEnd next then
    if ← left.isEnd st.left then return (false, { st with right := next })
    let first ← right.start next
    let st ← loadLeftBuffer left { st with right := first }
    return (true, { st with leftPtr := 0 })
  return (true, { st with right := next, leftPtr := 0 })

/-- The `if` of `nextTuple`. -/
def enterBlock (st : JoinState σ τ) : Except RunError (Bool × JoinState σ τ) :=
  if st.leftPtr = st.leftSize then advance left right st else .ok (true, st)

/-- The `while` loop of `nextTuple`. -/
def joinSeek : Nat → JoinState σ τ → Except RunError (JoinState σ τ)
  | 0, _ => .error .outOfFuel
  | fuel + 1, st => do
    if ← joinEnd left right st then return st
    let (goOn, st) ← enterBlock left right st
    if goOn then
      let (found, st) ← scanBlock left right conds (st.leftSize - st.leftPtr) st
      if found then return st
      joinSeek fuel st
    else return st

/-- `nextTuple`. -/
def joinNextTuple (fuel : Nat) (st : JoinState σ τ) : Except RunError (JoinState σ τ) :=
  joinSeek left right conds fuel { st with leftPtr := incPtr st.leftPtr }

/-- `beginTuple`. -/
def joinBegin (fuel : Nat) (st : JoinState σ τ) : Except RunError (JoinState σ τ) := do
  let l ← left.start st.left
  if ← left.isEnd l then return { st with left := l }
  let r ← right.start st.right
  if ← right.isEnd r then return { st with left := l, right := r }
  let st ← loadLeftBuffer left { st with left := l, right := r }
  -- -1 in a `size_t`
  joinNextTuple left right conds fuel { st with leftPtr := 2 ^ 64 - 1 }

/-- `BlockNestedLoopJoinExecutor`. -/
def blockNestedLoopJoin (fuel : Nat) : AbstractExecutor (JoinState σ τ) where
  start := joinBegin left right conds fuel
  next := joinNextTuple left right conds fuel
  isEnd := joinEnd left right
  item := joinNext left right
  cols := joinCols left.cols right.cols left.tupleLen
  tupleLen := left.tupleLen + right.tupleLen
  getColOffset := findOffset (joinCols left.cols right.cols left.tupleLen)

end Join

/-! ### The projection -/

section Projection

variable {σ : Type} (prev : AbstractExecutor σ)

/-- The constructor of `ProjectionExecutor` from this offset on: the columns and their total length. -/
def projectionCols (selCols : List TabCol) (currOffset : Nat) :
    Except RunError (List ExecCol × Nat) :=
  match selCols with
  | [] => .ok ([], currOffset)
  | selCol :: selCols => do
    let c ← findOffset prev.cols selCol
    let rest ← projectionCols selCols (currOffset + c.col.len)
    return ({ c with col := { c.col with offset := currOffset } } :: rest.1, rest.2)

/-- One turn of the loop of `Next`: the bytes of a column. -/
def projectionField (rec : List UInt8) (c : ExecCol) : Except RunError (List UInt8) := do
  let rawCol ← findOffset prev.cols ⟨c.tabName, c.col.name⟩
  return padBytes (slice rec rawCol.col.offset c.col.len) c.col.len

/-- `ProjectionExecutor`: `get_col_offset` is that of `AbstractExecutor`. -/
def projection (cols : List ExecCol) (len : Nat) : AbstractExecutor σ where
  start := prev.start
  next := prev.next
  isEnd := prev.isEnd
  item st := do
    let rec ← prev.item st
    return (← cols.mapM (projectionField prev rec)).flatten
  cols := cols
  tupleLen := len
  getColOffset _ := .ok ExecCol.default

end Projection

end AbstractExecutor

end Rmdb
