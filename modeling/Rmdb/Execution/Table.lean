import Rmdb.Execution.Values
import Rmdb.Record.RecordMap
import Rmdb.Transaction.TxnDefs

namespace Rmdb

/-!
# Writing executors and rollback

`InsertExecutor`, `UpdateExecutor` and `DeleteExecutor` (`execution/executor_*.h`) and
`TransactionManager::abort`, row by row.  The record file is a map (`RecordMap`) and an index is an
ordered map: keys that compare equal are one key, an insert of a key that exists does nothing.  The
buffers in which the executors put keys together are taken to have room for them, though they have
`col_tot_len` bytes, which is 0 for an index that `create_index` has made.

An executor's `Next` is a loop over rows; each row goes through the whole table or throws before it
has changed anything.
-/

/-- An index: its description and its entries, under the keys up to `ix_compare`. -/
structure Index where
  info : IndexMeta
  entries : List UInt8 → Option Rid

namespace Index

/-- The key of a record, up to `ix_compare`. -/
def keyOf (ix : Index) (rec : List UInt8) : List UInt8 :=
  canonKey ix.info.cols (indexKey ix.info.cols rec)

/-- `IxIndexHandle::is_key_exist`. -/
def isKeyExist (ix : Index) (rec : List UInt8) : Bool := (ix.entries (ix.keyOf rec)).isSome

/-- `IxIndexHandle::insert_entry` of the key of a record. -/
def insertEntry (ix : Index) (rec : List UInt8) (rid : Rid) : Index :=
  if ix.isKeyExist rec then ix
  else { ix with entries := Function.update ix.entries (ix.keyOf rec) (some rid) }

/-- `IxIndexHandle::delete_entry` of the key of a record. -/
def deleteEntry (ix : Index) (rec : List UInt8) : Index :=
  { ix with entries := Function.update ix.entries (ix.keyOf rec) none }

end Index

/-- A table: its name, its columns, its records and its indexes. -/
structure Table where
  name : String
  cols : List ColMeta
  recordSize : Nat
  file : RecordMap
  indexes : List Index

/-- What the program text leaves open: float addition, and what `UpdateExecutor` reads outside its own
    objects (`index.cols[i]` past the end, `strncmp` past a key) for a row and an index. -/
structure ExecEnv where
  floatAdd : Nat → Nat → Nat
  strayLen : Rid → Nat → Nat
  strayEqual : Rid → Nat → Bool

/-- Nothing strange outside the executor's objects. -/
def ExecEnv.plain : ExecEnv :=
  { floatAdd := fun a _ => a, strayLen := fun _ _ => 0, strayEqual := fun _ _ => true }

namespace Table

/-! ### The rows of the executors -/

/-- `InsertExecutor::Next`. -/
def insertRow (t : Table) (values : List Value) : Except ExecError (Table × WriteRecord) :=
  match makeRecord t.cols t.recordSize values with
  | .error e => .error e
  | .ok rec =>
    if t.indexes.any (·.isKeyExist rec) then .error (.rmdbError "index unique error!")
    else
      let r := t.file.insert rec
      .ok ({ t with file := r.2, indexes := t.indexes.map (·.insertEntry rec r.1) },
        ⟨.insertTuple, t.name, r.1, []⟩)

/-- `strncmp(key1, key2, index.cols[i].len) == 0` for the index number `i`. -/
def sameKey (env : ExecEnv) (rid : Rid) (i : Nat) (info : IndexMeta) (a b : List UInt8) : Bool :=
  let len := match info.cols[i]? with
    | some c => c.len
    | none => env.strayLen rid i
  strncmpEq (env.strayEqual rid i) len (indexKey info.cols a) (indexKey info.cols b)

/-- The index number `i` after the update of a row. -/
def updateIndex (env : ExecEnv) (rid : Rid) (old new : List UInt8) (i : Nat) (ix : Index) : Index :=
  if sameKey env rid i ix.info old new then ix else (ix.deleteEntry old).insertEntry new rid

/-- Some index refuses the new key of a row. -/
def updateConflict (env : ExecEnv) (rid : Rid) (old new : List UInt8) (indexes : List Index) : Bool :=
  (indexes.mapIdx fun i ix => !sameKey env rid i ix.info new old && ix.isKeyExist new).any id

/-- One round of the loop in `UpdateExecutor::Next`. -/
def updateRow (env : ExecEnv) (t : Table) (clauses : List SetClause) (rid : Rid) :
    Except ExecError (Table × WriteRecord) :=
  match t.file.records rid with
  | none => .error (.noRecord rid)
  | some old =>
    match applySet env.floatAdd t.cols clauses old with
    | .error e => .error e
    | .ok new =>
      if updateConflict env rid old new t.indexes then
        .error (.rmdbError "update index unique error!")
      else
        .ok ({ t with
          file := t.file.update rid new
          indexes := t.indexes.mapIdx (updateIndex env rid old new) },
          ⟨.updateTuple, t.name, rid, old⟩)

/-- One round of the loop in `DeleteExecutor::Next`. -/
def deleteRow (t : Table) (rid : Rid) : Except ExecError (Table × WriteRecord) :=
  match t.file.records rid with
  | none => .error (.noRecord rid)
  | some rec =>
    .ok ({ t with file := t.file.delete rid, indexes := t.indexes.map (·.deleteEntry rec) },
      ⟨.deleteTuple, t.name, rid, rec⟩)

/-! ### The statements -/

/-- A writing statement, with the records its scan has found. -/
inductive Statement where
  | insert (values : List Value)
  | update (clauses : List SetClause) (rids : List Rid)
  | delete (rids : List Rid)

/-- The executor of a statement, when it does not throw. -/
def run (env : ExecEnv) (t : Table) : Statement → Except ExecError Table
  | .insert values => (t.insertRow values).map Prod.fst
  | .update clauses rids => rids.foldlM (fun t rid => (updateRow env t clauses rid).map Prod.fst) t
  | .delete rids => rids.foldlM (fun t rid => (t.deleteRow rid).map Prod.fst) t

/-! ### Rollback -/

/-- One round of the loop in `TransactionManager::abort`. -/
def undo (t : Table) (w : WriteRecord) : Except ExecError Table :=
  match w.wtype with
  | .insertTuple =>
    match t.file.records w.rid with
    | none => .error (.noRecord w.rid)
    | some rec =>
      .ok { t with file := t.file.delete w.rid, indexes := t.indexes.map (·.deleteEntry rec) }
  | .deleteTuple =>
    let r := t.file.insert w.record
    .ok { t with file := r.2, indexes := t.indexes.map (·.insertEntry w.record r.1) }
  | .updateTuple =>
    match t.file.records w.rid with
    | none => .error (.noRecord w.rid)
    | some new =>
      .ok { t with
        file := t.file.update w.rid w.record
        indexes := t.indexes.map fun ix =>
          if memcmpEq ix.info.colTotLen (indexKey ix.info.cols new)
            (indexKey ix.info.cols w.record) then ix
          else (ix.deleteEntry new).insertEntry w.record w.rid }

end Table

end Rmdb
