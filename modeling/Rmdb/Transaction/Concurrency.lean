import Rmdb.Lib.Schedule
import Rmdb.Lib.Transition
import Rmdb.Transaction.LockManager

namespace Rmdb

open Lib

/-!
# Two-phase locking over the record files

The executors and the transaction manager as a system of clients that share one lock manager.  A
statement is the list of lock requests and record-file accesses its executor makes
(`executor_seq_scan.h`, `executor_insert.h`, `executor_update.h`, `executor_delete.h`, and the record
locks inside `RmFileHandle`); a transaction runs statements until `TransactionManager::commit` or
`abort`.

* `FileAccess.Conflict` and `FileAccess.needs` — which accesses conflict, and the locks under which
  the executors make them;
* `Statement.actions` — what each kind of statement does;
* `txnSystem` — every interleaving of any number of transactions, one lock request, one access, one
  `unlock` at a time.
-/

/-! ### Accesses to the record files -/

/-- An access to the record file `fd`. -/
inductive FileAccess where
  | getRecord (fd : Int) (rid : Rid)
  | insertRecord (fd : Int) (rid : Rid)
  | updateRecord (fd : Int) (rid : Rid)
  | deleteRecord (fd : Int) (rid : Rid)
  /-- A whole-table scan (`RmScan`). -/
  | scan (fd : Int)
  deriving DecidableEq, Repr

/-- The file accessed. -/
def FileAccess.fd : FileAccess → Int
  | .getRecord fd _ | .insertRecord fd _ | .updateRecord fd _ | .deleteRecord fd _ | .scan fd => fd

/-- The record accessed; a scan accesses all of them. -/
def FileAccess.rid? : FileAccess → Option Rid
  | .getRecord _ rid | .insertRecord _ rid | .updateRecord _ rid | .deleteRecord _ rid => some rid
  | .scan _ => none

/-- The access changes the file. -/
def FileAccess.isWrite : FileAccess → Bool
  | .getRecord _ _ | .scan _ => false
  | .insertRecord _ _ | .updateRecord _ _ | .deleteRecord _ _ => true

/-- Two accesses conflict: they meet in a record and one of them changes it. -/
def FileAccess.Conflict (a b : FileAccess) : Prop :=
  a.fd = b.fd ∧ (a.isWrite = true ∨ b.isWrite = true) ∧
    (a.rid? = none ∨ b.rid? = none ∨ a.rid? = b.rid?)

/-- The locks under which the executors make an access. -/
def FileAccess.needs : FileAccess → List (LockDataId × LockMode)
  | .getRecord fd rid => [(.ofRecord fd rid, .shared)]
  | .insertRecord fd rid | .updateRecord fd rid | .deleteRecord fd rid =>
    [(.ofTable fd, .intentionExclusive), (.ofRecord fd rid, .exclusive)]
  | .scan fd => [(.ofTable fd, .shared)]

/-- Conflicting accesses need incompatible locks. -/
theorem FileAccess.Conflict.needs {a b : FileAccess} (h : a.Conflict b) :
    ∃ id m₁ m₂, (id, m₁) ∈ a.needs ∧ (id, m₂) ∈ b.needs ∧ LockMode.compatible m₁ m₂ = false := by
  obtain ⟨hfd, hw, hrid⟩ := h
  cases a <;> cases b <;>
    simp only [FileAccess.fd, FileAccess.isWrite, FileAccess.rid?, Bool.false_eq_true, or_self,
      reduceCtorEq, Option.some.injEq, false_or, or_false] at hfd hw hrid <;>
    subst hfd <;> try subst hrid
  -- a table lock separates a scan from a write, a record lock the rest
  all_goals first
    | exact ⟨_, _, _, List.mem_cons_self, List.mem_cons_self, rfl⟩
    | exact ⟨_, _, _, List.mem_cons_self, List.mem_cons_of_mem _ List.mem_cons_self, rfl⟩
    | exact ⟨_, _, _, List.mem_cons_of_mem _ List.mem_cons_self, List.mem_cons_self, rfl⟩
    | exact ⟨_, _, _, List.mem_cons_of_mem _ List.mem_cons_self,
        List.mem_cons_of_mem _ List.mem_cons_self, rfl⟩

/-! ### Statements -/

/-- One thing a statement does. -/
inductive Action where
  | lock (c : LockCall)
  | access (a : FileAccess)
  deriving DecidableEq, Repr

/-- `RmFileHandle::get_record`: `S` on the record, then the read. -/
def getRecordActions (fd : Int) (rid : Rid) : List Action :=
  [.lock (.sharedOnRecord rid fd), .access (.getRecord fd rid)]

/-- `RmFileHandle::insert_record` at the slot it finds: `X` on the record, then the write. -/
def insertRecordActions (fd : Int) (rid : Rid) : List Action :=
  [.lock (.exclusiveOnRecord rid fd), .access (.insertRecord fd rid)]

/-- `RmFileHandle::update_record`. -/
def updateRecordActions (fd : Int) (rid : Rid) : List Action :=
  [.lock (.exclusiveOnRecord rid fd), .access (.updateRecord fd rid)]

/-- `RmFileHandle::delete_record`. -/
def deleteRecordActions (fd : Int) (rid : Rid) : List Action :=
  [.lock (.exclusiveOnRecord rid fd), .access (.deleteRecord fd rid)]

/-- One step of a scan: `RmScan` moves on, or a record is read. -/
def scanActions (fd : Int) : Option Rid → List Action
  | none => [.access (.scan fd)]
  | some rid => getRecordActions fd rid

/-- `SeqScanExecutor`: `S` on the table, then the steps of the scan. -/
def seqScanActions (fd : Int) (ops : List (Option Rid)) : List Action :=
  [.lock (.sharedOnTable fd)] ++ ops.flatMap (scanActions fd)

/-- A statement, with the records it happens to visit. -/
inductive Statement where
  /-- A query over the scans of one or, below joins, several tables.  The constructors of the
      scans run first; then the operators above them drive the scans in any order. -/
  | select (fds : List Int) (ops : List (Fin fds.length × Option Rid))
  | insert (fd : Int) (rid : Rid)
  | update (fd : Int) (ops : List (Option Rid)) (rids : List Rid)
  | delete (fd : Int) (ops : List (Option Rid)) (rids : List Rid)

/-- What the statement's executors do (`Portal::start`, then `Next`). -/
def Statement.actions : Statement → List Action
  | .select fds ops =>
    fds.map (fun fd => .lock (.sharedOnTable fd)) ++
      ops.flatMap (fun op => scanActions (fds.get op.1) op.2)
  | .insert fd rid => [.lock (.ixOnTable fd)] ++ insertRecordActions fd rid
  | .update fd ops rids =>
    seqScanActions fd ops ++ [.lock (.ixOnTable fd)] ++
      rids.flatMap (fun rid => getRecordActions fd rid ++ updateRecordActions fd rid)
  | .delete fd ops rids =>
    seqScanActions fd ops ++ [.lock (.ixOnTable fd)] ++
      rids.flatMap (fun rid => getRecordActions fd rid ++ deleteRecordActions fd rid)

/-- An entry of the write set, as far as locking is concerned. -/
structure Write where
  wtype : WType
  fd : Int
  rid : Rid
  deriving DecidableEq, Repr

/-- The entry an executor appends after the access. -/
def FileAccess.write? : FileAccess → Option Write
  | .insertRecord fd rid => some { wtype := .insertTuple, fd := fd, rid := rid }
  | .deleteRecord fd rid => some { wtype := .deleteTuple, fd := fd, rid := rid }
  | .updateRecord fd rid => some { wtype := .updateTuple, fd := fd, rid := rid }
  | .getRecord _ _ | .scan _ => none

/-- What `TransactionManager::abort` does to undo one entry.  A deleted record is inserted again,
    at whatever free slot `insert_record` finds (`newRid`). -/
def Write.undoActions (w : Write) (newRid : Rid) : List Action :=
  match w.wtype with
  | .insertTuple => getRecordActions w.fd w.rid ++ deleteRecordActions w.fd w.rid
  | .deleteTuple => insertRecordActions w.fd newRid
  | .updateTuple => getRecordActions w.fd w.rid ++ updateRecordActions w.fd w.rid

/-! ### The system -/

/-- How far a transaction is. -/
inductive Phase where
  /-- Running a statement; `[]` between statements. -/
  | running (todo : List Action)
  /-- A lock request has thrown; only `abort` is left. -/
  | failed
  /-- In the rollback loop of `abort`. -/
  | rollingBack (todo : List Action)
  /-- In the unlock loop of `commit` or `abort`. -/
  | releasing (left : Finset LockDataId) (commits : Bool)
  /-- `commit` or `abort` has returned. -/
  | ended
  /-- A lock request has thrown inside `abort`. -/
  | stuck

/-- A transaction and its client. -/
structure Client where
  txn : Transaction
  phase : Phase
  /-- The write set, newest first. -/
  writes : List Write

/-- The clients, the lock manager, `TransactionManager::latch_` and the history so far. -/
structure TxnSystem where
  mgr : LockManager
  clients : TxnId → Client
  latch : Option TxnId
  history : History TxnId FileAccess

/-- The start: nothing locked and no transaction has done anything. -/
def TxnSystem.start : TxnSystem where
  mgr := .empty
  clients t := { txn := .new t, phase := .running [], writes := [] }
  latch := none
  history := []

/-- Replace one client and the shared parts; `evs` is what happened. -/
def TxnSystem.put (s : TxnSystem) (t : TxnId) (c : Client) (mgr : LockManager)
    (latch : Option TxnId) (evs : History TxnId FileAccess) : TxnSystem where
  mgr := mgr
  clients t' := if t' = t then c else s.clients t'
  latch := latch
  history := s.history ++ evs

/-- What can happen next. -/
inductive TxnStep where
  /-- The client sends a statement. -/
  | statement (t : TxnId) (stmt : Statement)
  /-- The next action of the statement or of the rollback. -/
  | act (t : TxnId)
  /-- The statement fails with an `RMDBError`; the transaction goes on. -/
  | error (t : TxnId)
  /-- `TransactionManager::commit` takes the latch. -/
  | commit (t : TxnId)
  /-- `TransactionManager::abort` takes the latch. -/
  | abort (t : TxnId)
  /-- The rollback loop takes the last entry of the write set. -/
  | undo (t : TxnId) (newRid : Rid)
  /-- The rollback loop is done. -/
  | rolledBack (t : TxnId)
  /-- One `unlock`; the lock set is unordered. -/
  | unlock (t : TxnId) (id : LockDataId)
  /-- The unlock loop is done: log, set the state, return. -/
  | finish (t : TxnId)

/-- An action of a statement. -/
def TxnSystem.runAction (s : TxnSystem) (t : TxnId) (todo : List Action) : Action → TxnSystem
  | .lock call =>
    let c := s.clients t
    match call.run c.txn s.mgr with
    -- the executors ignore the boolean a lock function returns
    | (.ok _, txn, mgr) => s.put t { c with txn := txn, phase := .running todo } mgr s.latch []
    | (.error _, txn, mgr) => s.put t { c with txn := txn, phase := .failed } mgr s.latch []
  | .access a =>
    let c := s.clients t
    s.put t { c with phase := .running todo, writes := a.write?.toList ++ c.writes } s.mgr s.latch
      [.access t a]

/-- An action of the rollback loop. -/
def TxnSystem.undoAction (s : TxnSystem) (t : TxnId) (todo : List Action) : Action → TxnSystem
  | .lock call =>
    let c := s.clients t
    match call.run c.txn s.mgr with
    | (.ok _, txn, mgr) => s.put t { c with txn := txn, phase := .rollingBack todo } mgr s.latch []
    -- the exception leaves `abort`, and the scoped lock with it
    | (.error _, txn, mgr) => s.put t { c with txn := txn, phase := .stuck } mgr none []
  | .access a =>
    let c := s.clients t
    s.put t { c with phase := .rollingBack todo } s.mgr s.latch [.access t a]

/-- One step, where it is possible. -/
def TxnSystem.step (s : TxnSystem) : TxnStep → Option TxnSystem
  | .statement t stmt =>
    let c := s.clients t
    match c.phase with
    | .running [] => some (s.put t { c with phase := .running stmt.actions } s.mgr s.latch [])
    | _ => none
  | .act t =>
    match (s.clients t).phase with
    | .running (a :: todo) => some (s.runAction t todo a)
    | .rollingBack (a :: todo) => some (s.undoAction t todo a)
    | _ => none
  | .error t =>
    let c := s.clients t
    match c.phase with
    | .running _ => some (s.put t { c with phase := .running [] } s.mgr s.latch [])
    | _ => none
  | .commit t =>
    let c := s.clients t
    match c.phase, s.latch with
    | .running [], none =>
      some (s.put t { c with phase := .releasing c.txn.lockSet true } s.mgr (some t) [])
    | _, _ => none
  | .abort t =>
    let c := s.clients t
    match c.phase, s.latch with
    | .running [], none => some (s.put t { c with phase := .rollingBack [] } s.mgr (some t) [])
    | .failed, none => some (s.put t { c with phase := .rollingBack [] } s.mgr (some t) [])
    | _, _ => none
  | .undo t newRid =>
    let c := s.clients t
    match c.phase, c.writes with
    | .rollingBack [], w :: writes =>
      some (s.put t { c with phase := .rollingBack (w.undoActions newRid), writes := writes }
        s.mgr s.latch [])
    | _, _ => none
  | .rolledBack t =>
    let c := s.clients t
    match c.phase, c.writes with
    | .rollingBack [], [] =>
      some (s.put t { c with phase := .releasing c.txn.lockSet false } s.mgr s.latch [])
    | _, _ => none
  | .unlock t id =>
    let c := s.clients t
    match c.phase with
    | .releasing left commits =>
      if id ∈ left then
        let r := Rmdb.unlock c.txn id s.mgr
        some (s.put t { c with txn := r.2.1, phase := .releasing (left.erase id) commits } r.2.2
          s.latch [.release t])
      else none
    | _ => none
  | .finish t =>
    let c := s.clients t
    match c.phase with
    | .releasing left commits =>
      if left = ∅ then
        let state := if commits then TransactionState.committed else TransactionState.aborted
        some (s.put t { c with txn := { c.txn with lockSet := ∅, state := state }, phase := .ended }
          s.mgr none [if commits then .commit t else .abort t])
      else none
    | _ => none

/-- **The system.** -/
def txnSystem : TransitionSystem TxnSystem TxnStep where
  init s := s = .start
  step s a s' := s.step a = some s'

end Rmdb
