import Mathlib.Logic.Function.Basic
import Rmdb.Lib.Transition
import Rmdb.Recovery.LogManager
import Rmdb.Transaction.LockManager

namespace Rmdb

open Lib

/-!
# The server (`rmdb.cpp`, `execution_manager.cpp`, `transaction_manager.cpp`)

One thread runs `client_handler` for each client.  The threads share the lock manager, the log, the
transaction table and `TransactionManager::latch_`, and run interleaved:

* `Thread.step` — what a thread does between `SetTransaction` and the next `read`: the executor's
  calls, `TransactionManager::commit` and `abort` one `unlock` at a time, the reply, and the commit
  at the end of the loop;
* `Server.step` — a thread reads a request, is hung up on, or goes on;
* `server` — every interleaving of any number of sessions.

A statement is what its executors ask of the transaction, the lock manager and the log, in order;
an `RMDBError` may end it anywhere, and the rollback too.  Any list will do here, so every statement of
the grammar is covered.  The mutex around the parser, the texts sent to the client and `output.txt` are left out.
-/

/-- `INVALID_TXN_ID`. -/
def invalidTxnId : TxnId := -1

/-- What an executor does to its transaction, the lock manager and the log. -/
inductive ExecAction where
  | lock (c : LockCall)
  | log (change : LoggedChange)
  /-- `Transaction::append_write_record`. -/
  | write (w : WriteRecord)
  deriving DecidableEq, Repr

/-- What the client has sent. -/
inductive Request where
  /-- `yyparse` fails or throws: straight to `CONTINUE`. -/
  | syntaxError
  | begin
  | commit
  | abort
  | rollback
  | statement (todo : List ExecAction)
  deriving DecidableEq, Repr

/-- Who has called `TransactionManager::commit` or `abort`. -/
inductive Caller where
  /-- `run_cmd_utility`. -/
  | command
  /-- The handler of `TransactionAbortException`. -/
  | handler
  /-- The end of the loop, in a transaction that is not explicit. -/
  | autocommit
  deriving DecidableEq, Repr

/-- Where a thread stands. -/
inductive Pc where
  /-- At `read`. -/
  | reading
  | executing (todo : List ExecAction)
  /-- About to take the latch in `commit` or `abort`. -/
  | ending (commits : Bool) (caller : Caller)
  /-- In the rollback loop of `abort`: at its head, or with lock calls to make for an entry. -/
  | rollingBack (caller : Caller) (todo : Option (List LockCall))
  /-- In the unlock loop of `commit` or `abort`. -/
  | releasing (commits : Bool) (caller : Caller) (left : Finset LockDataId)
  /-- At `write`. -/
  | replying
  /-- The loop has ended. -/
  | closed
  deriving DecidableEq

/-! ### Between `SetTransaction` and the next `read` -/

/-- What a thread works on: its transaction and what all threads share. -/
structure Thread where
  pc : Pc
  txn : Transaction
  latch : Option ℕ
  lockMgr : LockManager
  logMgr : LogManager
  /-- The process is running. -/
  alive : Bool

/-- Append a record to the log for a transaction: `prev_lsn_`, `add_log_to_buffer`,
    `set_prev_lsn`. -/
def appendLog (txn : Transaction) (logMgr : LogManager) (body : LogBody) :
    Transaction × LogManager :=
  let r := logMgr.addLogToBuffer (.new txn.txnId txn.prevLsn body)
  ({ txn with prevLsn := r.1 }, r.2)

/-- The locks `abort` takes to undo an entry of the write set.  The file is found by the table's
    name; a deleted record goes to the free slot that `insert_record` finds. -/
def WriteRecord.undoCalls (w : WriteRecord) (fd : Int) (newRid : Rid) : List LockCall :=
  match w.wtype with
  | .insertTuple => [.sharedOnRecord w.rid fd, .exclusiveOnRecord w.rid fd]
  | .deleteTuple => [.exclusiveOnRecord newRid fd]
  | .updateTuple => [.sharedOnRecord w.rid fd, .exclusiveOnRecord w.rid fd]

/-- What a thread does next. -/
inductive ThreadStep where
  /-- The next thing the statement or the rollback does. -/
  | act
  /-- The statement or the rollback fails with an `RMDBError`. -/
  | error
  /-- `commit` or `abort` takes the latch. -/
  | latch
  /-- The rollback loop looks at the last entry of the write set. -/
  | undo (fd : Int) (newRid : Rid)
  /-- The rollback loop is done. -/
  | rolledBack
  /-- One turn of the unlock loop. -/
  | unlock (id : LockDataId)
  /-- The rest of `commit` or `abort`. -/
  | finish
  /-- `write` of the reply, and whether it succeeds. -/
  | reply (sent : Bool)
  deriving DecidableEq, Repr

/-- Act on a request (`run_cmd_utility` for the transaction commands). -/
def Thread.dispatch (th : Thread) : Request → Thread
  | .syntaxError => { th with pc := .replying }
  | .begin => { th with pc := .replying, txn := { th.txn with txnMode := true } }
  | .commit => { th with pc := .ending true .command }
  | .abort => { th with pc := .ending false .command }
  | .rollback => { th with pc := .ending false .command }
  | .statement todo => { th with pc := .executing todo }

/-- One call of an executor. -/
def Thread.exec (th : Thread) (todo : List ExecAction) : ExecAction → Thread
  | .lock c =>
    match c.run th.txn th.lockMgr with
    -- the boolean is ignored
    | (.ok _, txn, mgr) => { th with pc := .executing todo, txn := txn, lockMgr := mgr }
    | (.error _, txn, mgr) => { th with pc := .ending false .handler, txn := txn, lockMgr := mgr }
  | .log change =>
    let r := appendLog th.txn th.logMgr (.change change)
    { th with pc := .executing todo, txn := r.1, logMgr := r.2 }
  | .write w =>
    { th with
      pc := .executing todo
      txn := { th.txn with writeSet := th.txn.writeSet ++ [w] } }

/-- One lock of the rollback. -/
def Thread.undoLock (th : Thread) (caller : Caller) (todo : List LockCall) (c : LockCall) :
    Thread :=
  match c.run th.txn th.lockMgr with
  | (.ok _, txn, mgr) =>
    { th with pc := .rollingBack caller (some todo), txn := txn, lockMgr := mgr }
  | (.error _, txn, mgr) =>
    -- the exception leaves `abort`: it is caught below `portal->run`, but not inside the handler
    match caller with
    | .command => { th with pc := .ending false .handler, txn := txn, lockMgr := mgr, latch := none }
    | _ => { th with txn := txn, lockMgr := mgr, latch := none, alive := false }

/-- An `RMDBError` leaves the rollback loop of `abort`, as where the table of an entry has been dropped.  It
    is reported like that of a statement below `portal->run`, but nothing catches it inside the handler. -/
def Thread.leaveRollback (th : Thread) : Caller → Thread
  | .command => { th with pc := .replying, latch := none }
  | _ => { th with latch := none, alive := false }

/-- The rest of `commit` or `abort`: the lock set, the log record and the state.  `commit` only
    resets a copy of the pointer to its lock set, `abort` clears the set. -/
def Thread.finish (th : Thread) (commits : Bool) (caller : Caller) : Thread :=
  let txn := if commits then th.txn else { th.txn with lockSet := ∅, writeSet := [] }
  let r := appendLog txn th.logMgr (if commits then .commit else .abort)
  { th with
    pc := if caller = .autocommit then .reading else .replying
    txn := { r.1 with state := if commits then .committed else .aborted }
    logMgr := r.2
    latch := none }

/-- One step of thread `i`, where it is possible. -/
def Thread.step (i : ℕ) (th : Thread) : ThreadStep → Option Thread
  | .act =>
    match th.pc with
    | .executing [] => some { th with pc := .replying }
    | .executing (a :: todo) => some (th.exec todo a)
    | .rollingBack caller (some (c :: todo)) => some (th.undoLock caller todo c)
    | .rollingBack caller (some []) =>
      some { th with
        pc := .rollingBack caller none
        txn := { th.txn with writeSet := th.txn.writeSet.dropLast } }
    | _ => none
  | .error =>
    match th.pc with
    | .executing _ => some { th with pc := .replying }
    | .rollingBack caller _ => some (th.leaveRollback caller)
    | _ => none
  | .latch =>
    match th.pc, th.latch with
    | .ending true caller, none =>
      some { th with
        pc := .releasing true caller th.txn.lockSet
        txn := { th.txn with writeSet := [] }
        latch := some i }
    | .ending false caller, none => some { th with pc := .rollingBack caller none, latch := some i }
    | _, _ => none
  | .undo fd newRid =>
    match th.pc, th.txn.writeSet.getLast? with
    | .rollingBack caller none, some w =>
      some { th with pc := .rollingBack caller (some (w.undoCalls fd newRid)) }
    | _, _ => none
  | .rolledBack =>
    match th.pc, th.txn.writeSet with
    | .rollingBack caller none, [] => some { th with pc := .releasing false caller th.txn.lockSet }
    | _, _ => none
  | .unlock id =>
    match th.pc with
    | .releasing commits caller left =>
      if id ∈ left then
        let r := Rmdb.unlock th.txn id th.lockMgr
        some { th with
          pc := .releasing commits caller (left.erase id)
          txn := r.2.1
          lockMgr := r.2.2 }
      else none
    | _ => none
  | .finish =>
    match th.pc with
    | .releasing commits caller left => if left = ∅ then some (th.finish commits caller) else none
    | _ => none
  | .reply sent =>
    match th.pc with
    | .replying =>
      if sent = false then some { th with pc := .closed }
      else if th.txn.txnMode = false then some { th with pc := .ending true .autocommit }
      else some { th with pc := .reading }
    | _ => none

/-! ### The sessions -/

/-- The variables of one `client_handler`. -/
structure Session where
  /-- `txn_id`. -/
  txnId : TxnId
  pc : Pc

/-- The server: its sessions, `txn_map` with the thread that has made each transaction
    (`thread_id_`), and the managers. -/
structure Server where
  sessions : ℕ → Session
  txnMap : TxnId → Option Transaction
  threadId : TxnId → Option ℕ
  nextTxnId : TxnId
  latch : Option ℕ
  lockMgr : LockManager
  logMgr : LogManager
  alive : Bool

/-- The server after `main` has started it; a session that has not connected yet is one that has
    sent nothing. -/
def Server.start : Server where
  sessions _ := { txnId := invalidTxnId, pc := .reading }
  txnMap _ := none
  threadId _ := none
  nextTxnId := 0
  latch := none
  lockMgr := .empty
  logMgr := .new
  alive := true

/-- `TransactionManager::get_transaction` of the session's `txn_id`. -/
def Server.txn (s : Server) (i : ℕ) : Option Transaction :=
  if (s.sessions i).txnId = invalidTxnId then none else s.txnMap (s.sessions i).txnId

/-- `TransactionManager::begin(nullptr, …)` for session `i`, which keeps the new number. -/
def Server.begin (s : Server) (i : ℕ) : Server :=
  let id := s.nextTxnId
  let r := appendLog (.new id) s.logMgr .begin
  { s with
    sessions := Function.update s.sessions i { s.sessions i with txnId := id }
    txnMap := Function.update s.txnMap id (some r.1)
    threadId := Function.update s.threadId id (some i)
    nextTxnId := id + 1
    logMgr := r.2 }

/-- `SetTransaction`. -/
def Server.setTransaction (s : Server) (i : ℕ) : Server :=
  match s.txn i with
  | none => s.begin i
  | some txn =>
    if txn.state = .committed ∨ txn.state = .aborted then s.begin i else s

/-- What thread `i` works on. -/
def Server.thread (s : Server) (i : ℕ) : Option Thread :=
  (s.txn i).map fun txn =>
    { pc := (s.sessions i).pc, txn := txn, latch := s.latch, lockMgr := s.lockMgr,
      logMgr := s.logMgr, alive := s.alive }

/-- Write back what thread `i` has done. -/
def Server.put (s : Server) (i : ℕ) (th : Thread) : Server :=
  { s with
    sessions := Function.update s.sessions i { s.sessions i with pc := th.pc }
    txnMap := Function.update s.txnMap (s.sessions i).txnId (some th.txn)
    latch := th.latch
    lockMgr := th.lockMgr
    logMgr := th.logMgr
    alive := th.alive }

/-- How a session ends at `read`. -/
inductive HangUp where
  /-- `read` returns `0`. -/
  | closedSocket
  /-- `read` returns `-1`. -/
  | readError
  /-- The client has sent `exit`. -/
  | exit
  deriving DecidableEq, Repr

/-- What can happen next. -/
inductive ServerStep where
  | receive (i : ℕ) (req : Request)
  | hangUp (i : ℕ) (how : HangUp)
  /-- The client has sent `crash`. -/
  | crash (i : ℕ)
  | run (i : ℕ) (a : ThreadStep)

/-- One step, where it is possible. -/
def Server.step (s : Server) (a : ServerStep) : Option Server :=
  if s.alive = false then none else
  match a with
  | .receive i req =>
    match (s.sessions i).pc, s.latch with
    -- `get_transaction` and `begin` take the latch
    | .reading, none =>
      let s := s.setTransaction i
      (s.thread i).map fun th => s.put i (th.dispatch req)
    | _, _ => none
  | .hangUp i _ =>
    match (s.sessions i).pc with
    | .reading =>
      some { s with sessions := Function.update s.sessions i { s.sessions i with pc := .closed } }
    | _ => none
  | .crash i =>
    match (s.sessions i).pc with
    | .reading => some { s with alive := false }
    | _ => none
  | .run i a => (s.thread i).bind fun th => (th.step i a).map (s.put i)

/-- **The server.** -/
def server : TransitionSystem Server ServerStep where
  init s := s = .start
  step s a s' := s.step a = some s'

end Rmdb
