import Mathlib.Data.List.Basic
import Rmdb.Transaction.LockMode

namespace Rmdb

/-!
# The lock manager (`transaction/concurrency/lock_manager.{h,cpp}`)

The six lock functions share one frame: `check_lock`, find or create the request queue, look for a
request of the calling transaction, decide, and on success update the queue.  `lockOn` is that
frame; what differs between the functions is only the decision, which reads the queue and the
mode the transaction already holds.  Each function keeps its own decision, written as the source
writes it, so the cached group mode and the counts `ix_cnt`, `s_cnt` and `size()` are all here.

A throw of `TransactionAbortException` is the `Except.error` of the outcome.  The transaction and
the manager are returned beside it, since `check_lock` may have moved the transaction to `GROWING`
and the queue may have been created before the throw.
-/

/-- `class LockRequest`. -/
structure LockRequest where
  txnId : TxnId
  lockMode : LockMode
  granted : Bool
  deriving DecidableEq, Repr

/-- `class LockRequestQueue` (without the condition variable, unused under no-wait). -/
structure LockRequestQueue where
  requestQueue : List LockRequest
  groupLockMode : GroupLockMode
  deriving DecidableEq, Repr

/-- A freshly constructed queue. -/
def LockRequestQueue.empty : LockRequestQueue := { requestQueue := [], groupLockMode := .nonLock }

/-- The mode of the request `std::find_if` finds for a transaction. -/
def LockRequestQueue.modeOf (q : LockRequestQueue) (t : TxnId) : Option LockMode :=
  (q.requestQueue.find? (fun req => t = req.txnId)).map LockRequest.lockMode

/-- `txn_itr->lock_mode_ = mode`. -/
def LockRequestQueue.setMode (q : LockRequestQueue) (t : TxnId) (mode : LockMode) :
    List LockRequest :=
  q.requestQueue.replaceF
    (fun req => if t = req.txnId then some { req with lockMode := mode } else none)

/-- `std::count_if` of the requests of one mode. -/
def LockRequestQueue.countMode (q : LockRequestQueue) (mode : LockMode) : Nat :=
  q.requestQueue.countP (fun req => req.lockMode = mode)

/-- `class LockManager`: the global lock table. -/
structure LockManager where
  lockTable : LockDataId → Option LockRequestQueue

/-- A lock manager without queues. -/
def LockManager.empty : LockManager := { lockTable := fun _ => none }

/-- Store a queue in the lock table. -/
def LockManager.setQueue (m : LockManager) (id : LockDataId) (q : LockRequestQueue) :
    LockManager :=
  { lockTable := fun id' => if id' = id then some q else m.lockTable id' }

@[simp] theorem LockManager.setQueue_self (m : LockManager) (id : LockDataId)
    (q : LockRequestQueue) : (m.setQueue id q).lockTable id = some q := by
  simp [LockManager.setQueue]

theorem LockManager.setQueue_of_ne (m : LockManager) {id id' : LockDataId}
    (q : LockRequestQueue) (h : id' ≠ id) :
    (m.setQueue id q).lockTable id' = m.lockTable id' := by
  simp [LockManager.setQueue, h]

/-- What a lock function returns: the boolean, or the exception. -/
abbrev LockOutcome := Except TransactionAbortException Bool

/-- `LockManager::check_lock`. -/
def checkLock (txn : Transaction) : LockOutcome × Transaction :=
  match txn.state with
  | .aborted => (.ok false, txn)
  | .committed => (.ok false, txn)
  | .growing => (.ok true, txn)
  | .shrinking => (.error { txnId := txn.txnId, abortReason := .lockOnShirinking }, txn)
  | .default => (.ok true, { txn with state := .growing })

/-! ### The frame of the lock functions -/

/-- What a lock function does once it has found the queue. -/
inductive LockDecision where
  /-- The lock held is enough: `return true`. -/
  | holds
  /-- Raise the mode of the request found and set the group mode. -/
  | upgrade (mode : LockMode) (group : GroupLockMode)
  /-- Append a granted request, set the group mode and add the lock to the lock set. -/
  | grant (mode : LockMode) (group : GroupLockMode)
  /-- Throw with `DEADLOCK_PREVENTION`. -/
  | refuse
  deriving DecidableEq, Repr

/-- The frame shared by the six lock functions. -/
def lockOn (id : LockDataId) (decision : LockRequestQueue → Option LockMode → LockDecision)
    (txn : Transaction) (m : LockManager) : LockOutcome × Transaction × LockManager :=
  match checkLock txn with
  | (.ok true, txn) =>
    let q := (m.lockTable id).getD .empty
    match decision q (q.modeOf txn.txnId) with
    | .holds => (.ok true, txn, m.setQueue id q)
    | .upgrade mode group =>
      (.ok true, txn,
        m.setQueue id { requestQueue := q.setMode txn.txnId mode, groupLockMode := group })
    | .grant mode group =>
      (.ok true, { txn with lockSet := insert id txn.lockSet },
        m.setQueue id
          { requestQueue := q.requestQueue ++
              [{ txnId := txn.txnId, lockMode := mode, granted := true }]
            groupLockMode := group })
    | .refuse =>
      (.error { txnId := txn.txnId, abortReason := .deadlockPrevention }, txn, m.setQueue id q)
  | (out, txn) => (out, txn, m)

/-! ### The six decisions -/

/-- The body of `lock_shared_on_record`. -/
def sharedOnRecordDecision (q : LockRequestQueue) : Option LockMode → LockDecision
  -- any lock on the record is enough
  | some _ => .holds
  | none =>
    if q.groupLockMode ≠ .nonLock ∧ q.groupLockMode ≠ .s then .refuse
    else .grant .shared .s

/-- The body of `lock_exclusive_on_record`. -/
def exclusiveOnRecordDecision (q : LockRequestQueue) : Option LockMode → LockDecision
  | some own =>
    if own = .exclusive then .holds
    else if q.groupLockMode = .s ∧ q.requestQueue.length = 1 then .upgrade .exclusive .x
    else .refuse
  | none => if q.groupLockMode ≠ .nonLock then .refuse else .grant .exclusive .x

/-- The body of `lock_shared_on_table`. -/
def sharedOnTableDecision (q : LockRequestQueue) : Option LockMode → LockDecision
  | some own =>
    if own = .shared ∨ own = .sIx ∨ own = .exclusive then .holds
    else if own = .intentionShared then
      if q.groupLockMode ≠ .is ∧ q.groupLockMode ≠ .s then .refuse
      else .upgrade .shared .s
    -- the transaction holds `IX`: it may become `SIX` when it is the only one (`ix_cnt`)
    else if q.countMode .intentionExclusive ≠ 1 then .refuse
    else .upgrade .sIx .six
  | none =>
    if q.groupLockMode ≠ .nonLock ∧ q.groupLockMode ≠ .s ∧ q.groupLockMode ≠ .is then .refuse
    else .grant .shared .s

/-- The body of `lock_exclusive_on_table`. -/
def exclusiveOnTableDecision (q : LockRequestQueue) : Option LockMode → LockDecision
  | some own =>
    if own = .exclusive then .holds
    else if q.requestQueue.length ≠ 1 then .refuse
    else .upgrade .exclusive .x
  | none => if q.groupLockMode ≠ .nonLock then .refuse else .grant .exclusive .x

/-- The body of `lock_IS_on_table`. -/
def isOnTableDecision (q : LockRequestQueue) : Option LockMode → LockDecision
  | some _ => .holds
  | none =>
    if q.groupLockMode = .x then .refuse
    else .grant .intentionShared (if q.groupLockMode = .nonLock then .is else q.groupLockMode)

/-- The body of `lock_IX_on_table`. -/
def ixOnTableDecision (q : LockRequestQueue) : Option LockMode → LockDecision
  | some own =>
    if own = .intentionExclusive ∨ own = .sIx ∨ own = .exclusive then .holds
    else if own = .shared then
      -- `s_cnt`
      if q.countMode .shared ≠ 1 then .refuse else .upgrade .sIx .six
    else if q.groupLockMode ≠ .is ∧ q.groupLockMode ≠ .ix then .refuse
    else .upgrade .intentionExclusive .ix
  | none =>
    if q.groupLockMode ≠ .nonLock ∧ q.groupLockMode ≠ .is ∧ q.groupLockMode ≠ .ix then .refuse
    else .grant .intentionExclusive .ix

/-- `LockManager::lock_shared_on_record`. -/
def lockSharedOnRecord (txn : Transaction) (rid : Rid) (tabFd : Int) (m : LockManager) :
    LockOutcome × Transaction × LockManager :=
  lockOn (.ofRecord tabFd rid) sharedOnRecordDecision txn m

/-- `LockManager::lock_exclusive_on_record`. -/
def lockExclusiveOnRecord (txn : Transaction) (rid : Rid) (tabFd : Int) (m : LockManager) :
    LockOutcome × Transaction × LockManager :=
  lockOn (.ofRecord tabFd rid) exclusiveOnRecordDecision txn m

/-- `LockManager::lock_shared_on_table`. -/
def lockSharedOnTable (txn : Transaction) (tabFd : Int) (m : LockManager) :
    LockOutcome × Transaction × LockManager :=
  lockOn (.ofTable tabFd) sharedOnTableDecision txn m

/-- `LockManager::lock_exclusive_on_table`. -/
def lockExclusiveOnTable (txn : Transaction) (tabFd : Int) (m : LockManager) :
    LockOutcome × Transaction × LockManager :=
  lockOn (.ofTable tabFd) exclusiveOnTableDecision txn m

/-- `LockManager::lock_IS_on_table`. -/
def lockIsOnTable (txn : Transaction) (tabFd : Int) (m : LockManager) :
    LockOutcome × Transaction × LockManager :=
  lockOn (.ofTable tabFd) isOnTableDecision txn m

/-- `LockManager::lock_IX_on_table`. -/
def lockIxOnTable (txn : Transaction) (tabFd : Int) (m : LockManager) :
    LockOutcome × Transaction × LockManager :=
  lockOn (.ofTable tabFd) ixOnTableDecision txn m

/-! ### `unlock` -/

/-- The group mode `unlock` recomputes from the requests that are left. -/
def regroup (reqs : List LockRequest) : GroupLockMode :=
  let lockmodeCnt (mode : LockMode) : Nat := reqs.countP (fun req => req.lockMode = mode)
  if lockmodeCnt .exclusive ≠ 0 then .x
  else if lockmodeCnt .sIx ≠ 0 then .six
  else if lockmodeCnt .intentionExclusive ≠ 0 then .ix
  else if lockmodeCnt .shared ≠ 0 then .s
  else if lockmodeCnt .intentionShared ≠ 0 then .is
  else .nonLock

/-- The queue `unlock` leaves: the request found is erased and the group mode recomputed. -/
def LockRequestQueue.release (q : LockRequestQueue) (t : TxnId) : LockRequestQueue :=
  let reqs := q.requestQueue.eraseP (fun req => t = req.txnId)
  { requestQueue := reqs, groupLockMode := regroup reqs }

/-- `LockManager::unlock`. -/
def unlock (txn : Transaction) (id : LockDataId) (m : LockManager) :
    Bool × Transaction × LockManager :=
  match txn.state with
  | .aborted => (false, txn, m)
  | .committed => (false, txn, m)
  | state =>
    let txn := if state = .growing then { txn with state := .shrinking } else txn
    match m.lockTable id with
    | none => (true, txn, m)
    | some q => (true, txn, m.setQueue id (q.release txn.txnId))

/-! ### The calls as data -/

/-- A call of one of the six lock functions. -/
inductive LockCall where
  | sharedOnRecord (rid : Rid) (tabFd : Int)
  | exclusiveOnRecord (rid : Rid) (tabFd : Int)
  | sharedOnTable (tabFd : Int)
  | exclusiveOnTable (tabFd : Int)
  | isOnTable (tabFd : Int)
  | ixOnTable (tabFd : Int)
  deriving DecidableEq, Repr

/-- What the call locks. -/
def LockCall.id : LockCall → LockDataId
  | .sharedOnRecord rid fd => .ofRecord fd rid
  | .exclusiveOnRecord rid fd => .ofRecord fd rid
  | .sharedOnTable fd => .ofTable fd
  | .exclusiveOnTable fd => .ofTable fd
  | .isOnTable fd => .ofTable fd
  | .ixOnTable fd => .ofTable fd

/-- The mode the call asks for. -/
def LockCall.mode : LockCall → LockMode
  | .sharedOnRecord _ _ => .shared
  | .exclusiveOnRecord _ _ => .exclusive
  | .sharedOnTable _ => .shared
  | .exclusiveOnTable _ => .exclusive
  | .isOnTable _ => .intentionShared
  | .ixOnTable _ => .intentionExclusive

/-- Run the call. -/
def LockCall.run (c : LockCall) (txn : Transaction) (m : LockManager) :
    LockOutcome × Transaction × LockManager :=
  match c with
  | .sharedOnRecord rid fd => lockSharedOnRecord txn rid fd m
  | .exclusiveOnRecord rid fd => lockExclusiveOnRecord txn rid fd m
  | .sharedOnTable fd => lockSharedOnTable txn fd m
  | .exclusiveOnTable fd => lockExclusiveOnTable txn fd m
  | .isOnTable fd => lockIsOnTable txn fd m
  | .ixOnTable fd => lockIxOnTable txn fd m

end Rmdb
