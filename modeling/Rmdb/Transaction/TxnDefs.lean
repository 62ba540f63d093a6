import Mathlib.Data.Finset.Basic
import Rmdb.Defs

namespace Rmdb

/-!
# Transactions (`transaction/txn_defs.h`, `transaction/transaction.h`)

The states of a transaction, the identifiers it can lock, its write records and the transaction
object itself.  Of the object's fields we keep those that some modelled function reads: the
isolation level, the thread id, the timestamps and the two index page sets are left out.
-/

/-- `enum class TransactionState`. -/
inductive TransactionState where
  | default
  | growing
  | shrinking
  | committed
  | aborted
  deriving DecidableEq, Repr

/-- `enum class WType`. -/
inductive WType where
  | insertTuple
  | deleteTuple
  | updateTuple
  deriving DecidableEq, Repr

/-- `class WriteRecord`: the write an abort has to undo.  `record` is the old value of the
    tuple; the constructor for inserts leaves it empty. -/
structure WriteRecord where
  wtype : WType
  tabName : String
  rid : Rid
  record : List UInt8
  deriving DecidableEq, Repr

/-- `enum class LockDataType`. -/
inductive LockDataType where
  | table
  | record
  deriving DecidableEq, Repr

/-- `class LockDataId`: what a lock is taken on.  Equality is the source's `operator==`
    (type, file descriptor and rid). -/
structure LockDataId where
  fd : Int
  rid : Rid
  type : LockDataType
  deriving DecidableEq, Repr

/-- `LockDataId(fd, LockDataType::TABLE)`. -/
def LockDataId.ofTable (fd : Int) : LockDataId :=
  { fd := fd, rid := { pageNo := -1, slotNo := -1 }, type := .table }

/-- `LockDataId(fd, rid, LockDataType::RECORD)`. -/
def LockDataId.ofRecord (fd : Int) (rid : Rid) : LockDataId :=
  { fd := fd, rid := rid, type := .record }

/-- `enum class AbortReason`. -/
inductive AbortReason where
  | lockOnShirinking
  | upgradeConflict
  | deadlockPrevention
  deriving DecidableEq, Repr

/-- `class TransactionAbortException`. -/
structure TransactionAbortException where
  txnId : TxnId
  abortReason : AbortReason
  deriving DecidableEq, Repr

/-- `class Transaction`. -/
structure Transaction where
  txnMode : Bool
  state : TransactionState
  prevLsn : Lsn
  txnId : TxnId
  writeSet : List WriteRecord
  lockSet : Finset LockDataId

/-- `Transaction(txn_id)`. -/
def Transaction.new (txnId : TxnId) : Transaction where
  txnMode := false
  state := .default
  prevLsn := invalidLsn
  txnId := txnId
  writeSet := []
  lockSet := ∅

end Rmdb
