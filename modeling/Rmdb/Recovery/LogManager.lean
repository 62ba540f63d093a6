import Mathlib.Algebra.Order.Ring.Int
import Rmdb.Defs

namespace Rmdb

/-!
# The log (`recovery/log_manager.{h,cpp}`, `recovery/log_defs.h`)

The log records of the six types and the log manager.  A record's header is the same for all of
them; what the type adds is `LogBody`.  `LogManager::add_log_to_buffer` gives the record its number,
copies it into the buffer and writes the buffer to the log file before it returns, so the log file
of a `LogManager` is complete after every call (`LogManager.addLogToBuffer_file`).

The log file is a list of records, in order, without what an earlier process may have left in it;
the bytes of the records are left out.
-/

/-- A change of a record, as the executors log it (`InsertLogRecord`, `DeleteLogRecord`,
    `UpdateLogRecord`). -/
inductive LoggedChange where
  | insert (insertValue : List UInt8) (rid : Rid) (tableName : String)
  | delete (deleteValue : List UInt8) (rid : Rid) (tableName : String)
  | update (beforeValue afterValue : List UInt8) (rid : Rid) (tableName : String)
  deriving DecidableEq, Repr

/-- What the type of a log record adds to its header. -/
inductive LogBody where
  | begin
  | commit
  | abort
  | change (c : LoggedChange)
  deriving DecidableEq, Repr

/-- `class LogRecord` and its subclasses. -/
structure LogRecord where
  lsn : Lsn
  logTid : TxnId
  prevLsn : Lsn
  body : LogBody
  deriving DecidableEq, Repr

/-- `BeginLogRecord(txn_id)`, `CommitLogRecord(txn_id)`, …: the number is given later. -/
def LogRecord.new (txnId : TxnId) (prevLsn : Lsn) (body : LogBody) : LogRecord :=
  { lsn := invalidLsn, logTid := txnId, prevLsn := prevLsn, body := body }

/-- `LOG_HEADER_SIZE`: type, number, length, transaction and previous number, four bytes each. -/
def logHeaderSize : Nat := 20

/-- The length of what follows the header, as the constructors add it up: four bytes for the length
    of a value, eight for a `Rid` and eight for the length of the table name. -/
def LogBody.len : LogBody → Nat
  | .begin | .commit | .abort => 0
  | .change (.insert value _ tab) | .change (.delete value _ tab) =>
    4 + value.length + 8 + 8 + tab.utf8ByteSize
  | .change (.update before after _ tab) =>
    4 + before.length + (4 + after.length) + 8 + 8 + tab.utf8ByteSize

/-- `log_tot_len_`. -/
def LogRecord.totLen (r : LogRecord) : Nat := logHeaderSize + r.body.len

/-- `LOG_BUFFER_SIZE`. -/
def logBufferSize : Nat := 1024 * pageSize

/-- `class LogManager`, with what it has written to the log file. -/
structure LogManager where
  globalLsn : Lsn
  /-- The records in `log_buffer_`. -/
  buffer : List LogRecord
  /-- The records it has appended to the log file. -/
  file : List LogRecord

/-- A new log manager. -/
def LogManager.new : LogManager := { globalLsn := 0, buffer := [], file := [] }

/-- `LogBuffer::is_full`. -/
def LogManager.isFull (lm : LogManager) (appendSize : Nat) : Bool :=
  (lm.buffer.map LogRecord.totLen).sum + appendSize > logBufferSize

/-- `LogManager::flush_log_to_disk`: `write_log` of the buffer, which is then empty. -/
def LogManager.flushLogToDisk (lm : LogManager) : LogManager :=
  { lm with buffer := [], file := lm.file ++ lm.buffer }

/-- `LogManager::add_log_to_buffer`: the number given to the record, and the manager. -/
def LogManager.addLogToBuffer (lm : LogManager) (record : LogRecord) : Lsn × LogManager :=
  let lm := if lm.isFull record.totLen then lm.flushLogToDisk else lm
  let record := { record with lsn := lm.globalLsn }
  let lm := { lm with globalLsn := lm.globalLsn + 1, buffer := lm.buffer ++ [record] }
  -- the record goes to disk at once
  (record.lsn, lm.flushLogToDisk)

/-- **The log file is complete.** Whatever was in the buffer, after `add_log_to_buffer` the file
    ends with it and with the new record, numbered in the order of the calls. -/
theorem LogManager.addLogToBuffer_file (lm : LogManager) (record : LogRecord) :
    (lm.addLogToBuffer record).2.file =
      lm.file ++ lm.buffer ++ [{ record with lsn := lm.globalLsn }] ∧
    (lm.addLogToBuffer record).2.buffer = [] ∧
    (lm.addLogToBuffer record).2.globalLsn = lm.globalLsn + 1 := by
  unfold LogManager.addLogToBuffer
  by_cases h : lm.isFull record.totLen = true
  · simp [h, LogManager.flushLogToDisk]
  · simp [h, LogManager.flushLogToDisk]

/-- The number a record is given. -/
theorem LogManager.addLogToBuffer_number (lm : LogManager) (record : LogRecord) :
    (lm.addLogToBuffer record).1 = lm.globalLsn := by
  unfold LogManager.addLogToBuffer
  by_cases h : lm.isFull record.totLen = true
  · simp [h, LogManager.flushLogToDisk]
  · simp [h]

end Rmdb
