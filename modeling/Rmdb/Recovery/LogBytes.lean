import Rmdb.Execution.KeyRange
import Rmdb.Lib.ByteReader
import Rmdb.Lib.Bytes
import Rmdb.Recovery.LogManager

namespace Rmdb

open Lib

/-!
# The bytes of a log record (`recovery/log_manager.h`)

`serialize` writes a record field by field, and `deserialize` reads it back from the buffer.

* `LogRecord.serialize` — the bytes, `log_tot_len_` of them;
* `LogRecord.deserialize` — the reader, behind the type that `analyze` has looked at;
* `deserialize_serialize` — what is read is what was written.
-/

/-- What can go wrong in `RecoveryManager`. -/
inductive RecoveryError where
  /-- The program reads, or writes, outside of the buffer. -/
  | outside
  /-- The loop goes on for ever. -/
  | loops
  /-- `std::bad_array_new_length`. -/
  | badArrayNewLength
  /-- `std::length_error` of the constructor of `vector`. -/
  | lengthError
  /-- `std::out_of_range` of `fhs_.at`. -/
  | outOfRange
  /-- A page cannot be read. -/
  | page
  deriving DecidableEq, Repr

/-- `rid_`. -/
def LoggedChange.rid : LoggedChange → Rid
  | .insert _ rid _ => rid
  | .delete _ rid _ => rid
  | .update _ _ rid _ => rid

/-- `table_name_`. -/
def LoggedChange.tableName : LoggedChange → String
  | .insert _ _ tab => tab
  | .delete _ _ tab => tab
  | .update _ _ _ tab => tab

/-! ### Writing -/

/-- The bytes of an `int`. -/
def int32Le (n : Int) : List UInt8 := leBytes (n % 2 ^ 32).toNat 4

/-- `enum LogType`. -/
def LogBody.type : LogBody → Int
  | .change (.update ..) => 0
  | .change (.insert ..) => 1
  | .change (.delete ..) => 2
  | .begin => 3
  | .commit => 4
  | .abort => 5

/-- The bytes of a `Rid`. -/
def Rid.serialize (rid : Rid) : List UInt8 := int32Le rid.pageNo ++ int32Le rid.slotNo

/-- The size of a value and the value, as `RmRecord::Deserialize` expects it. -/
def serializeRecord (data : List UInt8) : List UInt8 := int32Le data.length ++ data

/-- `table_name_size_` and `table_name_`. -/
def serializeName (tab : String) : List UInt8 := leBytes tab.utf8ByteSize 8 ++ tab.toUTF8.data.toList

/-- What `serialize` writes behind the header. -/
def LogBody.serialize : LogBody → List UInt8
  | .begin | .commit | .abort => []
  | .change (.insert value rid tab) | .change (.delete value rid tab) =>
    serializeRecord value ++ (rid.serialize ++ serializeName tab)
  | .change (.update before after rid tab) =>
    serializeRecord before ++ (serializeRecord after ++ (rid.serialize ++ serializeName tab))

/-- `LogRecord::serialize`. -/
def LogRecord.serialize (r : LogRecord) : List UInt8 :=
  int32Le r.body.type ++ (int32Le r.lsn ++ (leBytes r.totLen 4 ++ (int32Le r.logTid ++
    (int32Le r.prevLsn ++ r.body.serialize))))

/-! ### Reading -/

/-- An `int`. -/
def readInt32 : ByteReader RecoveryError Int := do
  let bs ← readBytes .outside 4
  return signed 32 (ofLeBytes bs)

/-- An unsigned number of `n` bytes. -/
def readUnsigned (n : Nat) : ByteReader RecoveryError Nat := do
  let bs ← readBytes .outside n
  return ofLeBytes bs

/-- `RmRecord::Deserialize`. -/
def readRecord : ByteReader RecoveryError (List UInt8) := do
  let size ← readInt32
  if size < 0 then throw .badArrayNewLength
  readBytes .outside size.toNat

def readRid : ByteReader RecoveryError Rid := do
  let pageNo ← readInt32
  let slotNo ← readInt32
  return ⟨pageNo, slotNo⟩

/-- The name of the table; bytes that are no text are the name of no table. -/
def readName : ByteReader RecoveryError String := do
  let size ← readUnsigned 8
  let bs ← readBytes .outside size
  match String.fromUTF8? ⟨bs.toArray⟩ with
  | some tab => return tab
  | none => throw .outOfRange

/-- What `deserialize` reads behind the header; the loop of `analyze` does nothing for another type, and
so for ever. -/
def readBody (type : Int) : ByteReader RecoveryError LogBody :=
  if type = 3 then return .begin
  else if type = 4 then return .commit
  else if type = 5 then return .abort
  else if type = 1 then do
    let value ← readRecord
    let rid ← readRid
    return .change (.insert value rid (← readName))
  else if type = 2 then do
    let value ← readRecord
    let rid ← readRid
    return .change (.delete value rid (← readName))
  else if type = 0 then do
    let before ← readRecord
    let after ← readRecord
    let rid ← readRid
    return .change (.update before after rid (← readName))
  else throw .loops

/-- `deserialize`: the record, and its `log_tot_len_`. -/
def LogRecord.deserialize : ByteReader RecoveryError (LogRecord × Nat) := do
  let type ← readInt32
  let lsn ← readInt32
  let logTotLen ← readUnsigned 4
  let logTid ← readInt32
  let prevLsn ← readInt32
  let body ← readBody type
  return ({ lsn := lsn, logTid := logTid, prevLsn := prevLsn, body := body }, logTotLen)

/-! ### What is read is what was written -/

/-- The numbers of a record are `int`s. -/
structure LogRecord.Typed (r : LogRecord) : Prop where
  lsn : Int32Range r.lsn
  logTid : Int32Range r.logTid
  prevLsn : Int32Range r.prevLsn
  rid : ∀ c, r.body = .change c → Int32Range c.rid.pageNo ∧ Int32Range c.rid.slotNo

/-- An `int` takes four bytes. -/
@[simp]
theorem length_int32Le (n : Int) : (int32Le n).length = 4 := length_leBytes _ _

/-- A name has its length in front. -/
theorem length_serializeName (tab : String) : (serializeName tab).length = 8 + tab.utf8ByteSize := by
  unfold serializeName
  rw [List.length_append, length_leBytes]
  rfl

/-- The length of a body. -/
theorem LogBody.length_serialize (b : LogBody) : b.serialize.length = b.len := by
  unfold LogBody.serialize LogBody.len
  split <;>
    simp only [List.length_nil, List.length_append, serializeRecord, Rid.serialize, length_int32Le,
      length_serializeName] <;>
    omega

/-- **A record has `log_tot_len_` bytes.** -/
theorem LogRecord.length_serialize (r : LogRecord) : r.serialize.length = r.totLen := by
  unfold LogRecord.serialize LogRecord.totLen logHeaderSize
  simp only [List.length_append, length_int32Le, length_leBytes, LogBody.length_serialize]
  omega

/-- An `int` is read back. -/
theorem gets_readInt32 {n : Int} (h : Int32Range n) : readInt32.Gets (int32Le n) n := by
  obtain ⟨hlo, hhi⟩ := h
  refine (gets_readBytes _ (length_int32Le n)).result ?_
  have hlt : (n % 2 ^ 32).toNat < 2 ^ 32 := by omega
  have hval : signed 32 (ofLeBytes (int32Le n)) = n := by
    unfold int32Le
    rw [ofLeBytes_leBytes, signed_eq_bmod (by decide),
      show (256 : Nat) ^ 4 = 2 ^ 32 by norm_num, Nat.mod_eq_of_lt hlt, Int.bmod_eq_iff (by decide)]
    refine ⟨by omega, by omega, ?_⟩
    rw [Int.toNat_of_nonneg (Int.emod_nonneg _ (by decide))]
    omega
  rw [hval]

/-- An unsigned number is read back. -/
theorem gets_readUnsigned {n len : Nat} (h : n < 256 ^ len) : (readUnsigned len).Gets (leBytes n len) n := by
  refine (gets_readBytes _ (length_leBytes n len)).result ?_
  rw [ofLeBytes_leBytes, Nat.mod_eq_of_lt h]

/-- A record is read back. -/
theorem gets_readRecord {data : List UInt8} (h : data.length < 2 ^ 31) :
    readRecord.Gets (serializeRecord data) data := by
  have hsize : readInt32.Gets (int32Le data.length) (data.length : Int) :=
    gets_readInt32 ⟨by omega, by omega⟩
  refine hsize.bind ?_
  dsimp only
  rw [if_neg (by omega)]
  exact gets_readBytes _ rfl

/-- A record number is read back. -/
theorem gets_readRid {rid : Rid} (h : Int32Range rid.pageNo ∧ Int32Range rid.slotNo) :
    readRid.Gets rid.serialize rid :=
  (gets_readInt32 h.1).bind ((gets_readInt32 h.2).result rfl)

/-- A name is read back. -/
theorem gets_readName {tab : String} (h : tab.utf8ByteSize < 2 ^ 64) :
    readName.Gets (serializeName tab) tab := by
  have hsize : (readUnsigned 8).Gets (leBytes tab.utf8ByteSize 8) tab.utf8ByteSize :=
    gets_readUnsigned (by rw [show (256 : Nat) ^ 8 = 2 ^ 64 by norm_num]; exact h)
  refine hsize.bind ((gets_readBytes _ rfl).result ?_)
  have hname : String.fromUTF8? ⟨tab.toUTF8.data.toList.toArray⟩ = some tab := dif_pos tab.isValidUTF8
  show (match String.fromUTF8? ⟨tab.toUTF8.data.toList.toArray⟩ with
    | some tab => pure tab
    | none => throw RecoveryError.outOfRange) = (pure tab : ByteReader RecoveryError String)
  rw [hname]

/-- The length of a body bounds those of its values and of its name. -/
theorem gets_readBody {b : LogBody} (hlen : b.len < 2 ^ 31)
    (hrid : ∀ c, b = .change c → Int32Range c.rid.pageNo ∧ Int32Range c.rid.slotNo) :
    (readBody b.type).Gets b.serialize b := by
  match b with
  | .begin => exact .pure _
  | .commit => exact .pure _
  | .abort => exact .pure _
  | .change (.insert value rid tab) =>
    simp only [LogBody.len] at hlen
    exact (gets_readRecord (by omega)).bind
      ((gets_readRid (hrid _ rfl)).bind ((gets_readName (by omega)).result rfl))
  | .change (.delete value rid tab) =>
    simp only [LogBody.len] at hlen
    exact (gets_readRecord (by omega)).bind
      ((gets_readRid (hrid _ rfl)).bind ((gets_readName (by omega)).result rfl))
  | .change (.update before after rid tab) =>
    simp only [LogBody.len] at hlen
    exact (gets_readRecord (by omega)).bind ((gets_readRecord (by omega)).bind
      ((gets_readRid (hrid _ rfl)).bind ((gets_readName (by omega)).result rfl)))

/-- **What is read is what was written.** -/
theorem deserialize_serialize {r : LogRecord} (h : r.Typed) (hlen : r.totLen < 2 ^ 31) :
    LogRecord.deserialize.Gets r.serialize (r, r.totLen) := by
  have htype : Int32Range r.body.type := by
    unfold LogBody.type
    unfold Int32Range
    split <;> decide
  have hbody : r.body.len < 2 ^ 31 := Nat.lt_of_le_of_lt (Nat.le_add_left _ _) hlen
  exact (gets_readInt32 htype).bind ((gets_readInt32 h.lsn).bind
    ((gets_readUnsigned (Nat.lt_trans hlen (by norm_num))).bind ((gets_readInt32 h.logTid).bind
      ((gets_readInt32 h.prevLsn).bind ((gets_readBody hbody h.rid).result rfl)))))

end Rmdb
