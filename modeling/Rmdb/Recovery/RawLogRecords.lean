import Rmdb.Execution.KeyRange
import Rmdb.Lib.RawMemory
import Rmdb.Recovery.LogBytes

namespace Rmdb

open Lib

/-!
# Log records at the offsets of the source (`recovery/log_manager.h`)

`serialize` copies the fields of a record to `dest + offset`, where `offset` is an `int`; the constructor
adds the lengths up in a `uint32_t`; `deserialize` computes the offsets again.  The records here are those
of the types of the source: a value has a length that is an `int`, and a name any length.

* `RawLogRecord.serialize`, `deserialize`, `logTotLen` — as in the source;
* `serialize_eq`, `deserialize_eq` — what they do while the offsets fit;
* `serialize_fails` — what happens when they do not;
* `roundTrips_iff` — `log_tot_len_` bytes are written and read back just if the offsets and the length fit.
-/

/-- `RmRecord`: its size is an `int`. -/
structure RawRecord where
  data : List UInt8
  size_lt : data.length < 2147483648

/-- `Rid`. -/
structure RawRid where
  pageNo : BitVec 32
  slotNo : BitVec 32

/-- `table_name_` with `table_name_size_`, a `size_t`. -/
structure RawName where
  chars : List UInt8
  size_lt : chars.length < 18446744073709551616

/-- What the types of records add to `LogRecord`. -/
inductive RawBody where
  | begin
  | commit
  | abort
  | insert (insertValue : RawRecord) (rid : RawRid) (tableName : RawName)
  | delete (deleteValue : RawRecord) (rid : RawRid) (tableName : RawName)
  | update (beforeValue afterValue : RawRecord) (rid : RawRid) (tableName : RawName)

/-- `class LogRecord` and its subclasses. -/
structure RawLogRecord where
  lsn : BitVec 32
  logTid : BitVec 32
  prevLsn : BitVec 32
  body : RawBody

/-- What can go wrong. -/
inductive RawError where
  /-- The sum of two `int`s is none. -/
  | overflow
  /-- A byte in front of the buffer is written or read. -/
  | outside
  | badArrayNewLength
  /-- The type names no kind of record. -/
  | unknownType
  deriving DecidableEq, Repr

/-- `log_type_`. -/
def RawBody.type : RawBody → BitVec 32
  | .update .. => 0
  | .insert .. => 1
  | .delete .. => 2
  | .begin => 3
  | .commit => 4
  | .abort => 5

/-- `log_tot_len_`, as the constructors add it up. -/
def RawBody.logTotLen : RawBody → BitVec 32
  | .begin | .commit | .abort => 20
  | .insert value _ tab | .delete value _ tab =>
    20 + 4 + BitVec.ofNat 32 value.data.length + 8 + 8 + BitVec.ofNat 32 tab.chars.length
  | .update before after _ tab =>
    20 + 4 + BitVec.ofNat 32 before.data.length + 4 + BitVec.ofNat 32 after.data.length + 8 + 8 +
      BitVec.ofNat 32 tab.chars.length

/-! ### Writing -/

/-- `int + size_t`, as an `int` again. -/
def addSizeof (offset : Int) (n : Nat) : Int := (offset + n).bmod 4294967296

/-- `int + int`. -/
def addSize (offset : Int) (n : Nat) : Except RawError Int :=
  if offset + n < 2147483648 then .ok (offset + n) else .error .overflow

/-- The memory at `dest`, and `offset`. -/
abbrev RawWriter := StateT (RawMemory × Int) (Except RawError)

namespace RawWriter

/-- `memcpy(dest + offset, bs, n)`. -/
def put (bs : List UInt8) : RawWriter Unit := fun s =>
  if bs ≠ [] ∧ s.2 < 0 then .error .outside else .ok ((), s.1.write s.2 bs, s.2)

/-- The same, and `offset += sizeof(…)`. -/
def putSizeof (bs : List UInt8) (n : Nat) : RawWriter Unit := do
  put bs
  fun s => .ok ((), s.1, addSizeof s.2 n)

/-- The same, and `offset += value.size`. -/
def putSize (bs : List UInt8) : RawWriter Unit := do
  put bs
  fun s => (addSize s.2 bs.length).map fun offset => ((), s.1, offset)

end RawWriter

open RawWriter

/-- The bytes of a number of four bytes. -/
def bytes32 (x : BitVec 32) : List UInt8 := leBytes x.toNat 4

/-- A value: its size and its data. -/
def RawRecord.serialize (value : RawRecord) : RawWriter Unit := do
  putSizeof (bytes32 (BitVec.ofNat 32 value.data.length)) 4
  putSize value.data

/-- The end of each change: `rid_`, `table_name_size_` and `table_name_`. -/
def serializeEnd (rid : RawRid) (tab : RawName) : RawWriter Unit := do
  putSizeof (bytes32 rid.pageNo ++ bytes32 rid.slotNo) 8
  putSizeof (leBytes tab.chars.length 8) 8
  put tab.chars

def RawBody.serialize : RawBody → RawWriter Unit
  | .begin | .commit | .abort => pure ()
  | .insert value rid tab | .delete value rid tab => do
    value.serialize
    serializeEnd rid tab
  | .update before after rid tab => do
    before.serialize
    after.serialize
    serializeEnd rid tab

/-- `LogRecord::serialize` and its overrides. -/
def RawLogRecord.serialize (r : RawLogRecord) (dest : RawMemory) : Except RawError RawMemory :=
  let dest := dest.write 0 (bytes32 r.body.type)
  let dest := dest.write 4 (bytes32 r.lsn)
  let dest := dest.write 8 (bytes32 r.body.logTotLen)
  let dest := dest.write 12 (bytes32 r.logTid)
  let dest := dest.write 16 (bytes32 r.prevLsn)
  match r.body.serialize (dest, 20) with
  | .error e => .error e
  | .ok (_, dest, _) => .ok dest

/-! ### Reading -/

section Reading

variable (src : RawMemory)

/-- `n` bytes at `src + offset`. -/
def getBytes (offset : Int) (n : Nat) : Except RawError (List UInt8) :=
  if n ≠ 0 ∧ offset < 0 then .error .outside else .ok (src.read offset n)

/-- A number of four bytes. -/
def get32 (offset : Int) : Except RawError (BitVec 32) := do
  let bs ← getBytes src offset 4
  return BitVec.ofNat 32 (ofLeBytes bs)

/-- `RmRecord::Deserialize`. -/
def getRmRecord (offset : Int) : Except RawError RawRecord := do
  let size ← get32 src offset
  if size.toInt < 0 then .error .badArrayNewLength
  else if size.toInt.toNat ≠ 0 ∧ offset + 4 < 0 then .error .outside
  else return ⟨src.read (offset + 4) size.toInt.toNat, by
    have hlt := size.toInt_lt
    rw [RawMemory.length_read]
    omega⟩

def getRid (offset : Int) : Except RawError RawRid := do
  let pageNo ← get32 src offset
  let slotNo ← get32 src (offset + 4)
  return ⟨pageNo, slotNo⟩

/-- `table_name_size_`, and the name behind it. -/
def getName (offset : Int) : Except RawError RawName :=
  if offset < 0 then .error .outside
  else
    let size := ofLeBytes (src.read offset 8)
    if size ≠ 0 ∧ addSizeof offset 8 < 0 then .error .outside
    else .ok ⟨src.read (addSizeof offset 8) size, by
      have hlt := ofLeBytes_lt (src.read offset 8)
      rw [RawMemory.length_read] at hlt ⊢
      exact hlt⟩

/-- The end of a change, behind its values. -/
def getEnd (offset : Int) : Except RawError (RawRid × RawName) := do
  let rid ← getRid src offset
  let tab ← getName src (addSizeof offset 8)
  return (rid, tab)

/-- `InsertLogRecord::deserialize` and `DeleteLogRecord::deserialize`, behind the header. -/
def getOneValue (make : RawRecord → RawRid → RawName → RawBody) : Except RawError RawBody := do
  let value ← getRmRecord src 20
  let offset ← addSize 20 value.data.length
  let (rid, tab) ← getEnd src (addSizeof offset 4)
  return make value rid tab

/-- `UpdateLogRecord::deserialize`, behind the header: here `after_value_.size + sizeof(int)` is a
    `size_t`. -/
def getTwoValues : Except RawError RawBody := do
  let before ← getRmRecord src 20
  let offset ← addSize 20 before.data.length
  let offset := addSizeof offset 4
  let after ← getRmRecord src offset
  let (rid, tab) ← getEnd src (addSizeof offset (after.data.length + 4))
  return .update before after rid tab

/-- What `deserialize` of the kind that the type names reads behind the header. -/
def getBody (type : BitVec 32) : Except RawError RawBody :=
  if type = 0 then getTwoValues src
  else if type = 1 then getOneValue src .insert
  else if type = 2 then getOneValue src .delete
  else if type = 3 then .ok .begin
  else if type = 4 then .ok .commit
  else if type = 5 then .ok .abort
  else .error .unknownType

/-- `deserialize` of a record of this kind. -/
def RawLogRecord.deserialize : Except RawError (RawLogRecord × BitVec 32) := do
  let type ← get32 src 0
  let lsn ← get32 src 4
  let logTotLen ← get32 src 8
  let logTid ← get32 src 12
  let prevLsn ← get32 src 16
  let body ← getBody src type
  return (⟨lsn, logTid, prevLsn, body⟩, logTotLen)

end Reading

/-! ### The offsets while they fit -/

/-- The sum is exact as long as it fits an `int`. -/
theorem addSizeof_eq {offset : Int} {n : Nat} (h0 : 0 ≤ offset) (h : offset + n < 2147483648) :
    addSizeof offset n = offset + n := by
  unfold addSizeof
  rw [Int.bmod_eq_of_le] <;> omega

/-- Behind the last `int` come the negative ones. -/
theorem addSizeof_neg {offset : Int} {n : Nat} (h : 2147483648 ≤ offset + n)
    (hlt : offset + n < 4294967296) : addSizeof offset n < 0 := by
  unfold addSizeof
  rw [Int.bmod_def, Int.emod_eq_of_lt (by omega) (by omega), if_neg (by omega)]
  omega

/-- A 32-bit number takes four bytes. -/
@[simp] theorem length_bytes32 (x : BitVec 32) : (bytes32 x).length = 4 := length_leBytes _ _

/-- The bytes of a value. -/
def RawRecord.bytes (value : RawRecord) : List UInt8 :=
  bytes32 (BitVec.ofNat 32 value.data.length) ++ value.data

/-- A record is written with its size in front. -/
@[simp] theorem RawRecord.length_bytes (value : RawRecord) : value.bytes.length = 4 + value.data.length := by
  simp [RawRecord.bytes]

/-- The bytes behind the values. -/
def endBytes (rid : RawRid) (tab : RawName) : List UInt8 :=
  (bytes32 rid.pageNo ++ bytes32 rid.slotNo) ++ (leBytes tab.chars.length 8 ++ tab.chars)

/-- Record number, name length and name. -/
@[simp] theorem length_endBytes (rid : RawRid) (tab : RawName) :
    (endBytes rid tab).length = 16 + tab.chars.length := by
  simp only [endBytes, List.length_append, length_bytes32, length_leBytes]
  omega

def RawBody.bytes : RawBody → List UInt8
  | .begin | .commit | .abort => []
  | .insert value rid tab | .delete value rid tab => value.bytes ++ endBytes rid tab
  | .update before after rid tab => before.bytes ++ (after.bytes ++ endBytes rid tab)

/-- The offset of `table_name_size_`, and the name. -/
def RawBody.nameAt : RawBody → Option (Nat × RawName)
  | .begin | .commit | .abort => none
  | .insert value _ tab | .delete value _ tab => some (32 + value.data.length, tab)
  | .update before after _ tab => some (36 + before.data.length + after.data.length, tab)

/-- The offsets are `int`s. -/
def RawBody.OffsetsFit (b : RawBody) : Prop :=
  ∀ k tab, b.nameAt = some (k, tab) → k < 2147483648 ∧ (tab.chars = [] ∨ k + 8 < 2147483648)

/-- **The record fits**: its offsets are `int`s, and its length is a `uint32_t`. -/
def RawBody.Fits (b : RawBody) : Prop :=
  b.OffsetsFit ∧ ∀ k tab, b.nameAt = some (k, tab) → k + 8 + tab.chars.length < 4294967296

/-! ### What is written -/

/-- The writer puts `b` behind `a`, and ends behind it. -/
def Puts (w : RawWriter Unit) (a b : List UInt8) : Prop :=
  ∀ m : RawMemory, w (m.write 0 a, a.length) = .ok ((), m.write 0 (a ++ b), ((a ++ b).length : Int))

/-- The writer fails at this offset. -/
def FailsAt (w : RawWriter Unit) (offset : Int) : Prop := ∀ m : RawMemory, ∃ e, w (m, offset) = .error e

section Writing

variable {w v : RawWriter Unit} {a b c : List UInt8} {m m' : RawMemory} {offset offset' : Int}

/-- A writer that succeeds hands its memory on. -/
theorem RawWriter.bind_ok (h : w (m, offset) = .ok ((), m', offset')) :
    (w >>= fun _ => v) (m, offset) = v (m', offset') := by
  show (w (m, offset) >>= fun x => v x.2) = _
  rw [h]
  rfl

/-- A writer that fails stops the rest. -/
theorem RawWriter.bind_error {e : RawError} (h : w (m, offset) = .error e) :
    (w >>= fun _ => v) (m, offset) = .error e := by
  show (w (m, offset) >>= fun x => v x.2) = _
  rw [h]
  rfl

/-- Two writers append one behind the other. -/
theorem Puts.bind (hw : Puts w a b) (hv : Puts v (a ++ b) c) : Puts (w >>= fun _ => v) a (b ++ c) := by
  intro m
  rw [RawWriter.bind_ok (hw m), hv m, List.append_assoc]

/-- A failure of the first writer is one of both. -/
theorem FailsAt.bind (hw : FailsAt w offset) : FailsAt (w >>= fun _ => v) offset := by
  intro m
  obtain ⟨e, he⟩ := hw m
  exact ⟨e, RawWriter.bind_error he⟩

/-- Bytes are written at an offset that is not negative. -/
theorem put_ok (h : b = [] ∨ 0 ≤ offset) : put b (m, offset) = .ok ((), m.write offset b, offset) := by
  unfold put
  rw [if_neg]
  rintro ⟨hne, hneg⟩
  rcases h with h | h
  · exact hne h
  · exact absurd hneg (by dsimp only; omega)

/-- A write at a negative offset fails, unless it writes nothing. -/
theorem put_fails (hb : b ≠ []) (h : offset < 0) : FailsAt (put b) offset :=
  fun _ => ⟨.outside, if_pos ⟨hb, h⟩⟩

/-- The `int` sum as long as it fits. -/
theorem addSize_eq {n : Nat} (h : offset + n < 2147483648) : addSize offset n = .ok (offset + n) :=
  if_pos h

/-- The `int` sum when it does not fit. -/
theorem addSize_overflow {n : Nat} (h : ¬ offset + n < 2147483648) : addSize offset n = .error .overflow :=
  if_neg h

/-- Bytes are written and the offset moves by their `sizeof`. -/
theorem putSizeof_ok {n : Nat} (h : 0 ≤ offset) :
    putSizeof b n (m, offset) = .ok ((), m.write offset b, addSizeof offset n) := by
  unfold putSizeof
  rw [RawWriter.bind_ok (put_ok (Or.inr h))]

/-- The write fails at a negative offset. -/
theorem putSizeof_fails {n : Nat} (hb : b ≠ []) (h : offset < 0) : FailsAt (putSizeof b n) offset :=
  (put_fails hb h).bind

/-- A field of a fixed size. -/
theorem puts_field {n : Nat} (hn : b.length = n) (h : a.length + n < 2147483648) :
    Puts (putSizeof b n) a b := by
  intro m
  subst hn
  rw [putSizeof_ok (by omega), m.write_write b rfl, addSizeof_eq (by omega) (by omega),
    List.length_append, Int.natCast_add]

/-- A field of the size that an `int` says. -/
theorem puts_data (h : a.length + b.length < 2147483648) : Puts (putSize b) a b := by
  intro m
  unfold putSize
  rw [RawWriter.bind_ok (put_ok (Or.inr (by omega))), m.write_write b rfl]
  dsimp only
  rw [addSize_eq (by omega), List.length_append, Int.natCast_add]
  rfl

end Writing

/-- `RmRecord::Serialize` appends the record's bytes. -/
theorem RawRecord.serialize_puts (value : RawRecord) {a : List UInt8}
    (h : a.length + 4 + value.data.length < 2147483648) : Puts value.serialize a value.bytes := by
  apply Puts.bind
  · exact puts_field (length_bytes32 _) (by omega)
  · apply puts_data
    rw [List.length_append, length_bytes32]
    omega

/-- A record number takes eight bytes. -/
theorem length_rid (rid : RawRid) : (bytes32 rid.pageNo ++ bytes32 rid.slotNo).length = 8 := by
  rw [List.length_append, length_bytes32, length_bytes32]

/-- The end of a change, behind `a`. -/
theorem serializeEnd_eq (rid : RawRid) (tab : RawName) {a : List UInt8} (h : a.length + 8 < 2147483648)
    (htab : tab.chars = [] ∨ a.length + 16 < 2147483648) (m : RawMemory) :
    ∃ offset, serializeEnd rid tab (m.write 0 a, a.length) =
      .ok ((), m.write 0 (a ++ endBytes rid tab), offset) := by
  have hrid : Puts (putSizeof (bytes32 rid.pageNo ++ bytes32 rid.slotNo) 8) a _ :=
    puts_field (length_rid rid) h
  unfold serializeEnd
  rw [RawWriter.bind_ok (hrid m)]
  generalize ha' : a ++ (bytes32 rid.pageNo ++ bytes32 rid.slotNo) = a'
  have hlen : a'.length = a.length + 8 := by
    rw [← ha', List.length_append, length_rid]
  have hname : tab.chars = [] ∨ (a'.length : Int) + 8 < 2147483648 := by
    rcases htab with htab | htab
    · exact Or.inl htab
    · exact Or.inr (by omega)
  rw [RawWriter.bind_ok (putSizeof_ok (by omega)), m.write_write _ rfl, put_ok, endBytes, ← ha']
  · rcases hname with hname | hname
    · rw [hname, RawMemory.write_nil, List.append_nil, List.append_assoc]
      exact ⟨_, rfl⟩
    · rw [ha', addSizeof_eq (by omega) hname, RawMemory.write_write, ← ha']
      · simp only [List.append_assoc]
        exact ⟨_, rfl⟩
      · rw [List.length_append, length_leBytes]
        rfl
  · rcases hname with hname | hname
    · exact Or.inl hname
    · right
      rw [addSizeof_eq (by omega) hname]
      omega

/-- The end of a change does not fit behind an offset that is none, or is too large. -/
theorem serializeEnd_fails (rid : RawRid) (tab : RawName) {offset : Int} (hlt : offset < 2147483648)
    (h : offset < 0 ∨ 2147483648 ≤ offset + 8 ∨ tab.chars ≠ [] ∧ 2147483648 ≤ offset + 16) :
    FailsAt (serializeEnd rid tab) offset := by
  have hne : ∀ {b : List UInt8} {n : Nat}, b.length = n + 1 → b ≠ [] := by
    rintro b n hb rfl
    cases hb
  intro m
  unfold serializeEnd
  by_cases h0 : offset < 0
  · exact (putSizeof_fails (hne (length_rid rid)) h0).bind m
  · rw [RawWriter.bind_ok (putSizeof_ok (by omega))]
    by_cases h8 : 2147483648 ≤ offset + 8
    · have hneg : addSizeof offset 8 < 0 := addSizeof_neg h8 (by omega)
      exact (putSizeof_fails (hne (length_leBytes _ _)) hneg).bind _
    · obtain ⟨htab, h16⟩ := (h.resolve_left h0).resolve_left h8
      rw [addSizeof_eq (by omega) (by omega), RawWriter.bind_ok (putSizeof_ok (by omega))]
      have hneg : addSizeof (offset + 8) 8 < 0 := addSizeof_neg (by omega) (by omega)
      exact put_fails htab hneg _

/-- A value does not fit behind such an offset, or the offset behind it is none. -/
theorem RawRecord.serialize_fails (value : RawRecord) {offset : Int}
    (hlt : offset < 2147483648) (h : offset < 0 ∨ 2147483648 ≤ offset + 4 + value.data.length)
    {w : RawWriter Unit} (hw : ∀ offset', offset' < 0 → FailsAt w offset') :
    FailsAt (value.serialize >>= fun _ => w) offset := by
  have hne : bytes32 (BitVec.ofNat 32 value.data.length) ≠ [] := by
    intro hnil
    have hlen := length_bytes32 (BitVec.ofNat 32 value.data.length)
    rw [hnil] at hlen
    cases hlen
  intro m
  by_cases h0 : offset < 0
  · exact (putSizeof_fails hne h0).bind.bind m
  · -- the size is written, and the offset of the bytes or the one behind them is none
    have hsize := h.resolve_left h0
    have hfirst : putSizeof (bytes32 (BitVec.ofNat 32 value.data.length)) 4 (m, offset) = .ok ((), _, _) :=
      putSizeof_ok (by omega)
    by_cases h4 : 2147483648 ≤ offset + 4
    · have hneg : addSizeof offset 4 < 0 := addSizeof_neg h4 (by omega)
      by_cases hdata : value.data = []
      · -- nothing is written, and the offset stays negative
        have hsum : addSizeof offset 4 + (value.data.length : Nat) < 2147483648 := by
          rw [hdata, List.length_nil]
          omega
        obtain ⟨m', hrun⟩ : ∃ m', value.serialize (m, offset) =
            .ok ((), m', addSizeof offset 4 + (value.data.length : Nat)) := by
          unfold RawRecord.serialize
          rw [RawWriter.bind_ok hfirst]
          unfold putSize
          rw [RawWriter.bind_ok (put_ok (Or.inl hdata))]
          dsimp only
          rw [addSize_eq hsum]
          exact ⟨_, rfl⟩
        rw [RawWriter.bind_ok hrun]
        apply hw
        rw [hdata, List.length_nil]
        omega
      · -- the bytes would go before the buffer
        obtain ⟨e, he⟩ : ∃ e, value.serialize (m, offset) = .error e := by
          unfold RawRecord.serialize
          rw [RawWriter.bind_ok hfirst]
          exact (put_fails hdata hneg).bind _
        exact ⟨e, RawWriter.bind_error he⟩
    · -- `offset += size` overflows
      obtain ⟨e, he⟩ : ∃ e, value.serialize (m, offset) = .error e := by
        unfold RawRecord.serialize
        rw [RawWriter.bind_ok hfirst, addSizeof_eq (by omega) (by omega)]
        unfold putSize
        rw [RawWriter.bind_ok (put_ok (Or.inr (by omega)))]
        dsimp only
        rw [addSize_overflow (by omega)]
        exact ⟨_, rfl⟩
      exact ⟨e, RawWriter.bind_error he⟩

/-- A value is put behind `a`, and the rest behind it. -/
theorem RawRecord.serialize_bind (value : RawRecord) {a : List UInt8}
    (h : a.length + 4 + value.data.length < 2147483648) (w : RawWriter Unit) (m : RawMemory) :
    (value.serialize >>= fun _ => w) (m.write 0 a, a.length) =
      w (m.write 0 (a ++ value.bytes), ((a ++ value.bytes).length : Int)) :=
  RawWriter.bind_ok (value.serialize_puts h m)

/-- Each kind of record writes its body behind the header. -/
theorem RawBody.serialize_ok (b : RawBody) (hfit : b.OffsetsFit) {a : List UInt8} (ha : a.length = 20)
    (m : RawMemory) : ∃ offset, b.serialize (m.write 0 a, a.length) =
      .ok ((), m.write 0 (a ++ b.bytes), offset) := by
  have hone : ∀ (value : RawRecord) (rid : RawRid) (tab : RawName), 32 + value.data.length < 2147483648 →
      (tab.chars = [] ∨ 32 + value.data.length + 8 < 2147483648) →
      ∃ offset, (value.serialize >>= fun _ => serializeEnd rid tab) (m.write 0 a, a.length) =
        .ok ((), m.write 0 (a ++ (value.bytes ++ endBytes rid tab)), offset) := by
    intro value rid tab hk htab
    rw [value.serialize_bind (by omega), ← List.append_assoc]
    have hlen : (a ++ value.bytes).length = 24 + value.data.length := by
      rw [List.length_append, value.length_bytes]
      omega
    exact serializeEnd_eq rid tab (by omega) (htab.imp_right fun h => by omega) m
  cases b with
  | begin | commit | abort =>
    refine ⟨a.length, ?_⟩
    rw [RawBody.bytes, List.append_nil]
    rfl
  | insert value rid tab | delete value rid tab =>
    obtain ⟨hk, htab⟩ := hfit _ _ rfl
    exact hone value rid tab hk htab
  | update before after rid tab =>
    obtain ⟨hk, htab⟩ := hfit _ _ rfl
    have hlen : (a ++ before.bytes).length = 24 + before.data.length := by
      rw [List.length_append, before.length_bytes]
      omega
    have hlen' : (a ++ before.bytes ++ after.bytes).length = 28 + before.data.length + after.data.length := by
      rw [List.length_append, after.length_bytes]
      omega
    have hrun : (RawBody.update before after rid tab).serialize (m.write 0 a, a.length) =
        serializeEnd rid tab (m.write 0 (a ++ before.bytes ++ after.bytes),
          ((a ++ before.bytes ++ after.bytes).length : Int)) := by
      show (before.serialize >>= fun _ => after.serialize >>= fun _ => serializeEnd rid tab) _ = _
      rw [before.serialize_bind (by omega), after.serialize_bind (by omega)]
    rw [hrun, RawBody.bytes, ← List.append_assoc, ← List.append_assoc]
    exact serializeEnd_eq rid tab (by omega) (htab.imp_right fun h => by omega) m

/-- Offsets that do not fit are never written. -/
theorem RawBody.serialize_fails (b : RawBody) (hfit : ¬ b.OffsetsFit) {a : List UInt8}
    (ha : a.length = 20) (m : RawMemory) : ∃ e, b.serialize (m.write 0 a, a.length) = .error e := by
  unfold RawBody.OffsetsFit at hfit
  push Not at hfit
  obtain ⟨k, tab, hname, hfit⟩ := hfit
  have hend : ∀ (rid : RawRid) (tab : RawName) (offset : Int), offset < 0 →
      FailsAt (serializeEnd rid tab) offset :=
    fun rid tab offset h => serializeEnd_fails rid tab (by omega) (Or.inl h)
  have hbad : 2147483648 ≤ k ∨ tab.chars ≠ [] ∧ 2147483648 ≤ k + 8 := by
    by_cases hk : k < 2147483648
    · exact Or.inr ⟨(hfit hk).1, (hfit hk).2⟩
    · exact Or.inl (by omega)
  have hone : ∀ (value : RawRecord) (rid : RawRid), k = 32 + value.data.length →
      ∃ e, (value.serialize >>= fun _ => serializeEnd rid tab) (m.write 0 a, a.length) = .error e := by
    intro value rid hk
    by_cases hv : a.length + 4 + value.data.length < 2147483648
    · -- the value fits, and what is behind it does not
      have hlen : (a ++ value.bytes).length = 24 + value.data.length := by
        rw [List.length_append, value.length_bytes]
        omega
      rw [value.serialize_bind hv]
      apply serializeEnd_fails rid tab (by omega)
      rcases hbad with hbad | ⟨htab, hbad⟩
      · exact Or.inr (Or.inl (by omega))
      · exact Or.inr (Or.inr ⟨htab, by omega⟩)
    · exact value.serialize_fails (by omega) (Or.inr (by omega)) (hend rid tab) _
  cases b with
  | begin | commit | abort => cases hname
  | insert value rid tab' | delete value rid tab' =>
    obtain ⟨rfl, rfl⟩ := Prod.mk.inj (Option.some.inj hname)
    exact hone value rid rfl
  | update before after rid tab' =>
    obtain ⟨rfl, rfl⟩ := Prod.mk.inj (Option.some.inj hname)
    -- an offset that is none stays so behind an empty value
    have hsecond : ∀ offset : Int, offset < 0 →
        FailsAt (after.serialize >>= fun _ => serializeEnd rid tab') offset :=
      fun offset h => after.serialize_fails (by omega) (Or.inl h) (hend rid tab')
    show ∃ e, (before.serialize >>= fun _ => after.serialize >>= fun _ => serializeEnd rid tab')
      (m.write 0 a, a.length) = .error e
    by_cases hv : a.length + 4 + before.data.length < 2147483648
    · have hlen : (a ++ before.bytes).length = 24 + before.data.length := by
        rw [List.length_append, before.length_bytes]
        omega
      rw [before.serialize_bind hv]
      by_cases hv' : (a ++ before.bytes).length + 4 + after.data.length < 2147483648
      · -- both values fit
        have hlen' : (a ++ before.bytes ++ after.bytes).length =
            28 + before.data.length + after.data.length := by
          rw [List.length_append, after.length_bytes]
          omega
        rw [after.serialize_bind hv']
        apply serializeEnd_fails rid tab' (by omega)
        rcases hbad with hbad | ⟨htab, hbad⟩
        · exact Or.inr (Or.inl (by omega))
        · exact Or.inr (Or.inr ⟨htab, by omega⟩)
      · exact after.serialize_fails (by omega) (Or.inr (by omega)) (hend rid tab') _
    · exact before.serialize_fails (by omega) (Or.inr (by omega)) hsecond _

/-- The bytes of the header. -/
def RawLogRecord.header (r : RawLogRecord) : List UInt8 :=
  bytes32 r.body.type ++ (bytes32 r.lsn ++ (bytes32 r.body.logTotLen ++ (bytes32 r.logTid ++
    bytes32 r.prevLsn)))

/-- The header takes `LOG_HEADER_SIZE` bytes. -/
@[simp] theorem RawLogRecord.length_header (r : RawLogRecord) : r.header.length = 20 := by
  simp [header]

/-- The header is written first. -/
theorem RawLogRecord.serialize_eq_body (r : RawLogRecord) (m : RawMemory) :
    r.serialize m = (r.body.serialize (m.write 0 r.header, r.header.length)).map fun x => x.2.1 := by
  have hheader : ((((m.write 0 (bytes32 r.body.type)).write 4 (bytes32 r.lsn)).write 8
      (bytes32 r.body.logTotLen)).write 12 (bytes32 r.logTid)).write 16 (bytes32 r.prevLsn) =
      m.write 0 r.header := by
    rw [m.write_write _ (by simp), m.write_write _ (by simp), m.write_write _ (by simp),
      m.write_write _ (by simp)]
    simp only [RawLogRecord.header, List.append_assoc]
  rw [r.length_header]
  unfold RawLogRecord.serialize
  dsimp only
  rw [hheader]
  cases hrun : r.body.serialize (m.write 0 r.header, 20) with
  | error e => rfl
  | ok x => rfl

/-- **What `serialize` writes** while the offsets fit. -/
theorem RawLogRecord.serialize_eq (r : RawLogRecord) (hfit : r.body.OffsetsFit) (m : RawMemory) :
    r.serialize m = .ok (m.write 0 (r.header ++ r.body.bytes)) := by
  obtain ⟨offset, hrun⟩ := r.body.serialize_ok hfit r.length_header m
  rw [r.serialize_eq_body, hrun]
  rfl

/-- A record whose offsets overflow is not written. -/
theorem RawLogRecord.serialize_fails (r : RawLogRecord) (hfit : ¬ r.body.OffsetsFit) (m : RawMemory) :
    ∃ e, r.serialize m = .error e := by
  obtain ⟨e, hrun⟩ := r.body.serialize_fails hfit r.length_header m
  rw [r.serialize_eq_body, hrun]
  exact ⟨e, rfl⟩

/-! ### What is read -/

/-- A reader that succeeds hands its result on. -/
theorem RawError.ok_bind {α β : Type} (a : α) (k : α → Except RawError β) : (Except.ok a >>= k) = k a := rfl

section Read

variable {bs a c : List UInt8} {m : RawMemory} {offset : Int}

/-- The bytes at an offset, found in the middle of the memory. -/
theorem getBytes_at {b : List UInt8} {n : Nat} (h : bs = a ++ (b ++ c)) (hoff : offset = a.length)
    (hn : b.length = n) : getBytes (m.write 0 bs) offset n = .ok b := by
  subst hn h hoff
  unfold getBytes
  rw [if_neg (by omega), RawMemory.read_write]

/-- The 32-bit number at an offset. -/
theorem get32_at {x : BitVec 32} (h : bs = a ++ (bytes32 x ++ c)) (hoff : offset = a.length) :
    get32 (m.write 0 bs) offset = .ok x := by
  have hx : BitVec.ofNat 32 (ofLeBytes (bytes32 x)) = x := by
    rw [bytes32, ofLeBytes_leBytes]
    apply BitVec.eq_of_toNat_eq
    have hlt := x.isLt
    rw [BitVec.toNat_ofNat, Nat.mod_eq_of_lt (b := 256 ^ 4) (by omega), Nat.mod_eq_of_lt hlt]
  unfold get32
  rw [getBytes_at h hoff (length_bytes32 x)]
  exact congrArg Except.ok hx

/-- `RmRecord::Deserialize` at an offset. -/
theorem getRmRecord_at {value : RawRecord} (h : bs = a ++ (value.bytes ++ c)) (hoff : offset = a.length) :
    getRmRecord (m.write 0 bs) offset = .ok value := by
  have hlt := value.size_lt
  have hsize : (BitVec.ofNat 32 value.data.length).toInt = value.data.length := by
    rw [BitVec.toInt_eq_toNat_bmod, BitVec.toNat_ofNat, Nat.mod_eq_of_lt (by omega), Int.bmod_eq_of_le] <;>
      omega
  have hread : get32 (m.write 0 bs) offset = .ok (BitVec.ofNat 32 value.data.length) := by
    apply get32_at (a := a) (c := value.data ++ c) _ hoff
    rw [h, RawRecord.bytes, List.append_assoc]
  have hdata : (m.write 0 bs).read (offset + 4) value.data.length = value.data := by
    have hsplit : bs = (a ++ bytes32 (BitVec.ofNat 32 value.data.length)) ++ (value.data ++ c) := by
      rw [h, RawRecord.bytes]
      simp only [List.append_assoc]
    have hat : offset + 4 = ((a ++ bytes32 (BitVec.ofNat 32 value.data.length)).length : Int) := by
      rw [List.length_append, length_bytes32, hoff]
      rfl
    rw [hat, hsplit, RawMemory.read_write]
  unfold getRmRecord
  rw [hread]
  show (if (BitVec.ofNat 32 value.data.length).toInt < 0 then _ else _) = _
  rw [if_neg (by omega), if_neg (by omega)]
  have hmake : ∀ (d : List UInt8) (hd : d.length < 2147483648), d = value.data →
      (⟨d, hd⟩ : RawRecord) = value := by
    rintro _ _ rfl
    rfl
  apply congrArg Except.ok
  apply hmake
  rw [hsize, Int.toNat_natCast, hdata]

/-- The record number at an offset. -/
theorem getRid_at {rid : RawRid} (h : bs = a ++ ((bytes32 rid.pageNo ++ bytes32 rid.slotNo) ++ c))
    (hoff : offset = a.length) : getRid (m.write 0 bs) offset = .ok rid := by
  have hpage : get32 (m.write 0 bs) offset = .ok rid.pageNo := by
    apply get32_at (a := a) (c := bytes32 rid.slotNo ++ c) _ hoff
    rw [h, List.append_assoc]
  have hslot : get32 (m.write 0 bs) (offset + 4) = .ok rid.slotNo := by
    apply get32_at (a := a ++ bytes32 rid.pageNo) (c := c)
    · rw [h]
      simp only [List.append_assoc]
    · rw [List.length_append, length_bytes32, hoff]
      rfl
  unfold getRid
  rw [hpage, RawError.ok_bind, hslot]
  rfl

/-- The table name at an offset, whose last part is the name itself. -/
theorem getName_at {tab : RawName} (h : bs = a ++ (leBytes tab.chars.length 8 ++ tab.chars))
    (hoff : offset = a.length) (hfit : tab.chars = [] ∨ offset + 8 < 2147483648) :
    getName (m.write 0 bs) offset = .ok tab := by
  have hlt := tab.size_lt
  have hsize : ofLeBytes ((m.write 0 bs).read offset 8) = tab.chars.length := by
    have hread : (m.write 0 bs).read offset 8 = leBytes tab.chars.length 8 := by
      rw [hoff, h]
      have hw := m.read_write a (leBytes tab.chars.length 8) tab.chars
      rwa [length_leBytes] at hw
    rw [hread, ofLeBytes_leBytes, Nat.mod_eq_of_lt (by omega)]
  have hat : tab.chars ≠ [] → addSizeof offset 8 = ((a ++ leBytes tab.chars.length 8).length : Int) := by
    intro hne
    rw [addSizeof_eq (by omega) (by have := hfit.resolve_left hne; omega), hoff, List.length_append,
      length_leBytes]
    rfl
  have hchars : (m.write 0 bs).read (addSizeof offset 8) tab.chars.length = tab.chars := by
    by_cases hne : tab.chars = []
    · rw [hne]
      rfl
    · have hsplit : bs = (a ++ leBytes tab.chars.length 8) ++ (tab.chars ++ []) := by
        rw [h, List.append_nil, List.append_assoc]
      rw [hat hne, hsplit, RawMemory.read_write]
  unfold getName
  rw [if_neg (by omega), if_neg]
  · have hmake : ∀ (d : List UInt8) (hd : d.length < 18446744073709551616), d = tab.chars →
        (⟨d, hd⟩ : RawName) = tab := by
      rintro _ _ rfl
      rfl
    apply congrArg Except.ok
    apply hmake
    rw [hsize, hchars]
  · rintro ⟨hne, hneg⟩
    rw [hsize] at hne
    rw [hat (fun hnil => hne (by rw [hnil]; rfl))] at hneg
    omega

/-- Record number and table name, with which each change record ends. -/
theorem getEnd_at {rid : RawRid} {tab : RawName} (h : bs = a ++ endBytes rid tab)
    (hoff : offset = a.length) (hlt : offset + 8 < 2147483648)
    (hfit : tab.chars = [] ∨ offset + 16 < 2147483648) :
    getEnd (m.write 0 bs) offset = .ok (rid, tab) := by
  have hrid : getRid (m.write 0 bs) offset = .ok rid := getRid_at h hoff
  have hname : getName (m.write 0 bs) (addSizeof offset 8) = .ok tab := by
    rw [addSizeof_eq (by omega) (by omega)]
    apply getName_at (a := a ++ (bytes32 rid.pageNo ++ bytes32 rid.slotNo))
    · simp only [h, endBytes, List.append_assoc]
    · rw [List.length_append, length_rid, hoff]
      rfl
    · exact hfit.imp_right fun h16 => by omega
  unfold getEnd
  rw [hrid, RawError.ok_bind, hname]
  rfl

end Read

/-- The bytes of the record, and its length. -/
theorem RawLogRecord.length_bytes {r : RawLogRecord} {k : Nat} {tab : RawName}
    (hname : r.body.nameAt = some (k, tab)) :
    (r.header ++ r.body.bytes).length = k + 8 + tab.chars.length := by
  rw [List.length_append, r.length_header]
  unfold RawBody.nameAt RawBody.bytes at *
  split at hname
  · cases hname
  · cases hname
  · cases hname
  · obtain ⟨rfl, rfl⟩ := Prod.mk.inj (Option.some.inj hname)
    simp only [List.length_append, RawRecord.length_bytes, length_endBytes]
    omega
  · obtain ⟨rfl, rfl⟩ := Prod.mk.inj (Option.some.inj hname)
    simp only [List.length_append, RawRecord.length_bytes, length_endBytes]
    omega
  · obtain ⟨rfl, rfl⟩ := Prod.mk.inj (Option.some.inj hname)
    simp only [List.length_append, RawRecord.length_bytes, length_endBytes]
    omega

/-- The constructor counts in a `uint32_t`. -/
theorem RawLogRecord.logTotLen_eq (r : RawLogRecord) :
    r.body.logTotLen.toNat = (r.header ++ r.body.bytes).length % 4294967296 := by
  rw [List.length_append, r.length_header]
  unfold RawBody.logTotLen RawBody.bytes
  split
  · simp
  · simp
  · simp
  all_goals
    simp only [List.length_append, RawRecord.length_bytes, length_endBytes, BitVec.toNat_add,
      BitVec.toNat_ofNat, Nat.add_mod_mod, Nat.mod_add_mod, Nat.reducePow,
      BitVec.reduceToNat, Nat.reduceAdd]
    congr 1
    omega

section Body

variable {bs a : List UInt8} {m : RawMemory} {rid : RawRid} {tab : RawName}

/-- The value, the rid and the name of an INSERT or a DELETE. -/
theorem getOneValue_at {value : RawRecord} (h : bs = a ++ (value.bytes ++ endBytes rid tab))
    (ha : a.length = 20) (hk : 32 + value.data.length < 2147483648)
    (htab : tab.chars = [] ∨ 32 + value.data.length + 8 < 2147483648)
    (make : RawRecord → RawRid → RawName → RawBody) :
    getOneValue (m.write 0 bs) make = .ok (make value rid tab) := by
  have hvalue : getRmRecord (m.write 0 bs) 20 = .ok value := getRmRecord_at h (by omega)
  have hend : getEnd (m.write 0 bs) (addSizeof (20 + value.data.length) 4) = .ok (rid, tab) := by
    rw [addSizeof_eq (by omega) (by omega)]
    apply getEnd_at (a := a ++ value.bytes)
    · rw [h, List.append_assoc]
    · rw [List.length_append, value.length_bytes]
      omega
    · omega
    · exact htab.imp_right fun h => by omega
  unfold getOneValue
  rw [hvalue, RawError.ok_bind, addSize_eq (by omega), RawError.ok_bind, hend]
  rfl

/-- The values, the rid and the name of an UPDATE. -/
theorem getTwoValues_at {before after : RawRecord}
    (h : bs = a ++ (before.bytes ++ (after.bytes ++ endBytes rid tab))) (ha : a.length = 20)
    (hk : 36 + before.data.length + after.data.length < 2147483648)
    (htab : tab.chars = [] ∨ 36 + before.data.length + after.data.length + 8 < 2147483648) :
    getTwoValues (m.write 0 bs) = .ok (.update before after rid tab) := by
  have hbefore : getRmRecord (m.write 0 bs) 20 = .ok before := getRmRecord_at h (by omega)
  have hbehind : addSizeof (20 + before.data.length) 4 = 20 + before.data.length + (4 : Nat) :=
    addSizeof_eq (by omega) (by omega)
  have hafter : getRmRecord (m.write 0 bs) (addSizeof (20 + before.data.length) 4) = .ok after := by
    rw [hbehind]
    apply getRmRecord_at (a := a ++ before.bytes)
    · rw [h, List.append_assoc]
    · rw [List.length_append, before.length_bytes]
      omega
  have hend : getEnd (m.write 0 bs)
      (addSizeof (addSizeof (20 + before.data.length) 4) (after.data.length + 4)) = .ok (rid, tab) := by
    rw [hbehind, addSizeof_eq (by omega) (by omega)]
    apply getEnd_at (a := a ++ (before.bytes ++ after.bytes))
    · simp only [h, List.append_assoc]
    · rw [List.length_append, List.length_append, before.length_bytes, after.length_bytes]
      omega
    · omega
    · exact htab.imp_right fun h => by omega
  unfold getTwoValues
  rw [hbefore, RawError.ok_bind, addSize_eq (by omega), RawError.ok_bind]
  dsimp only
  rw [hafter, RawError.ok_bind, hend]
  rfl

/-- What is behind the header. -/
theorem getBody_at {body : RawBody} (hfit : body.OffsetsFit) (ha : a.length = 20) :
    getBody (m.write 0 (a ++ body.bytes)) body.type = .ok body := by
  cases body with
  | begin | commit | abort => rfl
  | insert value rid tab =>
    obtain ⟨hk, htab⟩ := hfit _ _ rfl
    exact getOneValue_at rfl ha hk htab .insert
  | delete value rid tab =>
    obtain ⟨hk, htab⟩ := hfit _ _ rfl
    exact getOneValue_at rfl ha hk htab .delete
  | update before after rid tab =>
    obtain ⟨hk, htab⟩ := hfit _ _ rfl
    exact getTwoValues_at rfl ha hk htab

end Body

/-- **What `deserialize` reads** of the bytes that `serialize` has written, whatever is behind them. -/
theorem RawLogRecord.deserialize_eq (r : RawLogRecord) (hfit : r.body.OffsetsFit) (m : RawMemory) :
    deserialize (m.write 0 (r.header ++ r.body.bytes)) = .ok (r, r.body.logTotLen) := by
  have hbody : getBody (m.write 0 (r.header ++ r.body.bytes)) r.body.type = .ok r.body :=
    getBody_at hfit r.length_header
  revert hbody
  generalize hbs : r.header ++ r.body.bytes = bs
  intro hbody
  have hsplit : bs = bytes32 r.body.type ++ (bytes32 r.lsn ++ (bytes32 r.body.logTotLen ++
      (bytes32 r.logTid ++ (bytes32 r.prevLsn ++ r.body.bytes)))) := by
    rw [← hbs, header]
    simp only [List.append_assoc]
  have htype : get32 (m.write 0 bs) 0 = .ok r.body.type := get32_at (a := []) hsplit rfl
  have hlsn : get32 (m.write 0 bs) 4 = .ok r.lsn :=
    get32_at (a := bytes32 r.body.type) hsplit (by simp)
  have htot : get32 (m.write 0 bs) 8 = .ok r.body.logTotLen := by
    apply get32_at (a := bytes32 r.body.type ++ bytes32 r.lsn)
      (c := bytes32 r.logTid ++ (bytes32 r.prevLsn ++ r.body.bytes))
    · simp only [hsplit, List.append_assoc]
    · simp
  have htid : get32 (m.write 0 bs) 12 = .ok r.logTid := by
    apply get32_at (a := bytes32 r.body.type ++ (bytes32 r.lsn ++ bytes32 r.body.logTotLen))
      (c := bytes32 r.prevLsn ++ r.body.bytes)
    · simp only [hsplit, List.append_assoc]
    · simp
  have hprev : get32 (m.write 0 bs) 16 = .ok r.prevLsn := by
    apply get32_at (c := r.body.bytes)
      (a := bytes32 r.body.type ++ (bytes32 r.lsn ++ (bytes32 r.body.logTotLen ++ bytes32 r.logTid)))
    · simp only [hsplit, List.append_assoc]
    · simp
  unfold RawLogRecord.deserialize
  rw [htype, RawError.ok_bind, hlsn, RawError.ok_bind, htot, RawError.ok_bind, htid, RawError.ok_bind,
    hprev, RawError.ok_bind, hbody]
  rfl

/-! ### The records of the log -/

/-- A `Rid` in 32 bits. -/
def Rid.raw (rid : Rid) : RawRid := ⟨BitVec.ofInt 32 rid.pageNo, BitVec.ofInt 32 rid.slotNo⟩

/-- The characters of a name. -/
def rawName (tab : String) (h : tab.utf8ByteSize < 2147483648) : RawName :=
  ⟨tab.toUTF8.data.toList, Nat.lt_trans h (by decide)⟩

/-! The parts of a body are no longer than the body. -/

/-- The inserted record fits if the log record does. -/
theorem LogBody.inserted_lt (value : List UInt8) (rid : Rid) (tab : String)
    (h : (LogBody.change (.insert value rid tab)).len < 2147483648) : value.length < 2147483648 := by
  simp only [LogBody.len] at h
  omega

/-- The table name of an insert fits if the log record does. -/
theorem LogBody.insertTab_lt (value : List UInt8) (rid : Rid) (tab : String)
    (h : (LogBody.change (.insert value rid tab)).len < 2147483648) : tab.utf8ByteSize < 2147483648 := by
  simp only [LogBody.len] at h
  omega

/-- The deleted record fits if the log record does. -/
theorem LogBody.deleted_lt (value : List UInt8) (rid : Rid) (tab : String)
    (h : (LogBody.change (.delete value rid tab)).len < 2147483648) : value.length < 2147483648 := by
  simp only [LogBody.len] at h
  omega

/-- The table name of a delete fits if the log record does. -/
theorem LogBody.deleteTab_lt (value : List UInt8) (rid : Rid) (tab : String)
    (h : (LogBody.change (.delete value rid tab)).len < 2147483648) : tab.utf8ByteSize < 2147483648 := by
  simp only [LogBody.len] at h
  omega

/-- The old record of an update fits if the log record does. -/
theorem LogBody.before_lt (before after : List UInt8) (rid : Rid) (tab : String)
    (h : (LogBody.change (.update before after rid tab)).len < 2147483648) :
    before.length < 2147483648 := by
  simp only [LogBody.len] at h
  omega

/-- The new record of an update fits if the log record does. -/
theorem LogBody.after_lt (before after : List UInt8) (rid : Rid) (tab : String)
    (h : (LogBody.change (.update before after rid tab)).len < 2147483648) :
    after.length < 2147483648 := by
  simp only [LogBody.len] at h
  omega

/-- The table name of an update fits if the log record does. -/
theorem LogBody.updateTab_lt (before after : List UInt8) (rid : Rid) (tab : String)
    (h : (LogBody.change (.update before after rid tab)).len < 2147483648) :
    tab.utf8ByteSize < 2147483648 := by
  simp only [LogBody.len] at h
  omega

/-- The body of a record that is not too long for the types of the source. -/
def LogBody.raw (b : LogBody) (h : b.len < 2147483648) : RawBody :=
  match b, h with
  | .begin, _ => .begin
  | .commit, _ => .commit
  | .abort, _ => .abort
  | .change (.insert value rid tab), h =>
    .insert ⟨value, inserted_lt value rid tab h⟩ rid.raw (rawName tab (insertTab_lt value rid tab h))
  | .change (.delete value rid tab), h =>
    .delete ⟨value, deleted_lt value rid tab h⟩ rid.raw (rawName tab (deleteTab_lt value rid tab h))
  | .change (.update before after rid tab), h =>
    .update ⟨before, before_lt before after rid tab h⟩ ⟨after, after_lt before after rid tab h⟩ rid.raw
      (rawName tab (updateTab_lt before after rid tab h))

def LogRecord.raw (r : LogRecord) (h : r.body.len < 2147483648) : RawLogRecord where
  lsn := BitVec.ofInt 32 r.lsn
  logTid := BitVec.ofInt 32 r.logTid
  prevLsn := BitVec.ofInt 32 r.prevLsn
  body := r.body.raw h

/-- An `int` in memory is its 32 bits. -/
theorem bytes32_ofInt (n : Int) : bytes32 (BitVec.ofInt 32 n) = int32Le n := by
  rw [bytes32, int32Le, BitVec.toNat_ofInt]
  rfl

/-- The type of the raw record is that of the log record. -/
theorem LogBody.type_raw (b : LogBody) (h : b.len < 2147483648) :
    bytes32 (b.raw h).type = int32Le b.type := by
  rcases b with _ | _ | _ | (_ | _ | _) <;> rfl

/-- The raw body has the bytes of the serialized one. -/
theorem LogBody.bytes_raw (b : LogBody) (h : b.len < 2147483648) : (b.raw h).bytes = b.serialize := by
  have hvalue : ∀ (data : List UInt8) (hd : data.length < 2147483648),
      RawRecord.bytes ⟨data, hd⟩ = serializeRecord data := by
    intro data hd
    have hsize : BitVec.ofNat 32 data.length = BitVec.ofInt 32 data.length := by simp
    rw [RawRecord.bytes, hsize, bytes32_ofInt, serializeRecord]
  have hend : ∀ (rid : Rid) (tab : String) (ht : tab.utf8ByteSize < 2147483648),
      endBytes rid.raw (rawName tab ht) = rid.serialize ++ serializeName tab := by
    intro rid tab ht
    simp only [endBytes, Rid.raw, bytes32_ofInt, Rid.serialize, serializeName, rawName]
    rfl
  unfold LogBody.raw
  split <;> simp only [RawBody.bytes, LogBody.serialize, hvalue, hend]

/-- A record below 2^31 bytes has no overflow in its offsets. -/
theorem LogBody.raw_fits (b : LogBody) (h : logHeaderSize + b.len < 2147483648) :
    (b.raw (by omega)).Fits := by
  have hname : ∀ k tab, (b.raw (by omega)).nameAt = some (k, tab) →
      k + 8 + tab.chars.length = logHeaderSize + b.len := by
    intro k tab hk
    have hlen := RawLogRecord.length_bytes (r := ⟨0, 0, 0, b.raw (by omega)⟩) hk
    rw [List.length_append, RawLogRecord.length_header, b.bytes_raw, b.length_serialize] at hlen
    exact hlen.symm
  refine ⟨fun k tab hk => ?_, fun k tab hk => ?_⟩
  · have heq := hname k tab hk
    exact ⟨by omega, Or.inr (by omega)⟩
  · have heq := hname k tab hk
    omega

/-- **The bytes of the log** are those that `serialize` writes at the offsets of the source. -/
theorem LogRecord.serialize_raw (r : LogRecord) (h : r.totLen < 2147483648) (m : RawMemory) :
    (r.raw (by unfold totLen at h; omega)).serialize m = .ok (m.write 0 r.serialize) := by
  unfold totLen at h
  have hfit := r.body.raw_fits h
  rw [RawLogRecord.serialize_eq _ hfit.1]
  apply congrArg Except.ok
  apply congrArg (m.write 0)
  have htot : bytes32 (r.body.raw (by omega)).logTotLen = leBytes r.totLen 4 := by
    have heq := RawLogRecord.logTotLen_eq (r.raw (by omega))
    rw [List.length_append, RawLogRecord.length_header] at heq
    rw [bytes32, show (r.body.raw (by omega)).logTotLen.toNat = _ from heq]
    have hbytes : (r.raw (by omega)).body.bytes = r.body.serialize := r.body.bytes_raw _
    rw [hbytes, r.body.length_serialize, Nat.mod_eq_of_lt]
    · rfl
    · unfold logHeaderSize at h
      omega
  unfold RawLogRecord.header LogRecord.serialize
  simp only [LogRecord.raw, LogBody.type_raw, htot, bytes32_ofInt, LogBody.bytes_raw, List.append_assoc]

/-- The record of an update, in memory that holds something else. -/
theorem LogRecord.serialize_raw_update :
    ((LogRecord.new 1 0 (.change (.update [7, 0, 0, 0] [8, 0, 0, 0] ⟨1, 0⟩ "t"))).raw (by decide)).serialize
        (fun _ => 255) =
      .ok (RawMemory.write (fun _ => 255) 0
        (LogRecord.new 1 0 (.change (.update [7, 0, 0, 0] [8, 0, 0, 0] ⟨1, 0⟩ "t"))).serialize) :=
  LogRecord.serialize_raw (LogRecord.new 1 0 (.change (.update [7, 0, 0, 0] [8, 0, 0, 0] ⟨1, 0⟩ "t")))
    (by decide) fun _ => 255

/-! ### When a record is read back -/

/-- **The record makes the round trip**: exactly `log_tot_len_` bytes are written, and whatever stands
    behind them the record is read from them again. -/
def RawLogRecord.RoundTrips (r : RawLogRecord) : Prop :=
  ∃ bs : List UInt8, bs.length = r.body.logTotLen.toNat ∧ (∀ m, r.serialize m = .ok (m.write 0 bs)) ∧
    ∀ m, deserialize (RawMemory.write m 0 bs) = .ok (r, r.body.logTotLen)

/-- **When a record makes the round trip**: exactly if its offsets are `int`s and its length is a
    `uint32_t`. -/
theorem roundTrips_iff (r : RawLogRecord) : r.RoundTrips ↔ r.body.Fits := by
  constructor
  · rintro ⟨bs, hlen, hser, -⟩
    have hfit : r.body.OffsetsFit := by
      by_contra hno
      obtain ⟨e, he⟩ := r.serialize_fails hno fun _ => 0
      rw [hser] at he
      cases he
    refine ⟨hfit, fun k tab hname => ?_⟩
    have hsame : bs.length = (r.header ++ r.body.bytes).length := by
      apply RawMemory.length_eq_of_write
      intro m
      have hm := hser m
      rw [r.serialize_eq hfit] at hm
      exact (Except.ok.inj hm).symm
    rw [hlen, r.logTotLen_eq, RawLogRecord.length_bytes hname] at hsame
    omega
  · rintro ⟨hfit, hshort⟩
    refine ⟨r.header ++ r.body.bytes, ?_, r.serialize_eq hfit, r.deserialize_eq hfit⟩
    rw [r.logTotLen_eq, Nat.mod_eq_of_lt]
    cases hname : r.body.nameAt with
    | some x =>
      obtain ⟨k, tab⟩ := x
      rw [RawLogRecord.length_bytes hname]
      exact hshort k tab hname
    | none =>
      rw [List.length_append, r.length_header]
      cases hb : r.body with
      | begin | commit | abort => simp [RawBody.bytes]
      | insert | delete | update =>
        rw [hb] at hname
        cases hname

/-- A value of `2^31 - 32` bytes. -/
def hugeValue : RawRecord := ⟨List.replicate 2147483616 0, by rw [List.length_replicate]; omega⟩

/-- Its insert into a table. -/
def hugeInsert : RawLogRecord where
  lsn := 1
  logTid := 0
  prevLsn := 0
  body := .insert hugeValue ⟨1, 0⟩ ⟨[116], by decide⟩

/-- Its length. -/
theorem length_hugeValue : hugeValue.data.length = 2147483616 := List.length_replicate

/-- **A record that is not read back**: `offset` is negative when the length of the table name is to be
    written. -/
theorem hugeInsert_not_written :
    (∀ m, ∃ e, hugeInsert.serialize m = .error e) ∧ ¬ ∀ r : RawLogRecord, r.RoundTrips := by
  have hno : ¬ hugeInsert.body.OffsetsFit := by
    intro hfit
    have hk := (hfit (32 + hugeValue.data.length) ⟨[116], by decide⟩ rfl).1
    rw [length_hugeValue] at hk
    omega
  have hfails := hugeInsert.serialize_fails hno
  refine ⟨hfails, fun hall => ?_⟩
  obtain ⟨bs, -, hser, -⟩ := hall hugeInsert
  obtain ⟨e, he⟩ := hfails fun _ => 0
  rw [hser] at he
  cases he

end Rmdb
