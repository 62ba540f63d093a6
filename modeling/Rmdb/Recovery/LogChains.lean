import Rmdb.Lib.BackChain
import Rmdb.Lib.Transition
import Rmdb.Recovery.LogBytes

namespace Rmdb

open Lib

/-!
# The chains of log records (`prev_lsn_`)

`begin`, `commit`, `abort` and the three executors log alike: the record gets the transaction's
`prev_lsn_`, `add_log_to_buffer` numbers it and writes it out under the latch of the log, and the number
becomes the `prev_lsn_` of the transaction.  Other transactions can log between these.

* `LogWriter` — the log manager with its bytes; `lsn_t` is an `int`;
* `logSystem` — any number of transactions that log;
* `LogSystem.Inv` — how the records of a transaction, its `prev_lsn_` and where it is agree;
* `logChains_iff` — the log is in order just as long as the numbers do not come round.
-/

/-! ### The log manager -/

/-- `class LogManager` with its buffer and the log file, as bytes. -/
structure LogWriter where
  globalLsn : Lsn
  /-- `log_buffer_` up to `offset_`. -/
  buffer : List UInt8
  /-- What has been appended to the log file. -/
  file : List UInt8

/-- A new log manager. -/
def LogWriter.new : LogWriter := ⟨0, [], []⟩

/-- `LogManager::flush_log_to_disk`. -/
def LogWriter.flushLogToDisk (w : LogWriter) : LogWriter :=
  { w with buffer := [], file := w.file ++ w.buffer }

/-- `global_lsn_++`, which comes round. -/
def nextLsn (lsn : Lsn) : Lsn := Int.bmod (lsn + 1) (2 ^ 32)

/-- `LogManager::add_log_to_buffer`; there is no result if the record is longer than the buffer. -/
def LogWriter.addLogToBuffer (w : LogWriter) (record : LogRecord) : Option (Lsn × LogWriter) :=
  let w := if logBufferSize < w.buffer.length + record.totLen then w.flushLogToDisk else w
  let record := { record with lsn := w.globalLsn }
  -- `buffer_` has one byte more than it is said to hold
  if w.buffer.length + record.totLen ≤ logBufferSize + 1 then
    let w := { w with globalLsn := nextLsn w.globalLsn, buffer := w.buffer ++ record.serialize }
    some (record.lsn, w.flushLogToDisk)
  else none

/-- The buffer is written out with the record. -/
theorem LogWriter.addLogToBuffer_eq {w w' : LogWriter} {record : LogRecord} {lsn : Lsn}
    (h : w.addLogToBuffer record = some (lsn, w')) : lsn = w.globalLsn ∧
      w' = ⟨nextLsn w.globalLsn, [], w.file ++ w.buffer ++ { record with lsn := w.globalLsn }.serialize⟩ := by
  unfold LogWriter.addLogToBuffer at h
  by_cases hfull : logBufferSize < w.buffer.length + record.totLen
  · simp only [hfull, if_true, Option.ite_none_right_eq_some, Option.some.injEq, Prod.mk.injEq] at h
    obtain ⟨-, hlsn, hw⟩ := h
    exact ⟨hlsn.symm, by simp [← hw, LogWriter.flushLogToDisk]⟩
  · simp only [hfull, if_false, Option.ite_none_right_eq_some, Option.some.injEq, Prod.mk.injEq] at h
    obtain ⟨-, hlsn, hw⟩ := h
    exact ⟨hlsn.symm, by simp [← hw, LogWriter.flushLogToDisk]⟩

/-- A record that fits in the buffer is written. -/
theorem LogWriter.exists_addLogToBuffer {w : LogWriter} {record : LogRecord} (hbuffer : w.buffer = [])
    (hlen : record.totLen ≤ logBufferSize) : ∃ r, w.addLogToBuffer record = some r := by
  have hroom : w.buffer.length + record.totLen ≤ logBufferSize := by
    rw [hbuffer]
    simpa using hlen
  unfold LogWriter.addLogToBuffer
  rw [if_neg (Nat.not_lt.mpr hroom)]
  exact ⟨_, if_pos (Nat.le_succ_of_le hroom)⟩

/-! ### The transactions -/

/-- Where a transaction is with its record. -/
inductive LogPc where
  | idle
  /-- The record has its `prev_lsn_`. -/
  | linked (record : LogRecord)
  /-- `add_log_to_buffer` has returned. -/
  | appended (lsn : Lsn)

/-- A transaction, as far as the log is concerned. -/
structure LoggingTxn where
  prevLsn : Lsn
  pc : LogPc

/-- The log manager, the transactions and, for the statements, the records in the order of the calls. -/
structure LogSystem where
  writer : LogWriter
  /-- `next_txn_id_`; it does not come round before the numbers of the records do. -/
  nextTxnId : TxnId
  txns : TxnId → Option LoggingTxn
  log : List LogRecord

/-- What can happen. -/
inductive LogAct where
  /-- `begin` makes a transaction and its record. -/
  | begin
  /-- Another record of a transaction gets its `prev_lsn_`. -/
  | link (t : TxnId) (body : LogBody)
  | append (t : TxnId)
  | setPrevLsn (t : TxnId)
  | flush

namespace LogSystem

/-- Before the first transaction. -/
def start : LogSystem where
  writer := .new
  nextTxnId := 0
  txns := fun _ => none
  log := []

/-- A transaction has come further. -/
def put (s : LogSystem) (t : TxnId) (x : LoggingTxn) : LogSystem :=
  { s with txns := Function.update s.txns t (some x) }

/-- One step, where it is possible. -/
def step (s : LogSystem) : LogAct → Option LogSystem
  | .begin =>
    let t := s.nextTxnId
    let record := LogRecord.new t invalidLsn .begin
    some { s.put t ⟨invalidLsn, .linked record⟩ with nextTxnId := s.nextTxnId + 1 }
  | .link t body =>
    match s.txns t with
    | some ⟨prevLsn, .idle⟩ => some (s.put t ⟨prevLsn, .linked (LogRecord.new t prevLsn body)⟩)
    | _ => none
  | .append t =>
    match s.txns t with
    | some ⟨prevLsn, .linked record⟩ =>
      (s.writer.addLogToBuffer record).map fun r =>
        { s.put t ⟨prevLsn, .appended r.1⟩ with
          writer := r.2
          log := s.log ++ [{ record with lsn := r.1 }] }
    | _ => none
  | .setPrevLsn t =>
    match s.txns t with
    | some ⟨_, .appended lsn⟩ => some (s.put t ⟨lsn, .idle⟩)
    | _ => none
  | .flush => some { s with writer := s.writer.flushLogToDisk }

end LogSystem

/-- **The system**: any number of transactions, in any order. -/
def logSystem : TransitionSystem LogSystem LogAct where
  init s := s = .start
  step s a s' := s.step a = some s'

/-! ### What the log should be -/

/-- The records of a transaction. -/
def recordsOf (t : TxnId) (log : List LogRecord) : List LogRecord := log.filter fun r => r.logTid = t

/-- **The chain of a transaction**: from this number back over `prev_lsn_` one comes to just its records,
newest first, and the oldest is its `BEGIN`. -/
structure ChainOf (log : List LogRecord) (t : TxnId) (lsn : Lsn) : Prop where
  begins : ∃ first rest, recordsOf t log = first :: rest ∧ first.body = .begin ∧ first.prevLsn = invalidLsn
  follows : ∀ n, (recordsOf t log).length ≤ n →
    follow LogRecord.lsn LogRecord.prevLsn log n lsn = (recordsOf t log).reverse

/-- **The log is in order.**  A transaction that has just been given a number has not set it yet; one whose
`BEGIN` is still to be written has no chain. -/
structure LogSystem.InOrder (s : LogSystem) : Prop where
  lsns : s.log.map LogRecord.lsn = (List.range s.log.length).map fun i : Nat => (i : Int)
  bytes : s.writer.file = s.log.flatMap (·.serialize)
  chains : ∀ t prevLsn, s.txns t = some ⟨prevLsn, .idle⟩ → ChainOf s.log t prevLsn
  linked : ∀ t prevLsn record, s.txns t = some ⟨prevLsn, .linked record⟩ →
    recordsOf t s.log = [] ∧ record.body = .begin ∧ prevLsn = invalidLsn ∨ ChainOf s.log t prevLsn
  appended : ∀ t prevLsn lsn, s.txns t = some ⟨prevLsn, .appended lsn⟩ → ChainOf s.log t lsn

/-! ### The invariant -/

section Records

variable {log : List LogRecord} {t t' : TxnId} {r : LogRecord}

/-- A record of the transaction. -/
theorem recordsOf_snoc_self (h : r.logTid = t) : recordsOf t (log ++ [r]) = recordsOf t log ++ [r] := by
  simp [recordsOf, h]

/-- A record of another one. -/
theorem recordsOf_snoc_of_ne (h : r.logTid ≠ t) : recordsOf t (log ++ [r]) = recordsOf t log := by
  simp [recordsOf, h]

/-- The number of the newest record of the transaction. -/
def newestLsn (t : TxnId) (log : List LogRecord) : Lsn := lastKey LogRecord.lsn invalidLsn (recordsOf t log)

/-- How the transaction and its records agree. -/
def LoggingTxn.At (log : List LogRecord) (t : TxnId) (x : LoggingTxn) : Prop :=
  match x.pc with
  | .idle => recordsOf t log ≠ [] ∧ x.prevLsn = newestLsn t log
  | .linked record =>
    record.logTid = t ∧ x.prevLsn = newestLsn t log ∧ record.prevLsn = newestLsn t log ∧
      (recordsOf t log = [] → record.body = .begin)
  | .appended lsn => recordsOf t log ≠ [] ∧ lsn = newestLsn t log

/-- Records of other transactions do not matter. -/
theorem LoggingTxn.At.snoc_of_ne {x : LoggingTxn} (h : x.At log t) (hne : r.logTid ≠ t) :
    x.At (log ++ [r]) t := by
  unfold LoggingTxn.At newestLsn at h ⊢
  rwa [recordsOf_snoc_of_ne hne]

/-- **The records of a transaction** are linked, and the first one is its `BEGIN`. -/
structure OwnRecords (log : List LogRecord) (t : TxnId) : Prop where
  links : BackLinked LogRecord.lsn LogRecord.prevLsn invalidLsn (recordsOf t log)
  begins : ∀ r, (recordsOf t log).head? = some r → r.body = .begin

/-- A record of another transaction leaves the chain. -/
theorem OwnRecords.snoc_of_ne (h : OwnRecords log t) (hne : r.logTid ≠ t) : OwnRecords (log ++ [r]) t := by
  constructor
  · rw [recordsOf_snoc_of_ne hne]
    exact h.links
  · rw [recordsOf_snoc_of_ne hne]
    exact h.begins

/-- **One more record**, which names the newest. -/
theorem OwnRecords.snoc (h : OwnRecords log t) (htid : r.logTid = t) (hprev : r.prevLsn = newestLsn t log)
    (hbegin : recordsOf t log = [] → r.body = .begin) : OwnRecords (log ++ [r]) t := by
  constructor
  · rw [recordsOf_snoc_self htid, backLinked_snoc]
    exact ⟨h.links, hprev⟩
  · rw [recordsOf_snoc_self htid]
    intro first hfirst
    cases hown : recordsOf t log with
    | nil =>
      rw [hown] at hfirst
      obtain rfl : r = first := by simpa using hfirst
      exact hbegin hown
    | cons a l =>
      apply h.begins
      rw [hown] at hfirst ⊢
      simpa using hfirst

end Records

/-- The number of a record that is the `i`-th of the run. -/
def lsnAt (i : Nat) : Lsn := Int.bmod i (2 ^ 32)

/-- The numbers of the records follow each other. -/
theorem nextLsn_lsnAt (i : Nat) : nextLsn (lsnAt i) = lsnAt (i + 1) := by
  unfold nextLsn lsnAt
  rw [Int.bmod_add_bmod]
  simp

/-- Up to here the numbers have not come round. -/
theorem lsnAt_of_lt {i : Nat} (h : i < 2147483648) : lsnAt i = i := by
  unfold lsnAt
  rw [Int.bmod_eq_of_le] <;> omega

/-- **What holds between the steps.** -/
structure LogSystem.Inv (s : LogSystem) : Prop where
  lsns : s.log.map LogRecord.lsn = (List.range s.log.length).map lsnAt
  globalLsn : s.writer.globalLsn = lsnAt s.log.length
  buffer : s.writer.buffer = []
  bytes : s.writer.file = s.log.flatMap (·.serialize)
  fresh : ∀ t, s.nextTxnId ≤ t → s.txns t = none
  unknown : ∀ t, s.txns t = none → recordsOf t s.log = []
  own : ∀ t, OwnRecords s.log t
  txn : ∀ t x, s.txns t = some x → x.At s.log t

namespace LogSystem

variable {s s' : LogSystem} {t : TxnId} {x : LoggingTxn}

/-- The invariant holds at the start. -/
theorem start_inv : start.Inv where
  lsns := rfl
  globalLsn := (lsnAt_of_lt (i := 0) (by decide)).symm
  buffer := rfl
  bytes := rfl
  fresh _ _ := rfl
  unknown _ _ := rfl
  own t := ⟨trivial, by simp [recordsOf, start]⟩
  txn t x hx := by cases hx

/-- A transaction goes on without the log. -/
theorem Inv.put (h : s.Inv) (ht : t < s.nextTxnId) (hx : x.At s.log t) : (s.put t x).Inv where
  lsns := h.lsns
  globalLsn := h.globalLsn
  buffer := h.buffer
  bytes := h.bytes
  fresh t' ht' := by
    show Function.update s.txns t (some x) t' = none
    rw [Function.update_of_ne (lt_of_lt_of_le ht ht').ne']
    exact h.fresh t' ht'
  unknown t' hnone := by
    have hne : t' ≠ t := by
      rintro rfl
      simp [LogSystem.put] at hnone
    apply h.unknown
    simpa [LogSystem.put, hne] using hnone
  own := h.own
  txn t' x' hx' := by
    by_cases hne : t' = t
    · subst hne
      obtain rfl : x = x' := by simpa [LogSystem.put] using hx'
      exact hx
    · exact h.txn t' x' (by simpa [LogSystem.put, hne] using hx')

/-- A transaction that has begun has a smaller number than the next one. -/
theorem Inv.lt_next (h : s.Inv) (hx : s.txns t = some x) : t < s.nextTxnId := by
  by_contra hle
  rw [h.fresh t (not_lt.mp hle)] at hx
  cases hx

/-- **The record of a transaction goes into the log.** -/
theorem Inv.append (h : s.Inv) {prevLsn lsn : Lsn} {record : LogRecord} {w : LogWriter}
    (hx : s.txns t = some ⟨prevLsn, .linked record⟩) (hadd : s.writer.addLogToBuffer record = some (lsn, w)) :
    LogSystem.Inv { s.put t ⟨prevLsn, .appended lsn⟩ with
      writer := w, log := s.log ++ [{ record with lsn := lsn }] } := by
  obtain ⟨rfl, rfl⟩ := LogWriter.addLogToBuffer_eq hadd
  obtain ⟨htid, -, hprev, hbegin⟩ := h.txn t _ hx
  have hself : recordsOf t (s.log ++ [{ record with lsn := s.writer.globalLsn }]) =
      recordsOf t s.log ++ [{ record with lsn := s.writer.globalLsn }] := recordsOf_snoc_self htid
  constructor
  · -- the new record has the next number
    show (s.log ++ [_]).map LogRecord.lsn = (List.range (s.log ++ [_]).length).map lsnAt
    rw [List.map_append, h.lsns, List.length_append, List.length_singleton, List.range_succ, List.map_append]
    simp [h.globalLsn]
  · have hnext : nextLsn s.writer.globalLsn = lsnAt (s.log.length + 1) := by
      rw [h.globalLsn, nextLsn_lsnAt]
    simpa using hnext
  · rfl
  · -- its bytes are at the end of the buffer
    show s.writer.file ++ s.writer.buffer ++ _ = (s.log ++ [_]).flatMap _
    rw [h.bytes, h.buffer]
    simp
  · intro t' ht'
    show Function.update s.txns t _ t' = none
    rw [Function.update_of_ne (lt_of_lt_of_le (h.lt_next hx) ht').ne']
    exact h.fresh t' ht'
  · -- a transaction that has not begun is another one
    intro t' hnone
    have hne : t' ≠ t := by
      rintro rfl
      simp [LogSystem.put] at hnone
    show recordsOf t' (s.log ++ [_]) = []
    rw [recordsOf_snoc_of_ne (by simpa [htid] using Ne.symm hne)]
    apply h.unknown
    simpa [LogSystem.put, hne] using hnone
  · intro t'
    by_cases hne : t' = t
    · subst hne
      exact (h.own t').snoc htid hprev hbegin
    · exact (h.own t').snoc_of_ne (by simpa [htid] using Ne.symm hne)
  · intro t' x' hx'
    by_cases hne : t' = t
    · -- `prev_lsn_` is behind by one record until `set_prev_lsn`
      subst hne
      obtain rfl : (⟨prevLsn, .appended s.writer.globalLsn⟩ : LoggingTxn) = x' := by
        simpa [LogSystem.put] using hx'
      show recordsOf t' (s.log ++ [_]) ≠ [] ∧ s.writer.globalLsn = newestLsn t' (s.log ++ [_])
      unfold newestLsn
      rw [hself, lastKey_snoc]
      exact ⟨by simp, rfl⟩
    · exact (h.txn t' x' (by simpa [LogSystem.put, hne] using hx')).snoc_of_ne
        (by simpa [htid] using Ne.symm hne)

/-- **Every step keeps the invariant.** -/
theorem Inv.step (h : s.Inv) {a : LogAct} (hs : s.step a = some s') : s'.Inv := by
  cases a with
  | begin =>
    simp only [LogSystem.step, Option.some.injEq] at hs
    subst hs
    -- the transaction is new, and has no records yet
    have hnone : recordsOf s.nextTxnId s.log = [] := h.unknown _ (h.fresh _ (le_refl _))
    have hbigger : LogSystem.Inv { s with nextTxnId := s.nextTxnId + 1 } := by
      refine ⟨h.lsns, h.globalLsn, h.buffer, h.bytes, fun t ht => h.fresh t ?_, h.unknown, h.own, h.txn⟩
      exact le_trans (Int.le_add_one (le_refl _)) ht
    have hnewest : invalidLsn = newestLsn s.nextTxnId s.log := by
      unfold newestLsn
      rw [hnone]
      rfl
    exact hbigger.put (Int.lt_add_one_iff.mpr (le_refl _)) ⟨rfl, hnewest, hnewest, fun _ => rfl⟩
  | link t body =>
    simp only [LogSystem.step] at hs
    split at hs
    · next prevLsn hx =>
      cases hs
      obtain ⟨hne, hprev⟩ := h.txn t _ hx
      -- it has begun, so that its next record is no `BEGIN`
      exact h.put (h.lt_next hx) ⟨rfl, hprev, hprev, fun hnil => absurd hnil hne⟩
    · cases hs
  | append t =>
    simp only [LogSystem.step] at hs
    split at hs
    · next prevLsn record hx =>
      obtain ⟨⟨lsn, w⟩, hadd, rfl⟩ := Option.map_eq_some_iff.mp hs
      exact h.append hx hadd
    · cases hs
  | setPrevLsn t =>
    simp only [LogSystem.step] at hs
    split at hs
    · next prevLsn lsn hx =>
      cases hs
      obtain ⟨hne, hlsn⟩ := h.txn t _ hx
      exact h.put (h.lt_next hx) ⟨hne, hlsn⟩
    · cases hs
  | flush =>
    simp only [LogSystem.step, Option.some.injEq] at hs
    subst hs
    -- the bytes go from the buffer to the file
    refine ⟨h.lsns, h.globalLsn, rfl, ?_, h.fresh, h.unknown, h.own, h.txn⟩
    show s.writer.file ++ s.writer.buffer = _
    rw [h.bytes, h.buffer, List.append_nil]

end LogSystem

/-- It holds in every state reached. -/
theorem logSystem_inv {s : LogSystem} (h : logSystem.Reachable s) : s.Inv := by
  refine h.invariant ?_ ?_
  · rintro s rfl
    exact LogSystem.start_inv
  · intro s a s' hinv hs
    exact hinv.step hs

/-! ### The log is in order -/

section Order

variable {s : LogSystem} {t : TxnId}

/-- The first number that has. -/
theorem lsnAt_round : lsnAt 2147483648 = -2147483648 := by
  unfold lsnAt
  decide

/-- Short logs are numbered from 0. -/
theorem LogSystem.Inv.numbers (h : s.Inv) (hn : s.log.length ≤ 2147483648) :
    s.log.map LogRecord.lsn = (List.range s.log.length).map fun i : Nat => (i : Int) := by
  rw [h.lsns]
  apply List.map_congr_left
  intro i hi
  rw [List.mem_range] at hi
  exact lsnAt_of_lt (by omega)

/-- **The chain of a transaction**, from the number of its newest record. -/
theorem LogSystem.Inv.chain (h : s.Inv) (hn : s.log.length ≤ 2147483648) (hne : recordsOf t s.log ≠ []) :
    ChainOf s.log t (newestLsn t s.log) := by
  have hlinks := (h.own t).links
  constructor
  · cases hown : recordsOf t s.log with
    | nil => exact absurd hown hne
    | cons first rest =>
      rw [hown] at hlinks
      exact ⟨first, rest, rfl, (h.own t).begins first (by rw [hown]; rfl), hlinks.1⟩
  · intro n hlen
    have hnumbers := h.numbers hn
    apply follow_lastKey
    · rw [hnumbers]
      exact List.nodup_range.map fun i j hij => by simpa using hij
    · rw [hnumbers]
      simp [invalidLsn]
    · intro r hr
      exact (List.mem_filter.mp hr).1
    · exact hlinks
    · exact hlen

/-- **When the log is in order.**  In every run: the bytes in the log file are those of records with the
numbers 0, 1, 2 and so on, and from the `prev_lsn_` of each transaction one comes back over its records to
its `BEGIN`, just as long as no more than 2³¹ records have been logged. -/
theorem logChains_iff (h : logSystem.Reachable s) : s.InOrder ↔ s.log.length ≤ 2147483648 := by
  have hinv := logSystem_inv h
  constructor
  · intro horder
    by_contra hlong
    -- the record behind the last positive number
    have hlsn : (s.log.map LogRecord.lsn)[2147483648]? = some (2147483648 : Int) := by
      rw [horder.lsns, List.getElem?_map, List.getElem?_range (by omega)]
      rfl
    rw [hinv.lsns, List.getElem?_map, List.getElem?_range (by omega)] at hlsn
    have hround : lsnAt 2147483648 = 2147483648 := Option.some.inj hlsn
    rw [lsnAt_round] at hround
    exact absurd hround (by decide)
  · intro hn
    refine ⟨hinv.numbers hn, hinv.bytes, fun t prevLsn hx => ?_, fun t prevLsn record hx => ?_,
      fun t prevLsn lsn hx => ?_⟩
    · obtain ⟨hne, hprev⟩ := hinv.txn t _ hx
      rw [show prevLsn = newestLsn t s.log from hprev]
      exact hinv.chain hn hne
    · obtain ⟨-, hprev, -, hbegin⟩ := hinv.txn t _ hx
      by_cases hnil : recordsOf t s.log = []
      · refine Or.inl ⟨hnil, hbegin hnil, ?_⟩
        rw [show prevLsn = newestLsn t s.log from hprev, newestLsn, hnil]
        rfl
      · rw [show prevLsn = newestLsn t s.log from hprev]
        exact Or.inr (hinv.chain hn hnil)
    · obtain ⟨hne, hlsn⟩ := hinv.txn t _ hx
      rw [hlsn]
      exact hinv.chain hn hne

/-- Two transactions log between each other: one inserts a record, the other one commits. -/
def twoChains : List LogAct :=
  [.begin, .append 0, .begin, .setPrevLsn 0, .append 1, .link 0 (.change (.insert [1] ⟨1, 0⟩ "t")), .setPrevLsn 1,
    .append 0, .link 1 .commit, .append 1, .setPrevLsn 0, .setPrevLsn 1]

/-- **Their log is in order.** -/
theorem logChains_iff_two_chains : ∃ s, logSystem.Reachable s ∧ s.log.length = 4 ∧ s.InOrder := by
  have hrun : (twoChains.foldlM LogSystem.step LogSystem.start).map (fun s => s.log.length) = some 4 := by
    decide +kernel
  obtain ⟨s, hrun, hlen⟩ := Option.map_eq_some_iff.mp hrun
  have hreach : logSystem.Reachable s :=
    TransitionSystem.Reachable.foldlM (M := logSystem) (fun _ _ _ hs => hs) (.init rfl) hrun
  exact ⟨s, hreach, hlen, (logChains_iff hreach).mpr (by omega)⟩

/-! ### A long run -/

/-- A transaction begins. -/
theorem exists_begin (h : logSystem.Reachable s) :
    ∃ s', logSystem.Reachable s' ∧ s'.log.length = s.log.length + 1 := by
  have hbuffer := (logSystem_inv h).buffer
  obtain ⟨s₁, hs₁, hlog, hwriter, htxn⟩ : ∃ s₁, s.step .begin = some s₁ ∧ s₁.log = s.log ∧
      s₁.writer = s.writer ∧ s₁.txns s.nextTxnId =
        some ⟨invalidLsn, .linked (LogRecord.new s.nextTxnId invalidLsn .begin)⟩ :=
    ⟨_, rfl, rfl, rfl, Function.update_self ..⟩
  have hlen : (LogRecord.new s.nextTxnId invalidLsn .begin).totLen ≤ logBufferSize :=
    show 20 ≤ logBufferSize by decide
  obtain ⟨r, hadd⟩ := LogWriter.exists_addLogToBuffer (hwriter ▸ hbuffer) hlen
  have hs₂ : s₁.step (.append s.nextTxnId) = some { s₁.put s.nextTxnId ⟨invalidLsn, .appended r.1⟩ with
      writer := r.2
      log := s₁.log ++ [{ LogRecord.new s.nextTxnId invalidLsn .begin with lsn := r.1 }] } := by
    simp only [LogSystem.step, htxn, hadd, Option.map_some]
  refine ⟨_, (h.step hs₁).step hs₂, ?_⟩
  rw [List.length_append, hlog]
  rfl

/-- Logs of every length are reached. -/
theorem exists_log (n : Nat) : ∃ s, logSystem.Reachable s ∧ s.log.length = n := by
  induction n with
  | zero => exact ⟨.start, .init rfl, rfl⟩
  | succ n ih =>
    obtain ⟨s, hs, hlen⟩ := ih
    obtain ⟨s', hs', hlen'⟩ := exists_begin hs
    exact ⟨s', hs', by omega⟩

/-- **After 2³¹ records the next one gets the number -2³¹.** -/
theorem lsn_comes_round : ∃ s r, logSystem.Reachable s ∧ s.log[2147483648]? = some r ∧
    r.lsn = -2147483648 ∧ ¬ s.InOrder := by
  obtain ⟨s, hs, hlen⟩ := exists_log 2147483649
  have hlsn : (s.log.map LogRecord.lsn)[2147483648]? = some (-2147483648) := by
    rw [(logSystem_inv hs).lsns, List.getElem?_map, List.getElem?_range (by omega), Option.map_some, lsnAt_round]
  obtain ⟨r, hr, hrlsn⟩ := Option.map_eq_some_iff.mp ((List.getElem?_map ..).symm.trans hlsn)
  refine ⟨s, r, hs, hr, hrlsn, fun horder => ?_⟩
  rw [horder.lsns, List.getElem?_map, List.getElem?_range (by omega)] at hlsn
  have hround : ((2147483648 : Nat) : Int) = -2147483648 := Option.some.inj hlsn
  omega

end Order

end Rmdb
