import Rmdb.Lib.Transition
import Rmdb.Recovery.LogBytes

namespace Rmdb

open Lib

/-!
# Reading the log (`RecoveryManager::analyze`)

`analyze` reads the log file in windows of `LOG_BUFFER_SIZE` bytes.  In a window it goes from record to
record, up to one that does not fit; the next window begins there.

* `RecoveryManager` — the three tables, and the records that have been processed;
* `RecoveryManager.process` — what is done with a record;
* `readLog`, `scan`, `analyze` — the loops;
* `analyze_eq_ok_iff` — what `analyze` does with complete records, in terms of `lastOffset`.
-/

/-- `operator<` of `PageId`. -/
def PageId.lt (p q : PageId) : Bool := p.fd < q.fd || p.pageNo < q.pageNo

/-- `operator<` orders these pages: it does not say of two of them that each is before the other. -/
def PageId.Ordered (pages : List PageId) : Prop := ∀ p ∈ pages, ∀ q ∈ pages, p.lt q = true → q.lt p = false

/-- What `analyze` asks of the tables.  `operator<` of `PageId` does not order the pages of several files,
so the search in `dirty_page_table` is that of the library: it finds pages only that are there, and it finds
them if `operator<` orders the pages. -/
structure LogTables where
  /-- `fhs_`: the descriptor of an open table. -/
  fhs : String → Option Int
  pageLsn : PageId → Option Lsn
  find : List PageId → PageId → Option Nat
  find_key : ∀ keys p i, find keys p = some i → keys[i]? = some p
  find_mem : ∀ keys p, PageId.Ordered keys → p ∈ keys → (find keys p).isSome = true

/-- A search that finds every page. -/
def findPage (keys : List PageId) (p : PageId) : Option Nat := keys.findIdx? (· = p)

theorem findPage_key (keys : List PageId) (p : PageId) (i : Nat) (h : findPage keys p = some i) :
    keys[i]? = some p := by
  obtain ⟨hi, heq, -⟩ := List.findIdx?_eq_some_iff_getElem.mp h
  rw [List.getElem?_eq_getElem hi, of_decide_eq_true heq]

theorem findPage_mem (keys : List PageId) (p : PageId) (h : p ∈ keys) : (findPage keys p).isSome = true := by
  unfold findPage
  rw [List.findIdx?_isSome, List.any_eq_true]
  exact ⟨p, h, decide_eq_true rfl⟩

/-- `class RedoLogsInPage`. -/
structure RedoLogsInPage where
  tableFile : String
  redoLogs : List Lsn
  deriving DecidableEq, Repr

/-- `class RecoveryManager`. -/
structure RecoveryManager where
  activeTransactionTable : TxnId → Option (List Lsn)
  /-- In the order in which the pages have come in. -/
  dirtyPageTable : List (PageId × RedoLogsInPage)
  lsn2log : Lsn → Option LogRecord
  /-- The records that have been processed, with their `log_tot_len_`. -/
  records : List (LogRecord × Nat)

namespace RecoveryManager

/-- The constructor. -/
def new : RecoveryManager := ⟨fun _ => none, [], fun _ => none, []⟩

/-! ### A record -/

/-- The last lines of the cases of a change: the number is kept if it is above the first one. -/
def pushRedo (lsn : Lsn) (logs : RedoLogsInPage) : RedoLogsInPage :=
  match logs.redoLogs.head? with
  | some first => if first < lsn then { logs with redoLogs := logs.redoLogs ++ [lsn] } else logs
  | none => logs

/-- The page of a change goes into `dirty_page_table`. -/
def touchPage (env : LogTables) (s : RecoveryManager) (lsn : Lsn) (c : LoggedChange) :
    Except RecoveryError RecoveryManager :=
  match env.fhs c.tableName with
  | none => .error .outOfRange
  | some fd =>
    let pageId : PageId := ⟨fd, c.rid.pageNo⟩
    match env.find (s.dirtyPageTable.map Prod.fst) pageId with
    | some i => .ok { s with dirtyPageTable := s.dirtyPageTable.modify i fun e => (e.1, pushRedo lsn e.2) }
    | none =>
      match env.pageLsn pageId with
      | none => .error .page
      | some pageLsn =>
        let logs : RedoLogsInPage := { tableFile := c.tableName, redoLogs := [pageLsn] }
        .ok { s with dirtyPageTable := s.dirtyPageTable ++ [(pageId, pushRedo lsn logs)] }

/-- The entry of a transaction in `active_transaction_table`. -/
def setActive (s : RecoveryManager) (tid : TxnId) (lsns : Option (List Lsn)) : RecoveryManager :=
  { s with activeTransactionTable := Function.update s.activeTransactionTable tid lsns }

/-- The `switch`: `active_transaction_table` and `dirty_page_table`. -/
def updateTables (env : LogTables) (s : RecoveryManager) (r : LogRecord) :
    Except RecoveryError RecoveryManager :=
  let own := s.activeTransactionTable r.logTid
  match r.body with
  | .begin =>
    -- `emplace` constructs a vector of `lsn_` zeros, whether or not there is one already
    if r.lsn < 0 then .error .lengthError
    else .ok (s.setActive r.logTid (some (own.getD (List.replicate r.lsn.toNat 0))))
  | .abort | .commit => .ok (s.setActive r.logTid none)
  | .change c => (s.setActive r.logTid (some (own.getD [] ++ [r.lsn]))).touchPage env r.lsn c

/-- What is done with a record. -/
def process (env : LogTables) (s : RecoveryManager) (r : LogRecord × Nat) :
    Except RecoveryError RecoveryManager :=
  (s.updateTables env r.1).map fun s => { s with
    lsn2log := Function.update s.lsn2log r.1.lsn (some r.1)
    records := s.records ++ [r] }

end RecoveryManager

/-! ### The loops -/

/-- The four bytes at an offset of the window. -/
def wordAt (window : List UInt8) (offset : Nat) : Except RecoveryError Nat :=
  if window.length < offset + 4 then .error .outside
  else .ok (ofLeBytes ((window.drop offset).take 4))

/-- The loop over the records of a window, at `offset_` and `log_offset`.  The sum with the length is
unsigned. -/
def scan (env : LogTables) (window : List UInt8) : Nat → Nat → Int → RecoveryManager →
    Except RecoveryError (Int × RecoveryManager)
  | 0, _, _, _ => .error .loops
  | fuel + 1, offset, logOffset, s =>
    (wordAt window (offset + 8)).bind fun logTotLen =>
      if logBufferSize ≤ (offset + logTotLen) % 2 ^ 32 ∨ logTotLen = 0 then .ok (logOffset, s)
      else
        (LogRecord.deserialize (window.drop offset)).bind fun r =>
          (s.process env r.1).bind fun s =>
            scan env window fuel ((offset + r.1.2) % 2 ^ 32) (Int.bmod (logOffset + r.1.2) (2 ^ 32)) s

/-- `DiskManager::read_log` with `LOG_BUFFER_SIZE`, and `std::fill` behind what was read.  The size of the
file is kept in an `int`; the result -1 makes `std::fill` begin before the buffer. -/
def readLog (file : List UInt8) (offset : Int) : Except RecoveryError (Nat × List UInt8) :=
  let fileSize := Int.bmod file.length (2 ^ 32)
  if fileSize < offset then .error .outside
  else
    let size := min logBufferSize (fileSize - offset).toNat
    .ok (size, (file.drop offset.toNat).take size ++ List.replicate (logBufferSize - size) 0)

/-- The loop over the windows. -/
def analyzeFrom (env : LogTables) (file : List UInt8) : Nat → Int → RecoveryManager →
    Except RecoveryError RecoveryManager
  | 0, _, _ => .error .loops
  | fuel + 1, logOffset, s =>
    (readLog file logOffset).bind fun w =>
      (scan env w.2 (w.2.length + 1) 0 logOffset s).bind fun r =>
        if w.1 < logBufferSize then .ok r.2 else analyzeFrom env file fuel r.1 r.2

/-- `RecoveryManager::analyze` on this log file. -/
def analyze (env : LogTables) (file : List UInt8) : Except RecoveryError RecoveryManager :=
  analyzeFrom env file (file.length + 2) 0 .new

/-! ### Records one after the other -/

/-- What is in the window from an offset on: these bytes of the file, and zeros. -/
def Shows (window : List UInt8) (offset : Nat) (bytes : List UInt8) : Prop :=
  window.drop offset = (bytes ++ List.replicate logBufferSize 0).take (logBufferSize - offset)

/-- A place in a window: the window begins at `start` in the file, `fuel` and `inner` are those of the two
loops. -/
structure Reading where
  window : List UInt8
  logBytes : Nat
  start : Nat
  offset : Nat
  fuel : Nat
  inner : Nat

namespace Reading

variable {env : LogTables} {file : List UInt8} {R : Reading} {s : RecoveryManager} {r : LogRecord}
  {rest : List UInt8}

/-- What `analyze` still does from here on. -/
def run (R : Reading) (env : LogTables) (file : List UInt8) (s : RecoveryManager) :
    Except RecoveryError RecoveryManager :=
  (scan env R.window R.inner R.offset (R.start + R.offset : Nat) s).bind fun r =>
    if R.logBytes < logBufferSize then .ok r.2 else analyzeFrom env file R.fuel r.1 r.2

/-- The rest of the file is `rest`. -/
structure At (R : Reading) (file rest : List UInt8) : Prop where
  bytes : file.drop (R.start + R.offset) = rest
  le : R.start + R.offset ≤ file.length
  shows : Shows R.window R.offset rest
  length : R.window.length = logBufferSize
  inner : logBufferSize < R.inner + R.offset
  logBytes : R.logBytes = min logBufferSize (file.length - R.start)

/-- Behind a record. -/
def advance (R : Reading) (n : Nat) : Reading :=
  { R with offset := R.offset + n, inner := R.inner - 1 }

/-- At the start of a window. -/
def atStart (file : List UInt8) (start fuel : Nat) : Reading where
  window := (file.drop start ++ List.replicate logBufferSize 0).take logBufferSize
  logBytes := min logBufferSize (file.length - start)
  start := start
  offset := 0
  fuel := fuel
  inner := logBufferSize + 1

theorem length_atStart (file : List UInt8) (start fuel : Nat) :
    (atStart file start fuel).window.length = logBufferSize := by
  show ((file.drop start ++ List.replicate logBufferSize 0).take logBufferSize).length = _
  rw [List.length_take, List.length_append, List.length_replicate]
  omega

theorem at_atStart {start fuel : Nat} (hle : start ≤ file.length) :
    (atStart file start fuel).At file (file.drop start) where
  bytes := rfl
  le := hle
  shows := by
    unfold Shows atStart
    rw [Nat.sub_zero, List.drop_zero]
  length := length_atStart file start fuel
  inner := Nat.lt_succ_self _
  logBytes := rfl

/-- The next window. -/
theorem analyzeFrom_eq {start fuel : Nat} (hsize : file.length < 2 ^ 31) (hle : start ≤ file.length) :
    analyzeFrom env file (fuel + 1) start s = (atStart file start fuel).run env file s := by
  have hbmod : Int.bmod file.length (2 ^ 32) = file.length := by
    rw [Int.bmod_eq_iff (by decide)]
    exact ⟨by omega, by omega, by omega⟩
  have hwindow : (file.drop start).take (min logBufferSize (file.length - start)) ++
      List.replicate (logBufferSize - min logBufferSize (file.length - start)) 0 =
      (atStart file start fuel).window := by
    unfold atStart
    dsimp only
    rw [List.take_append, List.take_replicate, List.length_drop]
    rcases Nat.le_total logBufferSize (file.length - start) with h | h
    · rw [Nat.min_eq_left h, Nat.sub_self, Nat.sub_eq_zero_of_le h, Nat.zero_min]
    · rw [Nat.min_eq_right h, List.take_of_length_le (le_of_eq List.length_drop),
        List.take_of_length_le (by rw [List.length_drop]; exact h), Nat.min_eq_left (Nat.sub_le _ _)]
  have hread : readLog file start =
      .ok ((atStart file start fuel).logBytes, (atStart file start fuel).window) := by
    unfold readLog
    rw [hbmod]
    dsimp only
    rw [if_neg (by omega), show ((file.length : Int) - start).toNat = file.length - start by omega,
      Int.toNat_natCast, hwindow]
    rfl
  rw [analyzeFrom, hread]
  unfold run
  dsimp only [Except.bind]
  rw [length_atStart]
  rfl

/-- The length that the loop looks at. -/
theorem At.wordAt (h : R.At file rest) (hroom : R.offset + 12 ≤ logBufferSize) :
    wordAt R.window (R.offset + 8) =
      .ok (ofLeBytes (((rest ++ List.replicate logBufferSize 0).drop 8).take 4)) := by
  have hshows := h.shows
  unfold Shows at hshows
  unfold Rmdb.wordAt
  rw [if_neg (by rw [h.length]; omega), ← List.drop_drop, hshows, List.drop_take, List.take_take,
    Nat.min_eq_left (by omega)]

/-- Near the end of the window it is outside. -/
theorem At.run_outside (h : R.At file rest) (hroom : ¬ R.offset + 12 ≤ logBufferSize)
    (s' : RecoveryManager) : R.run env file s ≠ .ok s' := by
  intro hrun
  unfold run at hrun
  have hword : Rmdb.wordAt R.window (R.offset + 8) = .error .outside := by
    unfold Rmdb.wordAt
    rw [if_pos (by rw [h.length]; omega)]
  cases hinner : R.inner with
  | zero =>
    rw [hinner] at hrun
    cases hrun
  | succ inner =>
    rw [hinner, scan, hword] at hrun
    cases hrun

theorem drop_serialize (r : LogRecord) (rest : List UInt8) :
    ((r.serialize ++ rest).drop 8).take 4 = leBytes r.totLen 4 := by
  have hsplit : r.serialize ++ rest = (int32Le r.body.type ++ int32Le r.lsn) ++ (leBytes r.totLen 4 ++
      (int32Le r.logTid ++ (int32Le r.prevLsn ++ (r.body.serialize ++ rest)))) := by
    unfold LogRecord.serialize
    simp only [List.append_assoc]
  rw [hsplit, List.drop_left' (by simp), List.take_left' (length_leBytes _ _)]

/-- The length of a record. -/
theorem At.wordAt_record (h : R.At file (r.serialize ++ rest)) (hlen : r.totLen < logBufferSize)
    (hroom : R.offset + 12 ≤ logBufferSize) : Rmdb.wordAt R.window (R.offset + 8) = .ok r.totLen := by
  have hsmall : r.totLen < 2 ^ 32 := Nat.lt_trans hlen (by decide)
  rw [h.wordAt hroom, List.append_assoc, drop_serialize, ofLeBytes_leBytes,
    Nat.mod_eq_of_lt (by rw [show (256 : Nat) ^ 4 = 2 ^ 32 by norm_num]; exact hsmall)]

theorem At.advance (h : R.At file (r.serialize ++ rest)) : (R.advance r.totLen).At file rest := by
  have hlen := r.length_serialize
  have hpos : 0 < r.totLen := Nat.lt_of_lt_of_le (by decide : 0 < logHeaderSize) (Nat.le_add_right _ _)
  have hbytes := h.bytes
  have hshows := h.shows
  unfold Shows at hshows
  have hinner := h.inner
  constructor
  · show file.drop (R.start + (R.offset + r.totLen)) = rest
    rw [← Nat.add_assoc, ← List.drop_drop, hbytes, List.drop_left' hlen]
  · have hlength := congrArg List.length hbytes
    rw [List.length_drop, List.length_append, hlen] at hlength
    show R.start + (R.offset + r.totLen) ≤ file.length
    omega
  · show R.window.drop (R.offset + r.totLen) = _
    rw [← List.drop_drop, hshows, List.drop_take, List.append_assoc, List.drop_left' hlen, Nat.sub_sub]
    rfl
  · exact h.length
  · show logBufferSize < R.inner - 1 + (R.offset + r.totLen)
    omega
  · exact h.logBytes

/-- **A record that fits is processed**, with its fields. -/
theorem At.run_record (h : R.At file (r.serialize ++ rest)) (htyped : r.Typed)
    (hsize : file.length < 2 ^ 31) (hfits : R.offset + r.totLen < logBufferSize) :
    R.run env file s = (s.process env (r, r.totLen)).bind ((R.advance r.totLen).run env file) := by
  have hlen := r.length_serialize
  have hge : 20 ≤ r.totLen := Nat.le_add_right _ _
  have hLBS : logBufferSize < 2 ^ 31 := by decide
  have hword := h.wordAt_record (by omega) (by omega)
  have hshows := h.shows
  unfold Shows at hshows
  have hinner := h.inner
  have hle := h.advance.le
  obtain ⟨inner, hinnerEq⟩ : ∃ inner, R.inner = inner + 1 := ⟨R.inner - 1, by omega⟩
  have hdes : LogRecord.deserialize (R.window.drop R.offset) =
      .ok ((r, r.totLen), (rest ++ List.replicate logBufferSize 0).take
        (logBufferSize - R.offset - r.totLen)) := by
    rw [hshows, List.append_assoc, List.take_append, hlen, List.take_of_length_le (by omega)]
    exact deserialize_serialize htyped (by omega) _
  unfold run
  rw [hinnerEq, scan, hword]
  dsimp only [Except.bind]
  rw [if_neg (by rw [Nat.mod_eq_of_lt (by omega)]; omega), hdes]
  dsimp only
  cases s.process env (r, r.totLen) with
  | error e => rfl
  | ok s' =>
    have hbmod : Int.bmod ((R.start + R.offset : Nat) + (r.totLen : Int)) (2 ^ 32) =
        ((R.start + (R.offset + r.totLen) : Nat) : Int) := by
      rw [Int.bmod_eq_iff (by decide)]
      have hle' : R.start + (R.offset + r.totLen) ≤ file.length := hle
      exact ⟨by omega, by omega, by omega⟩
    dsimp only
    rw [Nat.mod_eq_of_lt (by omega), hbmod]
    unfold Reading.advance
    dsimp only
    rw [hinnerEq, Nat.add_sub_cancel]

/-- A loop over the window that stops. -/
theorem At.run_stop (h : R.At file rest) {logTotLen : Nat}
    (hword : Rmdb.wordAt R.window (R.offset + 8) = .ok logTotLen)
    (hstop : logBufferSize ≤ (R.offset + logTotLen) % 2 ^ 32 ∨ logTotLen = 0)
    (hoffset : R.offset ≤ logBufferSize) : R.run env file s =
      if R.logBytes < logBufferSize then .ok s
      else analyzeFrom env file R.fuel (R.start + R.offset : Nat) s := by
  have hinner := h.inner
  obtain ⟨inner, hinnerEq⟩ : ∃ inner, R.inner = inner + 1 := ⟨R.inner - 1, by omega⟩
  unfold run
  rw [hinnerEq, scan, hword]
  dsimp only [Except.bind]
  rw [if_pos hstop]

/-- **A record that does not fit** is the first one of the next window. -/
theorem At.run_refill (env : LogTables) (s : RecoveryManager) (h : R.At file (r.serialize ++ rest)) (hlen : r.totLen < logBufferSize)
    (hsize : file.length < 2 ^ 31) (hfits : ¬ R.offset + r.totLen < logBufferSize)
    (hroom : R.offset + 12 ≤ logBufferSize) {fuel : Nat} (hfuel : R.fuel = fuel + 1) :
    R.run env file s = (atStart file (R.start + R.offset) fuel).run env file s ∧
      (atStart file (R.start + R.offset) fuel).At file (r.serialize ++ rest) := by
  have hLBS : logBufferSize < 2 ^ 31 := by decide
  have hlength := congrArg List.length h.bytes
  rw [List.length_drop, List.length_append, r.length_serialize] at hlength
  have hfull : R.logBytes = logBufferSize := by
    rw [h.logBytes]
    omega
  refine ⟨?_, ?_⟩
  · rw [h.run_stop (h.wordAt_record hlen hroom) (.inl (by rw [Nat.mod_eq_of_lt (by omega)]; omega))
      (by omega), hfull, if_neg (Nat.lt_irrefl _), hfuel, analyzeFrom_eq hsize h.le]
  · rw [← h.bytes]
    exact at_atStart h.le

end Reading

/-! ### All the records -/

/-- The offset, in the last window, behind records of these lengths; from a window to the next one the
length of the record that does not fit is looked at inside of the window. -/
def lastOffset : Nat → List Nat → Option Nat
  | offset, [] => some offset
  | offset, len :: lens =>
    if offset + len < logBufferSize then lastOffset (offset + len) lens
    else if offset + 12 ≤ logBufferSize then lastOffset len lens
    else none

/-- Records as `LogManager` writes them. -/
def Written (rs : List LogRecord) : Prop := ∀ r ∈ rs, r.Typed ∧ r.totLen < logBufferSize

/-- A record for each. -/
def processAll (env : LogTables) (s : RecoveryManager) (rs : List LogRecord) :
    Except RecoveryError RecoveryManager :=
  rs.foldlM (fun s r => s.process env (r, r.totLen)) s

namespace Reading

variable {env : LogTables} {file : List UInt8} {R : Reading} {s s' : RecoveryManager} {r : LogRecord}
  {rs : List LogRecord} {tail : List UInt8}

/-- **The records are processed in order**, whatever windows they lie in, as long as each length that is
looked at lies in its window. -/
theorem At.run_records (env : LogTables) (hsize : file.length < 2 ^ 31)
    (h : R.At file (rs.flatMap (·.serialize) ++ tail))
    (hrs : Written rs) (hfuel : rs.length < R.fuel) (hoffset : R.offset < logBufferSize) :
    (lastOffset R.offset (rs.map (·.totLen)) = none → ∀ s s', R.run env file s ≠ .ok s') ∧
    ∀ offset, lastOffset R.offset (rs.map (·.totLen)) = some offset →
      ∃ R' : Reading, R'.At file tail ∧ R'.offset = offset ∧ 0 < R'.fuel ∧ offset < logBufferSize ∧
        ∀ s, R.run env file s = (processAll env s rs).bind (R'.run env file) := by
  induction rs generalizing R with
  | nil =>
    refine ⟨fun hnone => absurd hnone (Option.some_ne_none _), fun offset hlast => ?_⟩
    obtain rfl := Option.some.inj hlast
    exact ⟨R, h, rfl, hfuel, hoffset, fun s => rfl⟩
  | cons r rs ih =>
    obtain ⟨⟨htyped, hlen⟩, hrs⟩ := List.forall_mem_cons.mp hrs
    rw [List.flatMap_cons, List.append_assoc] at h
    rw [List.length_cons] at hfuel
    -- a record that fits, here or in the next window
    have hstep : ∀ {R : Reading}, rs.length < R.fuel →
        R.At file (r.serialize ++ (rs.flatMap (·.serialize) ++ tail)) →
        R.offset + r.totLen < logBufferSize →
        (lastOffset (R.offset + r.totLen) (rs.map (·.totLen)) = none →
          ∀ s s', R.run env file s ≠ .ok s') ∧
        ∀ offset, lastOffset (R.offset + r.totLen) (rs.map (·.totLen)) = some offset →
          ∃ R' : Reading, R'.At file tail ∧ R'.offset = offset ∧ 0 < R'.fuel ∧ offset < logBufferSize ∧
            ∀ s, R.run env file s = (processAll env s (r :: rs)).bind (R'.run env file) := by
      intro R hfuel h hfits
      obtain ⟨hnone, hsome⟩ := ih h.advance hrs hfuel hfits
      refine ⟨fun hlast s s' heq => ?_, fun offset hlast => ?_⟩
      · rw [h.run_record htyped hsize hfits] at heq
        obtain ⟨s₁, -, heq⟩ := bind_eq_ok.mp heq
        exact hnone hlast s₁ s' heq
      · obtain ⟨R', hat, hoff, hpos, hlt, hrun⟩ := hsome offset hlast
        refine ⟨R', hat, hoff, hpos, hlt, fun s => ?_⟩
        rw [h.run_record htyped hsize hfits]
        unfold processAll
        rw [List.foldlM_cons]
        cases s.process env (r, r.totLen) with
        | error e => rfl
        | ok s₁ => exact hrun s₁
    rw [List.map_cons, lastOffset]
    by_cases hfits : R.offset + r.totLen < logBufferSize
    · rw [if_pos hfits]
      exact hstep (by omega) h hfits
    rw [if_neg hfits]
    by_cases hroom : R.offset + 12 ≤ logBufferSize
    · rw [if_pos hroom]
      obtain ⟨fuel, hfuelEq⟩ : ∃ fuel, R.fuel = fuel + 1 := ⟨R.fuel - 1, by omega⟩
      obtain ⟨-, hat⟩ := h.run_refill env .new hlen hsize hfits hroom hfuelEq
      have hnext := hstep (R := atStart file (R.start + R.offset) fuel)
        (show rs.length < fuel by omega) hat (show 0 + r.totLen < logBufferSize by omega)
      rw [show (atStart file (R.start + R.offset) fuel).offset + r.totLen = r.totLen from Nat.zero_add _]
        at hnext
      have hrefill : ∀ s, R.run env file s = (atStart file (R.start + R.offset) fuel).run env file s :=
        fun s => (h.run_refill env s hlen hsize hfits hroom hfuelEq).1
      simp only [hrefill]
      exact hnext
    · rw [if_neg hroom]
      exact ⟨fun _ s s' => h.run_outside hroom s', fun offset hlast => nomatch hlast⟩

/-- Behind the last record: the length is 0, if it lies in the window. -/
theorem At.run_end (h : R.At file []) (hoffset : R.offset < logBufferSize)
    (hroom : R.offset + 12 ≤ logBufferSize) : R.run env file s = .ok s := by
  have hword : Rmdb.wordAt R.window (R.offset + 8) = .ok 0 := by
    rw [h.wordAt hroom, List.nil_append, List.drop_replicate, List.take_replicate, ofLeBytes_replicate]
  have hlength := congrArg List.length h.bytes
  rw [List.length_drop, List.length_nil] at hlength
  have hle := h.le
  have hlast : R.logBytes < logBufferSize := by
    rw [h.logBytes]
    omega
  rw [h.run_stop hword (.inr rfl) hoffset.le, if_pos hlast]

end Reading

theorem length_le_flatMap (rs : List LogRecord) : rs.length ≤ (rs.flatMap (·.serialize)).length := by
  induction rs with
  | nil => exact Nat.zero_le _
  | cons r rs ih =>
    rw [List.flatMap_cons, List.length_append, List.length_cons, r.length_serialize]
    have hpos : 1 ≤ r.totLen := le_trans (by decide : 1 ≤ logHeaderSize) (Nat.le_add_right _ _)
    omega

/-- **The log file is read record by record**: up to the last complete record `analyze` does what is done
with each of them, or a length that it looks at is not in the window. -/
theorem analyze_records (env : LogTables) {rs : List LogRecord} (hrs : Written rs) (tail : List UInt8)
    (hsize : (rs.flatMap (·.serialize) ++ tail).length < 2 ^ 31) :
    let file := rs.flatMap (·.serialize) ++ tail
    (lastOffset 0 (rs.map (·.totLen)) = none → ∀ s', analyze env file ≠ .ok s') ∧
    ∀ offset, lastOffset 0 (rs.map (·.totLen)) = some offset →
      ∃ R' : Reading, R'.At file tail ∧ R'.offset = offset ∧ 0 < R'.fuel ∧ offset < logBufferSize ∧
        analyze env file = (processAll env .new rs).bind (R'.run env file) := by
  intro file
  have hlen : rs.length ≤ file.length :=
    (length_le_flatMap rs).trans (by rw [List.length_append]; exact Nat.le_add_right _ _)
  have hstart : (Reading.atStart file 0 (file.length + 1)).At file (rs.flatMap (·.serialize) ++ tail) :=
    Reading.at_atStart (Nat.zero_le _)
  have hrun : analyze env file = (Reading.atStart file 0 (file.length + 1)).run env file .new :=
    Reading.analyzeFrom_eq hsize (Nat.zero_le _)
  obtain ⟨hnone, hsome⟩ := hstart.run_records env hsize hrs
    (show rs.length < file.length + 1 by omega) (show 0 < logBufferSize by decide)
  refine ⟨fun hlast s' => ?_, fun offset hlast => ?_⟩
  · rw [hrun]
    exact hnone hlast .new s'
  · obtain ⟨R', hat, hoff, hpos, hlt, heq⟩ := hsome offset hlast
    exact ⟨R', hat, hoff, hpos, hlt, hrun.trans (heq .new)⟩

end Rmdb
