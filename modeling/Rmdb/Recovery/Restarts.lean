import Rmdb.Server.Sessions

namespace Rmdb

open Lib

/-!
# The log over several runs of the server (`main`, `RecoveryManager::analyze`)

The log file is appended to by every run of the server and read from its start by the next one.  The
two counters that number its records, `global_lsn_` and `next_txn_id_`, begin at 0 in every run.

* `ServerRuns` — any sequence of runs, each ended by a stop or a crash between two steps;
* `logFile` — what is in the log file, with its 32-bit numbers;
* `Numbered` — one run numbers its records and its transactions 0, 1, 2, …;
* `Unambiguous` — what the recovery relies on;
* `log_unambiguous_iff` — it holds exactly if at most one run has written to the log.

The recovery itself writes no log records; if it fails, the run ends before the first request.
-/

/-- `lsn_t` and `txn_id_t` are 32-bit: what the counters hold after wrapping around. -/
def int32 (n : Int) : Int := n.bmod 4294967296

/-- A record as `serialize` writes it. -/
def LogRecord.onDisk (r : LogRecord) : LogRecord :=
  { r with lsn := int32 r.lsn, logTid := int32 r.logTid, prevLsn := int32 r.prevLsn }

/-- A `BEGIN` record. -/
def LogRecord.isBegin (r : LogRecord) : Bool := r.body = .begin

/-- **Runs of the server on one database.**  What each earlier run has appended to the log file, and
    the server that is running. -/
structure ServerRuns where
  earlier : List (List LogRecord)
  current : Option Server

namespace ServerRuns

/-- What each run has written, the current one last. -/
def written (d : ServerRuns) : List (List LogRecord) :=
  d.earlier ++ [(d.current.map fun s => s.logMgr.file).getD []]

/-- The log file. -/
def logFile (d : ServerRuns) : List LogRecord := d.written.flatten.map LogRecord.onDisk

end ServerRuns

/-- What can happen next. -/
inductive RunsStep where
  /-- `main`: new managers, recovery, and the server waits for clients. -/
  | start
  | serve (a : ServerStep)
  /-- The server is stopped, or crashes. -/
  | halt

/-- One step, where it is possible. -/
def ServerRuns.step (d : ServerRuns) : RunsStep → Option ServerRuns
  | .start =>
    match d.current with
    | none => some { d with current := some .start }
    | some _ => none
  | .serve a =>
    match d.current with
    | none => none
    | some s => (s.step a).map fun s' => { d with current := some s' }
  | .halt =>
    match d.current with
    | none => none
    | some s => some { earlier := d.earlier ++ [s.logMgr.file], current := none }

/-- **The runs**, from a new database on. -/
def serverRuns : TransitionSystem ServerRuns RunsStep where
  init d := d = { earlier := [], current := none }
  step d a d' := d.step a = some d'

/-! ### What the recovery relies on -/

/-- `lsn2log` after `analyze` has read these records. -/
def lsn2log (l : List LogRecord) : Lsn → Option LogRecord :=
  l.foldl (fun m r => Function.update m r.lsn (some r)) fun _ => none

/-- **The log is unambiguous**: its numbers increase, no two transactions begin under one id, and
    `lsn2log` has every record. -/
structure Unambiguous (l : List LogRecord) : Prop where
  increasing : (l.map LogRecord.lsn).Pairwise (· < ·)
  transactions : ((l.filter LogRecord.isBegin).map LogRecord.logTid).Nodup
  found : ∀ r ∈ l, lsn2log l r.lsn = some r

/-- Records with different numbers are all found. -/
theorem lsn2log_of_nodup {l : List LogRecord} (h : (l.map LogRecord.lsn).Nodup) :
    ∀ r ∈ l, lsn2log l r.lsn = some r := by
  induction l using List.reverseRecOn with
  | nil => exact fun r hr => absurd hr List.not_mem_nil
  | append_singleton l x ih =>
    rw [List.map_append, List.nodup_append] at h
    obtain ⟨hl, -, hdisj⟩ := h
    have hsnoc : lsn2log (l ++ [x]) = Function.update (lsn2log l) x.lsn (some x) :=
      List.foldl_append
    intro r hr
    rw [hsnoc]
    rcases List.mem_append.mp hr with hr | hr
    · have hne : r.lsn ≠ x.lsn :=
        hdisj r.lsn (List.mem_map_of_mem hr) x.lsn (List.mem_singleton_self _)
      rw [Function.update_of_ne hne]
      exact ih hl r hr
    · rw [List.mem_singleton.mp hr, Function.update_self]

/-! ### One run -/

/-- The first `n` numbers. -/
def numbers (n : Nat) : List Int := (List.range n).map Int.ofNat

/-- **One run** numbers its records and its transactions from 0 on. -/
structure Numbered (l : List LogRecord) : Prop where
  lsn : l.map LogRecord.lsn = numbers l.length
  logTid : (l.filter LogRecord.isBegin).map LogRecord.logTid =
    numbers (l.filter LogRecord.isBegin).length

/-- One number more. -/
theorem numbers_succ (n : Nat) : numbers (n + 1) = numbers n ++ [Int.ofNat n] := by
  unfold numbers
  rw [List.range_succ, List.map_append]
  rfl

/-- The numbering of a running server. -/
structure Server.Numbering (s : Server) : Prop where
  buffer : s.logMgr.buffer = []
  numbered : Numbered s.logMgr.file
  nextLsn : s.logMgr.globalLsn = s.logMgr.file.length
  nextTxnId : s.nextTxnId = (s.logMgr.file.filter LogRecord.isBegin).length

/-- A record is appended to the log. -/
theorem appendLog_file (txn : Transaction) {lm : LogManager} (hb : lm.buffer = []) (body : LogBody) :
    (appendLog txn lm body).2.file = lm.file ++
      [{ lsn := lm.globalLsn, logTid := txn.txnId, prevLsn := txn.prevLsn, body := body }] ∧
    (appendLog txn lm body).2.buffer = [] ∧
    (appendLog txn lm body).2.globalLsn = lm.globalLsn + 1 := by
  have h := lm.addLogToBuffer_file (.new txn.txnId txn.prevLsn body)
  rw [hb, List.append_nil] at h
  exact h

/-- One record more, with the next number. -/
theorem Numbered.snoc {l : List LogRecord} (h : Numbered l) {r : LogRecord} (hlsn : r.lsn = l.length)
    (hbegin : r.isBegin = true → r.logTid = (l.filter LogRecord.isBegin).length) :
    Numbered (l ++ [r]) where
  lsn := by
    rw [List.map_append, h.lsn, List.length_append, List.length_singleton, numbers_succ]
    show _ ++ [r.lsn] = _
    rw [hlsn]
    rfl
  logTid := by
    rw [List.filter_append]
    cases hr : r.isBegin with
    | false =>
      rw [List.filter_singleton, hr, cond_false, List.append_nil]
      exact h.logTid
    | true =>
      rw [List.filter_singleton, hr, cond_true, List.map_append, h.logTid, List.length_append,
        List.length_singleton, numbers_succ]
      show _ ++ [r.logTid] = _
      rw [hbegin hr]
      rfl

/-- A server that has just been started. -/
theorem Server.numbering_start : Server.start.Numbering :=
  ⟨rfl, ⟨rfl, rfl⟩, rfl, rfl⟩

/-- A thread leaves the log alone, or appends a record that is not a `BEGIN`. -/
theorem Thread.Moves.logMgr {i : ℕ} {th th' : Thread} {a : ThreadStep}
    (h : Thread.Moves i th a th') : th'.logMgr = th.logMgr ∨
      ∃ txn body, body ≠ .begin ∧ th'.logMgr = (appendLog txn th.logMgr body).2 := by
  cases h with
  | @exec a todo hpc =>
    cases a with
    | lock c => exact Or.inl (th.exec_lock todo c).2.2.1
    | log change => exact Or.inr ⟨th.txn, .change change, by simp, rfl⟩
    | write w => exact Or.inl rfl
  | @undoLock caller c todo hpc => exact Or.inl (th.undoLock_eq caller todo c).2.2.1
  | @leave caller todo hpc => exact Or.inl (th.leaveRollback_eq caller).2.2.1
  | @finish commits caller hpc =>
    refine Or.inr ⟨_, if commits then .commit else .abort, ?_, rfl⟩
    cases commits <;> simp
  | done | undone | error | commit | abort | undo | rolledBack | unlock | fail | autocommit | next =>
    exact Or.inl rfl

namespace Server.Numbering

variable {s s' : Server}

/-- A thread appends a record of a transaction that has begun. -/
theorem put (h : s.Numbering) {i : ℕ} {th : Thread} (hlog : th.logMgr = s.logMgr ∨
    ∃ txn body, body ≠ .begin ∧ th.logMgr = (appendLog txn s.logMgr body).2) :
    (s.put i th).Numbering := by
  rcases hlog with hlog | ⟨txn, body, hbody, hlog⟩
  · have hput : (s.put i th).logMgr = s.logMgr := hlog
    exact ⟨hput ▸ h.buffer, hput ▸ h.numbered, hput ▸ h.nextLsn, hput ▸ h.nextTxnId⟩
  · obtain ⟨hfile, hbuffer, hnext⟩ := appendLog_file txn h.buffer body
    have hnot : (LogRecord.mk s.logMgr.globalLsn txn.txnId txn.prevLsn body).isBegin = false :=
      decide_eq_false hbody
    refine ⟨?_, ?_, ?_, ?_⟩
    · show th.logMgr.buffer = []
      rw [hlog, hbuffer]
    · show Numbered th.logMgr.file
      rw [hlog, hfile]
      refine h.numbered.snoc h.nextLsn fun hc => ?_
      rw [hnot] at hc
      cases hc
    · show th.logMgr.globalLsn = th.logMgr.file.length
      rw [hlog, hnext, hfile, List.length_append, h.nextLsn]
      rfl
    · show s.nextTxnId = (th.logMgr.file.filter LogRecord.isBegin).length
      rw [hlog, hfile, List.filter_append, List.filter_singleton, hnot, cond_false, List.append_nil]
      exact h.nextTxnId

/-- `begin` takes the next transaction id. -/
theorem begin (h : s.Numbering) (i : ℕ) : (s.begin i).Numbering := by
  obtain ⟨hfile, hbuffer, hnext⟩ := appendLog_file (.new s.nextTxnId) h.buffer .begin
  refine ⟨hbuffer, ?_, ?_, ?_⟩
  · show Numbered (appendLog (.new s.nextTxnId) s.logMgr .begin).2.file
    rw [hfile]
    exact h.numbered.snoc h.nextLsn fun _ => h.nextTxnId
  · show (appendLog (.new s.nextTxnId) s.logMgr .begin).2.globalLsn =
      (appendLog (.new s.nextTxnId) s.logMgr .begin).2.file.length
    rw [hnext, hfile, List.length_append, h.nextLsn]
    rfl
  · show s.nextTxnId + 1 =
      ((appendLog (.new s.nextTxnId) s.logMgr .begin).2.file.filter LogRecord.isBegin).length
    rw [hfile, List.filter_append, List.length_append, h.nextTxnId]
    rfl

/-- A statement without `begin` does so too. -/
theorem setTransaction (h : s.Numbering) (i : ℕ) : (s.setTransaction i).Numbering := by
  unfold Server.setTransaction
  split
  · exact h.begin i
  · split
    · exact h.begin i
    · exact h

/-- Every step keeps the numbering. -/
theorem step (h : s.Numbering) {a : ServerStep} (hs : s.step a = some s') : s'.Numbering := by
  rcases Server.step_cases hs with ⟨i, req, th, -, -, -, hth, rfl⟩ | ⟨i, how, -, -, rfl⟩ |
    ⟨i, -, rfl⟩ | ⟨i, b, th, th', -, hth, hmoves, rfl⟩
  · refine (h.setTransaction i).put (Or.inl ?_)
    rw [← (Server.thread_eq hth).2.2.2.2]
    cases req <;> rfl
  · exact ⟨h.buffer, h.numbered, h.nextLsn, h.nextTxnId⟩
  · exact ⟨h.buffer, h.numbered, h.nextLsn, h.nextTxnId⟩
  · refine h.put ?_
    rw [← (Server.thread_eq hth).2.2.2.2]
    exact hmoves.logMgr

end Server.Numbering

/-! ### All runs -/

namespace ServerRuns

variable {d d' : ServerRuns}

/-- Each run so far is numbered from 0 on. -/
structure Inv (d : ServerRuns) : Prop where
  earlier : ∀ l ∈ d.earlier, Numbered l
  current : ∀ s, d.current = some s → s.Numbering

/-- Every step keeps the invariant. -/
theorem Inv.step (h : d.Inv) {a : RunsStep} (hs : d.step a = some d') : d'.Inv := by
  unfold ServerRuns.step at hs
  cases a with
  | start =>
    dsimp only at hs
    split at hs
    · cases hs
      refine ⟨h.earlier, fun s hcur => ?_⟩
      cases hcur
      exact Server.numbering_start
    · cases hs
  | serve a =>
    dsimp only at hs
    split at hs
    · cases hs
    · rename_i s hcur
      obtain ⟨s', hs', rfl⟩ := Option.map_eq_some_iff.mp hs
      refine ⟨h.earlier, fun t ht => ?_⟩
      cases ht
      exact (h.current s hcur).step hs'
  | halt =>
    dsimp only at hs
    split at hs
    · cases hs
    · rename_i s hcur
      cases hs
      refine ⟨fun l hl => ?_, fun t ht => (by cases ht)⟩
      rcases List.mem_append.mp hl with hl | hl
      · exact h.earlier l hl
      · rw [List.mem_singleton.mp hl]
        exact (h.current s hcur).numbered

/-- It holds in every state reached. -/
theorem reachable_inv (h : serverRuns.Reachable d) : d.Inv :=
  h.invariant (fun _ hi => hi ▸ ⟨fun _ hl => absurd hl List.not_mem_nil, fun _ hc => (by cases hc)⟩)
    fun _ _ _ hd hs => hd.step hs

/-- What each run has written is numbered from 0. -/
theorem Inv.written (h : d.Inv) : ∀ l ∈ d.written, Numbered l := by
  intro l hl
  rcases List.mem_append.mp hl with hl | hl
  · exact h.earlier l hl
  · rw [List.mem_singleton.mp hl]
    cases hcur : d.current with
    | none => exact ⟨rfl, rfl⟩
    | some s => exact (h.current s hcur).numbered

/-- The runs that have written to the log. -/
def writers (d : ServerRuns) : List (List LogRecord) := d.written.filter (· ≠ [])

/-- The file holds the records of all runs. -/
theorem logFile_eq (d : ServerRuns) : d.logFile = d.writers.flatten.map LogRecord.onDisk := by
  unfold logFile writers
  rw [List.flatten_filter_ne_nil]

end ServerRuns

/-! ### One run in the file -/

/-- A small number is itself as an `int`. -/
theorem int32_eq {n : Int} (h0 : 0 ≤ n) (h : n < 2147483648) : int32 n = n := by
  unfold int32
  rw [Int.bmod_eq_of_le] <;> omega

/-- So are the numbers of a short run. -/
theorem map_int32_numbers {n : Nat} (h : n ≤ 2147483648) : (numbers n).map int32 = numbers n := by
  unfold numbers
  rw [List.map_map]
  refine List.map_congr_left fun k hk => ?_
  have hk' : k < 2147483648 := Nat.lt_of_lt_of_le (List.mem_range.mp hk) h
  rw [Function.comp_apply, Int.ofNat_eq_natCast, int32_eq (by omega) (by omega)]

/-- The numbers increase. -/
theorem pairwise_numbers (n : Nat) : (numbers n).Pairwise (· < ·) := by
  unfold numbers
  rw [List.pairwise_map]
  exact List.pairwise_lt_range.imp fun h => Int.ofNat_lt.mpr h

/-- The numbers of a run, as they are in the file. -/
theorem Numbered.lsn_onDisk {l : List LogRecord} (h : Numbered l) :
    (l.map LogRecord.onDisk).map LogRecord.lsn = (numbers l.length).map int32 := by
  rw [← h.lsn, List.map_map, List.map_map]
  rfl

/-- The transaction ids that stand in the file. -/
theorem Numbered.logTid_onDisk {l : List LogRecord} (h : Numbered l) :
    ((l.map LogRecord.onDisk).filter LogRecord.isBegin).map LogRecord.logTid =
      (numbers (l.filter LogRecord.isBegin).length).map int32 := by
  rw [← h.logTid, List.filter_map, List.map_map, List.map_map]
  rfl

/-- **One run** leaves an unambiguous log as long as the numbers do not wrap around. -/
theorem Numbered.unambiguous_iff {l : List LogRecord} (h : Numbered l) :
    Unambiguous (l.map LogRecord.onDisk) ↔ l.length ≤ 2147483648 := by
  constructor
  · intro hu
    by_contra hlong
    have hinc := hu.increasing
    rw [h.lsn_onDisk] at hinc
    -- number 2147483648 is written as a negative one
    have hlen : ((numbers l.length).map int32).length = l.length := by
      rw [List.length_map, numbers, List.length_map, List.length_range]
    have hget : ∀ k (hk : k < ((numbers l.length).map int32).length),
        ((numbers l.length).map int32)[k] = int32 (Int.ofNat k) := by
      intro k hk
      rw [List.getElem_map]
      unfold numbers
      rw [List.getElem_map, List.getElem_range]
    have hlt := List.pairwise_iff_getElem.mp hinc 0 2147483648 (by omega) (by omega) (by omega)
    rw [hget, hget] at hlt
    exact absurd hlt (by decide)
  · intro hlen
    have hfew : (l.filter LogRecord.isBegin).length ≤ 2147483648 :=
      Nat.le_trans (List.length_filter_le _ _) hlen
    have hinc : ((l.map LogRecord.onDisk).map LogRecord.lsn).Pairwise (· < ·) := by
      rw [h.lsn_onDisk, map_int32_numbers hlen]
      exact pairwise_numbers _
    refine ⟨hinc, ?_, lsn2log_of_nodup (hinc.imp Int.ne_of_lt)⟩
    rw [h.logTid_onDisk, map_int32_numbers hfew]
    exact (pairwise_numbers _).imp Int.ne_of_lt

/-- **When the log is unambiguous.** After any sequence of server runs, the numbers in the log file
    increase, no two transactions share an id and `lsn2log` has every record, exactly if at most one
    run has written to the log, and at most 2147483648 records. -/
theorem log_unambiguous_iff (d : ServerRuns) (h : serverRuns.Reachable d) :
    Unambiguous d.logFile ↔ d.writers.length ≤ 1 ∧ d.logFile.length ≤ 2147483648 := by
  have hnum : ∀ l ∈ d.writers, Numbered l ∧ l ≠ [] := by
    intro l hl
    obtain ⟨hmem, hne⟩ := List.mem_filter.mp hl
    exact ⟨(ServerRuns.reachable_inv h).written l hmem, of_decide_eq_true hne⟩
  rw [d.logFile_eq]
  cases hw : d.writers with
  | nil =>
    have hnil : Numbered [] := ⟨rfl, rfl⟩
    rw [List.flatten_nil, hnil.unambiguous_iff, List.length_map]
    exact ⟨fun hlen => ⟨Nat.zero_le _, hlen⟩, fun hlen => hlen.2⟩
  | cons l rest =>
    rw [hw] at hnum
    obtain ⟨hl, hne⟩ := hnum l List.mem_cons_self
    cases rest with
    | nil =>
      rw [List.flatten_singleton, hl.unambiguous_iff, List.length_map]
      exact ⟨fun hlen => ⟨Nat.le_refl _, hlen⟩, fun hlen => hlen.2⟩
    | cons l' rest =>
      refine ⟨fun hu => ?_, fun hc => absurd hc.1 (by simp)⟩
      -- both runs begin with number 0
      obtain ⟨hl', hne'⟩ := hnum l' (List.mem_cons_of_mem _ List.mem_cons_self)
      obtain ⟨r, l, rfl⟩ := List.exists_cons_of_ne_nil hne
      obtain ⟨r', l', rfl⟩ := List.exists_cons_of_ne_nil hne'
      have hinc := hu.increasing
      rw [List.flatten_cons, List.flatten_cons, List.map_append, List.map_append, List.map_append,
        List.map_append, hl.lsn_onDisk, hl'.lsn_onDisk] at hinc
      have hlt := (List.pairwise_append.mp hinc).2.2 (int32 0) (List.mem_map_of_mem ?_) (int32 0)
        (List.mem_append_left _ (List.mem_map_of_mem ?_))
      · exact absurd hlt (lt_irrefl _)
      · exact List.mem_map_of_mem (f := Int.ofNat) (List.mem_range.mpr (Nat.succ_pos _))
      · exact List.mem_map_of_mem (f := Int.ofNat) (List.mem_range.mpr (Nat.succ_pos _))

/-- A client connects and sends `begin`. -/
def oneRequest : List RunsStep := [.start, .serve (.receive 0 .begin), .halt]

/-- A list of steps is a run. -/
theorem serverRuns_reachable {as : List RunsStep} {d : ServerRuns}
    (h : as.foldlM ServerRuns.step { earlier := [], current := none } = some d) :
    serverRuns.Reachable d :=
  TransitionSystem.Reachable.foldlM (fun _ _ _ hs => hs) (.init rfl) h

/-- The theorem after a run with one request and a run that only starts. -/
theorem log_unambiguous_one_request : ∃ d, serverRuns.Reachable d ∧ d.logFile.length = 1 ∧
    Unambiguous d.logFile := by
  obtain ⟨d, hd⟩ : ∃ d, (oneRequest ++ [RunsStep.start]).foldlM ServerRuns.step
      { earlier := [], current := none } = some d := ⟨_, rfl⟩
  have hreach := serverRuns_reachable hd
  cases hd
  refine ⟨_, hreach, rfl, (log_unambiguous_iff _ hreach).mpr ⟨?_, ?_⟩⟩
  · decide
  · decide

/-- **Two runs use the same numbers.** After a run with one request, a restart and another request, the
    log file has two `BEGIN` records, both with number 0 and of transaction 0. -/
theorem two_runs_same_numbers : ∃ d, serverRuns.Reachable d ∧
    d.logFile.map (fun r => (r.lsn, r.logTid, r.body)) = [(0, 0, .begin), (0, 0, .begin)] ∧
    ¬ Unambiguous d.logFile := by
  obtain ⟨d, hd⟩ : ∃ d, (oneRequest ++ oneRequest).foldlM ServerRuns.step
      { earlier := [], current := none } = some d := ⟨_, rfl⟩
  have hreach := serverRuns_reachable hd
  cases hd
  refine ⟨_, hreach, rfl, fun hu => ?_⟩
  exact absurd hu.increasing (by decide)

end Rmdb
