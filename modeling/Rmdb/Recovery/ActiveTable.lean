import Rmdb.Recovery.LogWindows

namespace Rmdb

open Lib

/-!
# The unfinished transactions (`RecoveryManager::analyze`, `active_transaction_table`)

A BEGIN record makes an entry, a change is appended to it, and COMMIT or ABORT removes it.  `emplace` with
the number of the BEGIN record constructs a vector of as many zeros.

* `unfinishedTable` — the transactions with a BEGIN and no COMMIT or ABORT, with their changes;
* `entryStep`, `activeTransactionTable_eq` — an entry depends on the records of its transaction;
* `EntryRight` — the records from which the right entry comes;
* `active_table_iff` — when `analyze` ends with the right table.
-/

/-! ### What the table is for -/

/-- A `COMMIT` or `ABORT` record. -/
def LogRecord.isEnd (r : LogRecord) : Bool := r.body = .commit ∨ r.body = .abort

/-- The record of an `INSERT`, an `UPDATE` or a `DELETE`. -/
def LogRecord.isChange (r : LogRecord) : Bool := !r.isBegin && !r.isEnd

/-- The records of a transaction. -/
def ownRecords (tid : TxnId) (rs : List LogRecord) : List LogRecord := rs.filter (·.logTid = tid)

/-- The numbers of the changes. -/
def changeLsns (rs : List LogRecord) : List Lsn := (rs.filter LogRecord.isChange).map LogRecord.lsn

/-- The entry that these records of one transaction should make. -/
def unfinishedEntry (own : List LogRecord) : Option (List Lsn) :=
  if own.any LogRecord.isBegin && !own.any LogRecord.isEnd then some (changeLsns own) else none

/-- **The unfinished transactions**, with the numbers of their changes in the order of the log. -/
def unfinishedTable (rs : List LogRecord) (tid : TxnId) : Option (List Lsn) :=
  unfinishedEntry (ownRecords tid rs)

/-! ### The entry of one transaction -/

/-- What a record does to the entry of its transaction. -/
def entryStep (entry : Option (List Lsn)) (r : LogRecord) : Option (List Lsn) :=
  match r.body with
  | .begin => some (entry.getD (List.replicate r.lsn.toNat 0))
  | .abort | .commit => none
  | .change _ => some (entry.getD [] ++ [r.lsn])

theorem activeAfter_eq (att : TxnId → Option (List Lsn)) (r : LogRecord) :
    activeAfter att r = Function.update att r.logTid (entryStep (att r.logTid) r) := rfl

/-- **An entry depends on the records of its transaction.** -/
theorem activeTransactionTable_eq (rs : List LogRecord) (att : TxnId → Option (List Lsn)) (tid : TxnId) :
    rs.foldl activeAfter att tid = (ownRecords tid rs).foldl entryStep (att tid) := by
  induction rs generalizing att with
  | nil => rfl
  | cons r rs ih =>
    rw [List.foldl_cons, ih, activeAfter_eq]
    unfold ownRecords
    by_cases hown : r.logTid = tid
    · subst hown
      rw [Function.update_self, List.filter_cons_of_pos (by simp)]
      rfl
    · rw [Function.update_of_ne (Ne.symm hown), List.filter_cons_of_neg (by simpa using hown)]

/-- The end of a transaction removes the entry, every other record leaves one. -/
theorem entryStep_eq_none_iff (entry : Option (List Lsn)) (r : LogRecord) :
    entryStep entry r = none ↔ r.isEnd = true := by
  unfold entryStep LogRecord.isEnd
  cases r.body <;> simp

/-- A record that is not an end begins its transaction or is a change. -/
theorem entryStep_cases {r : LogRecord} (hend : r.isEnd = false) (entry : Option (List Lsn)) :
    r.isBegin = true ∧ r.isChange = false ∧
      entryStep entry r = some (entry.getD (List.replicate r.lsn.toNat 0)) ∨
    r.isBegin = false ∧ r.isChange = true ∧ entryStep entry r = some (entry.getD [] ++ [r.lsn]) := by
  unfold LogRecord.isChange
  rw [hend]
  unfold LogRecord.isBegin entryStep
  unfold LogRecord.isEnd at hend
  cases hbody : r.body with
  | begin => exact .inl ⟨rfl, rfl, rfl⟩
  | commit => simp [hbody] at hend
  | abort => simp [hbody] at hend
  | change c => exact .inr ⟨rfl, rfl, rfl⟩

/-- Without an end, the changes are appended. -/
theorem foldl_entryStep {own : List LogRecord} (hend : own.any LogRecord.isEnd = false) (l : List Lsn) :
    own.foldl entryStep (some l) = some (l ++ changeLsns own) := by
  induction own generalizing l with
  | nil => exact congrArg some (List.append_nil l).symm
  | cons r own ih =>
    rw [List.any_cons, Bool.or_eq_false_iff] at hend
    obtain ⟨hr, hown⟩ := hend
    unfold changeLsns at ih ⊢
    rw [List.foldl_cons]
    rcases entryStep_cases hr (some l) with ⟨-, hchange, hstep⟩ | ⟨-, hchange, hstep⟩
    · rw [hstep, List.filter_cons_of_neg (by simp [hchange])]
      exact ih hown l
    · rw [hstep, List.filter_cons_of_pos hchange, ih hown, Option.getD_some, List.append_assoc,
        List.map_cons, List.singleton_append]

/-! ### When the entry is right -/

/-- **The records from which the right entry comes**: nothing is behind the end of the transaction; or it
has begun and not ended, and its first record is not a BEGIN record with a number other than 0. -/
def EntryRight (own : List LogRecord) : Prop :=
  (∀ r ∈ own.getLast?, r.isEnd = true) ∨
    own.any LogRecord.isBegin = true ∧ own.any LogRecord.isEnd = false ∧
      ∀ r ∈ own.head?, r.isBegin = true → r.lsn = 0

/-- There is no entry if the last record is the end of the transaction. -/
theorem foldl_entryStep_none_iff (own : List LogRecord) :
    own.foldl entryStep none = none ↔ ∀ r ∈ own.getLast?, r.isEnd = true := by
  rcases List.eq_nil_or_concat own with rfl | ⟨own, r, rfl⟩
  · exact iff_of_true rfl fun _ hr => nomatch hr
  · rw [List.concat_eq_append, List.foldl_append, List.getLast?_concat]
    exact (entryStep_eq_none_iff _ r).trans
      ⟨fun hr _ hx => Option.some.inj hx ▸ hr, fun h => h r rfl⟩

/-- The entry of a transaction that has not ended. -/
theorem entry_of_not_ended {r : LogRecord} {own : List LogRecord}
    (hend : (r :: own).any LogRecord.isEnd = false) : ∃ zeros : List Lsn,
    (r :: own).foldl entryStep none = some (zeros ++ changeLsns (r :: own)) ∧
      zeros = if r.isBegin = true then List.replicate r.lsn.toNat 0 else [] := by
  have hrest := hend
  rw [List.any_cons, Bool.or_eq_false_iff] at hrest
  obtain ⟨hr, hown⟩ := hrest
  refine ⟨_, ?_, rfl⟩
  unfold changeLsns
  rw [List.foldl_cons]
  rcases entryStep_cases hr none with ⟨hbegin, hchange, hstep⟩ | ⟨hbegin, hchange, hstep⟩
  · rw [hstep, if_pos hbegin, List.filter_cons_of_neg (by simp [hchange])]
    exact foldl_entryStep hown _
  · rw [hstep, if_neg (by simp [hbegin]), List.nil_append, List.filter_cons_of_pos hchange]
    exact foldl_entryStep hown _

/-- **When the entry is right**, if the numbers of the BEGIN records are not negative. -/
theorem entry_iff {own : List LogRecord} (hpos : ∀ r ∈ own, r.isBegin = true → 0 ≤ r.lsn) :
    own.foldl entryStep none = unfinishedEntry own ↔ EntryRight own := by
  unfold EntryRight
  rw [← foldl_entryStep_none_iff]
  unfold unfinishedEntry
  by_cases hend : own.any LogRecord.isEnd = true
  · -- the transaction has ended
    rw [hend, Bool.not_true, Bool.and_false, if_neg Bool.false_ne_true]
    exact ⟨Or.inl, fun h => h.resolve_right fun hnot => absurd hnot.2.1 Bool.true_eq_false.mp⟩
  rw [Bool.not_eq_true] at hend
  cases own with
  | nil => exact iff_of_true rfl (Or.inl rfl)
  | cons r own =>
    obtain ⟨zeros, hentry, hzeros⟩ := entry_of_not_ended hend
    rw [hentry, hend, Bool.not_false, Bool.and_true]
    by_cases hbegin : (r :: own).any LogRecord.isBegin = true
    case neg =>
      rw [if_neg hbegin]
      exact iff_of_false nofun fun h => h.elim nofun fun h => hbegin h.1
    rw [if_pos hbegin, Option.some.injEq, List.append_left_eq_self]
    have hfirst : zeros = [] ↔ ∀ x ∈ (r :: own).head?, x.isBegin = true → x.lsn = 0 := by
      rw [hzeros, List.head?_cons]
      refine ⟨fun h x hx hxb => ?_, fun h => ?_⟩
      · obtain rfl := Option.some.inj hx
        rw [if_pos hxb, List.replicate_eq_nil_iff] at h
        exact le_antisymm (Int.toNat_eq_zero.mp h) (hpos r List.mem_cons_self hxb)
      · split
        · rename_i hr
          rw [h r rfl hr]
          rfl
        · rfl
    rw [hfirst]
    exact ⟨fun h => Or.inr ⟨hbegin, rfl, h⟩, fun h => h.elim nofun fun h => h.2.2⟩

/-! ### The table -/

/-- What `analyze` needs to end with the right table. -/
structure TableReadable (env : LogTables) (rs : List LogRecord) : Prop where
  size : (rs.flatMap (·.serialize)).length < 2 ^ 31
  windows : InWindows rs
  readable : ∀ r ∈ rs, Readable env r
  entries : ∀ tid, EntryRight (ownRecords tid rs)

/-- The number of a `BEGIN` record that can be processed. -/
theorem Readable.begin_nonneg {env : LogTables} {r : LogRecord} (h : Readable env r)
    (hbegin : r.isBegin = true) : 0 ≤ r.lsn := by
  unfold Readable at h
  rw [of_decide_eq_true hbegin] at h
  exact h

/-- **The entries** after all the records. -/
theorem table_iff {env : LogTables} {rs : List LogRecord} (hreadable : ∀ r ∈ rs, Readable env r) :
    rs.foldl activeAfter (fun _ => none) = unfinishedTable rs ↔ ∀ tid, EntryRight (ownRecords tid rs) := by
  rw [funext_iff]
  refine forall_congr' fun tid => ?_
  rw [activeTransactionTable_eq]
  exact entry_iff fun r hr hbegin => (hreadable r (List.mem_of_mem_filter hr)).begin_nonneg hbegin

/-- A file of 2³¹ to 2³² bytes is not read at all. -/
theorem analyze_negative_size {env : LogTables} {file : List UInt8} (hlo : 2 ^ 31 ≤ file.length)
    (hhi : file.length < 2 ^ 32) (s : RecoveryManager) : analyze env file ≠ .ok s := by
  have hbmod : Int.bmod file.length (2 ^ 32) = (file.length : Int) - 2 ^ 32 := by
    rw [Int.bmod_eq_iff (by decide)]
    exact ⟨by omega, by omega, by omega⟩
  intro h
  unfold analyze at h
  rw [analyzeFrom] at h
  obtain ⟨w, hread, -⟩ := bind_eq_ok.mp h
  unfold readLog at hread
  rw [hbmod] at hread
  dsimp only at hread
  rw [if_pos (by omega)] at hread
  cases hread

/-- **When `analyze` ends with the unfinished transactions**, each with its changes: if the log can be read
to its end, and the first record of each of them is not a BEGIN record with a number other than 0.  For
logs of less than 2³² bytes, only then. -/
theorem active_table_iff {env : LogTables} {rs : List LogRecord} (hrs : Written rs) :
    let file := rs.flatMap (·.serialize)
    (TableReadable env rs →
      ∃ s, analyze env file = .ok s ∧ s.activeTransactionTable = unfinishedTable rs) ∧
    (file.length < 2 ^ 32 →
      (∃ s, analyze env file = .ok s ∧ s.activeTransactionTable = unfinishedTable rs) →
      TableReadable env rs) := by
  intro file
  obtain ⟨hok, hspec⟩ := processAll_spec (pagesRead_new env) rs
  constructor
  · rintro ⟨hsize, hin, hreadable, hentries⟩
    obtain ⟨s, hs⟩ := hok.mpr hreadable
    refine ⟨s, (analyze_complete hrs hsize s).mpr ⟨hin, hs⟩, ?_⟩
    rw [(hspec s hs).active]
    exact (table_iff hreadable).mpr hentries
  · rintro hmax ⟨s, hs, htable⟩
    have hsize : file.length < 2 ^ 31 := by
      by_contra hlong
      exact analyze_negative_size (Nat.le_of_not_lt hlong) hmax s hs
    obtain ⟨hin, hall⟩ := (analyze_complete hrs hsize s).mp hs
    have hreadable := hok.mp ⟨s, hall⟩
    rw [(hspec s hall).active] at htable
    exact ⟨hsize, hin, hreadable, (table_iff hreadable).mp htable⟩

/-! ### Two clients -/

/-- A client inserts a record in a transaction, and the server crashes. -/
def oneInsert : List RunsStep :=
  [.start, .serve (.receive 0 .begin), .serve (.run 0 (.reply true)),
    .serve (.receive 0 (.statement [.log (.insert [7, 0, 0, 0] ⟨1, 0⟩ "t")])), .serve (.run 0 .act), .halt]

/-- Its records. -/
def oneInsertLog : List LogRecord :=
  [⟨0, 0, -1, .begin⟩, ⟨1, 0, 0, .change (.insert [7, 0, 0, 0] ⟨1, 0⟩ "t")⟩]

/-- One table is open, and no page of it has been changed. -/
def oneOpenTable : LogTables :=
  ⟨fun tab => if tab = "t" then some 3 else none, fun _ => some (-1), findPage, findPage_key,
    fun keys p _ => findPage_mem keys p⟩

theorem oneInsertLog_readable : Written oneInsertLog ∧
    (oneInsertLog.flatMap (·.serialize)).length < 2 ^ 31 ∧ InWindows oneInsertLog ∧
    ∀ r ∈ oneInsertLog, Readable oneOpenTable r := by
  have hlens : oneInsertLog.map (·.totLen) = [20, 45] := by decide
  have hlast : lastOffset 0 [20, 45] = some 65 := lastOffset_of_fits (by decide)
  have hsmall : ∀ n : Int, -1 ≤ n ∧ n ≤ 1 → Int32Range n := fun n ⟨h1, h2⟩ => ⟨by omega, by omega⟩
  refine ⟨fun r hr => ⟨?_, ?_⟩, ?_, ⟨65, by rw [hlens, hlast], by decide⟩, fun r hr => ?_⟩
  · simp only [oneInsertLog, List.mem_cons, List.not_mem_nil, or_false] at hr
    rcases hr with rfl | rfl <;>
      refine ⟨hsmall _ (by decide), hsmall _ (by decide), hsmall _ (by decide), fun c hc => ?_⟩ <;> cases hc
    exact ⟨hsmall _ (by decide), hsmall _ (by decide)⟩
  · have hlen := List.mem_map_of_mem (f := LogRecord.totLen) hr
    rw [hlens] at hlen
    have hall : ∀ n ∈ [20, 45], n < logBufferSize := by decide
    exact hall _ hlen
  · have hsum : (oneInsertLog.flatMap (·.serialize)).length = (oneInsertLog.map (·.totLen)).sum := by
      rw [List.length_flatMap]
      exact congrArg List.sum (List.map_congr_left fun r _ => r.length_serialize)
    rw [hsum, hlens]
    decide
  · simp only [oneInsertLog, List.mem_cons, List.not_mem_nil, or_false] at hr
    rcases hr with rfl | rfl
    · exact le_refl (0 : Int)
    · exact ⟨3, rfl, rfl⟩

/-- **One transaction** is not ended: its entry has its change. -/
theorem first_transaction_found : ∃ d, serverRuns.Reachable d ∧ d.logFile = oneInsertLog ∧
    unfinishedTable oneInsertLog 0 = some [1] ∧
    ∃ s, analyze oneOpenTable (d.logFile.flatMap (·.serialize)) = .ok s ∧
      s.activeTransactionTable = unfinishedTable d.logFile := by
  obtain ⟨d, hd⟩ : ∃ d, oneInsert.foldlM ServerRuns.step { earlier := [], current := none } = some d :=
    ⟨_, rfl⟩
  have hreach := serverRuns_reachable hd
  have hlog : d.logFile = oneInsertLog := by
    cases hd
    rfl
  obtain ⟨hrs, hsize, hin, hreadable⟩ := oneInsertLog_readable
  refine ⟨d, hreach, hlog, rfl, ?_⟩
  rw [hlog]
  refine (active_table_iff hrs).1 ⟨hsize, hin, hreadable, fun tid => ?_⟩
  by_cases h0 : tid = 0
  · subst h0
    refine .inr ⟨rfl, rfl, fun r hr _ => ?_⟩
    cases hr
    rfl
  · have hown : ownRecords tid oneInsertLog = [] := by
      simp [ownRecords, oneInsertLog, Ne.symm h0]
    refine .inl fun r hr => ?_
    rw [hown] at hr
    cases hr

/-- Two clients begin a transaction each, and the server crashes. -/
def twoBegins : List RunsStep := [.start, .serve (.receive 0 .begin), .serve (.receive 1 .begin), .halt]

/-- The records of `n` such clients. -/
def begins (n : Nat) : List LogRecord :=
  (List.range n).map fun i : Nat => { lsn := i, logTid := i, prevLsn := -1, body := .begin }

/-- Their log can be read to its end. -/
theorem begins_readable {n : Nat} (hn : n ≤ 2) : Written (begins n) ∧
    (∀ r ∈ begins n, Readable noTables r) ∧
    ((begins n).flatMap (·.serialize)).length < 2 ^ 31 ∧ InWindows (begins n) := by
  have hmem : ∀ r ∈ begins n, ∃ i : Nat, i < 2 ∧
      r = { lsn := i, logTid := i, prevLsn := -1, body := .begin } := by
    intro r hr
    obtain ⟨i, hi, rfl⟩ := List.mem_map.mp hr
    exact ⟨i, by rw [List.mem_range] at hi; omega, rfl⟩
  have hlen : ∀ r ∈ begins n, r.totLen = 20 := by
    intro r hr
    obtain ⟨i, -, rfl⟩ := hmem r hr
    rfl
  have hnum : (begins n).length = n := by
    unfold begins
    rw [List.length_map, List.length_range]
  have hLBS : 2 * 20 + 12 ≤ logBufferSize := by decide
  have hprev : Int32Range (-1) := ⟨by decide, by decide⟩
  refine ⟨fun r hr => ?_, fun r hr => ?_, ?_, n * 20, ?_, by omega⟩
  · obtain ⟨i, hi, rfl⟩ := hmem r hr
    refine ⟨⟨⟨?_, ?_⟩, ⟨?_, ?_⟩, hprev, nofun⟩, ?_⟩
    · show (-2147483648 : Int) ≤ i
      omega
    · show (i : Int) < 2147483648
      omega
    · show (-2147483648 : Int) ≤ i
      omega
    · show (i : Int) < 2147483648
      omega
    · rw [hlen _ hr]
      decide
  · obtain ⟨i, -, rfl⟩ := hmem r hr
    exact Int.natCast_nonneg i
  · rw [length_of_headers hlen, hnum]
    omega
  · rw [lastOffset_of_headers hlen (by omega), hnum]

/-- **Two transactions** have begun: the entry of the second one has the number 0. -/
theorem second_transaction_wrong : ∃ d, serverRuns.Reachable d ∧ d.logFile = begins 2 ∧
    (∀ r ∈ d.logFile, Readable noTables r) ∧
    ∃ s, analyze noTables (d.logFile.flatMap (·.serialize)) = .ok s ∧
      s.activeTransactionTable 1 = some [0] ∧ unfinishedTable d.logFile 1 = some [] := by
  obtain ⟨d, hd⟩ : ∃ d, twoBegins.foldlM ServerRuns.step { earlier := [], current := none } = some d :=
    ⟨_, rfl⟩
  have hreach := serverRuns_reachable hd
  have hlog : d.logFile = begins 2 := by
    cases hd
    rfl
  obtain ⟨hrs, hreadable, hsize, hin⟩ := begins_readable (n := 2) (by decide)
  obtain ⟨hok, hspec⟩ := processAll_spec (pagesRead_new noTables) (begins 2)
  obtain ⟨s, hs⟩ := hok.mpr hreadable
  refine ⟨d, hreach, hlog, hlog ▸ hreadable, s, ?_, ?_, ?_⟩
  · rw [hlog]
    exact (analyze_complete hrs hsize s).mpr ⟨hin, hs⟩
  · rw [(hspec s hs).active]
    rfl
  · rw [hlog]
    rfl

end Rmdb
