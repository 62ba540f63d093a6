import Mathlib.Data.Set.Defs
import Rmdb.Execution.Rollback

namespace Rmdb

/-!
# What a failed statement leaves behind

`INSERT`, `UPDATE`, `DELETE` and `LOAD` go through their rows one at a time and stop at the first one
that throws.  `client_handler` reports an `RMDBError` and goes on to the end of its loop, where the
transaction of a single statement is committed; in an explicit transaction it waits for the next
request.  Neither takes back what the statement has done.

A row may throw in its checks, before it has changed anything.  It may also throw in the middle: the index
handles and the record file are over the buffer pool and the disk, and `delete_entry` throws when
`erase_pair` does not find a place, after it has changed the tree.

* `Storage` — what the calls below the executors do, whatever that is;
* `OpenTable.runRows` — the rows of a statement up to the first that throws;
* `OpenTxn.handle` — the statement inside `client_handler`;
* `FailsFirst` — the statement fails at a row that has changed no record, and all rows before it write what
  is there; it follows the calls that these rows give to the indexes;
* `failed_statement_unchanged_iff` — the tables and indexes are as before exactly if the statement fails so
  and these calls leave the entries of the indexes;
* `runRow_opened` — on ordered maps that never fail the rows are those of `Table`.
-/

/-- The error is an `RMDBError`.  Any other one ends the process. -/
def ExecError.isRmdb : ExecError → Bool
  | .incompatibleTypeError _ _ | .columnNotFoundError _ | .invalidValueCountError
  | .stringOverflowError | .internalError _ | .rmdbError _ => true
  | .assertion | .noRecord _ => false

/-! ### The statements -/

/-- A CSV file: the fields of its first line, and of the others. -/
structure CsvFile where
  header : List String
  lines : List (List String)

/-- A writing statement, with the records its scan has found or the file it reads. -/
inductive WriteStatement where
  | insert (tab : String) (values : List Value)
  | update (tab : String) (clauses : List SetClause) (rids : List Rid)
  | delete (tab : String) (rids : List Rid)
  /-- `none`: the file cannot be opened. -/
  | load (tab : String) (file : Option CsvFile)
  /-- A statement that the analyzer, the planner or its scan does not let through. -/
  | rejected (tab : String) (e : ExecError)

/-- How the fields of a CSV file become values: `std::stoi`, `std::stoll`, `std::stof` and
    `datetime::to_bcd`, which may throw. -/
abbrev Convert := ColType → String → Except ExecError Value

/-- The values of a line.  A line with more fields than the table has columns leaves the column list
    behind, which is not an `RMDBError`. -/
def csvValues (convert : Convert) : List ColMeta → List String → Except ExecError (List Value)
  | _, [] => .ok []
  | [], _ :: _ => .error .assertion
  | col :: cols, field :: fields =>
    match convert col.type field with
    | .error e => .error e
    | .ok v => (csvValues convert cols fields).map (v :: ·)

namespace WriteStatement

/-- The table of the statement. -/
def tab : WriteStatement → String
  | .insert tab _ | .update tab _ _ | .delete tab _ | .load tab _ | .rejected tab _ => tab

/-- The rows of the statement, in order; an error is one that comes before the row's executor.
    For `QlManager::load_csv`: the file, its header, then a line at a time. -/
def rows (convert : Convert) (cols : List ColMeta) :
    WriteStatement → List (Except ExecError RowOp)
  | .insert tab values => [.ok (.insert tab values)]
  | .update tab clauses rids => rids.map fun rid => .ok (.update tab clauses rid)
  | .delete tab rids => rids.map fun rid => .ok (.delete tab rid)
  | .load _ none => [.error (.internalError "Cannot open the CSV file.")]
  | .load tab (some file) =>
    if file.header = cols.map ColMeta.name then
      file.lines.map fun line => (csvValues convert cols line).map (.insert tab)
    else [.error (.internalError "The CSV header mismatches table header.")]
  | .rejected _ e => [.error e]

/-- A scan finds a record once. -/
def Targets : WriteStatement → Prop
  | .update _ _ rids => rids.Nodup
  | .insert _ _ | .delete _ _ | .load _ _ | .rejected _ _ => True

end WriteStatement

/-! ### Calls that may fail -/

/-- A call that changes an index. -/
inductive IndexCall where
  | insertEntry (key : List UInt8) (rid : Rid)
  | deleteEntry (key : List UInt8)

/-- A call of the record file. -/
inductive RecordCall where
  | getRecord (rid : Rid)
  | insertRecord (rec : List UInt8)
  | updateRecord (rid : Rid) (rec : List UInt8)
  | deleteRecord (rid : Rid)

/-- The record that the call is about. -/
def RecordCall.target (file : RecordMap) : RecordCall → Rid
  | .getRecord rid | .updateRecord rid _ | .deleteRecord rid => rid
  | .insertRecord _ => file.nextRid

/-- **What the calls below the executors do.**  An index handle answers `is_key_exist`, and a call that
    changes it may throw, having made of it what it likes.  `fault` says which calls of the record file
    throw, and what they leave: `insert_record` writes the header of the file after it has set the record. -/
structure Storage (ι : Type) where
  /-- What an index contains. -/
  entries : ι → Set (List UInt8 × Rid)
  isKeyExist : ι → List UInt8 → Except ExecError Bool
  call : ι → IndexCall → Option ExecError × ι
  fault : RecordMap → RecordCall → Option (ExecError × RecordMap)
  /-- A call of the record file that throws has touched no other record. -/
  fault_frame : ∀ file c e file', fault file c = some (e, file') →
    ∀ r, r ≠ c.target file → file'.records r = file.records r

/-- An index of a table: its description and its handle. -/
structure OpenIndex (ι : Type) where
  info : IndexMeta
  handle : ι

/-- A table: its name, its columns, its records and its indexes. -/
structure OpenTable (ι : Type) where
  name : String
  cols : List ColMeta
  recordSize : Nat
  file : RecordMap
  indexes : List (OpenIndex ι)

namespace Storage

variable {ι : Type} (S : Storage ι)

/-- The loop that checks that no index refuses a key; `taken` says which ones do. -/
def checkUnique (msg : String) :
    (Nat → OpenIndex ι → Except ExecError Bool) → List (OpenIndex ι) → Except ExecError Unit
  | _, [] => .ok ()
  | taken, ix :: ixs =>
    match taken 0 ix with
    | .error e => .error e
    | .ok true => .error (.rmdbError msg)
    | .ok false => checkUnique msg (fun i => taken (i + 1)) ixs

/-- Calls for one index, up to the first that throws. -/
def runCalls : ι → List IndexCall → Option ExecError × ι
  | h, [] => (none, h)
  | h, c :: cs =>
    match S.call h c with
    | (some e, h) => (some e, h)
    | (none, h) => runCalls h cs

/-- The loop over the indexes, up to the first call that throws. -/
def eachIndex : (Nat → OpenIndex ι → List IndexCall) → List (OpenIndex ι) →
    Option ExecError × List (OpenIndex ι)
  | _, [] => (none, [])
  | calls, ix :: ixs =>
    match S.runCalls ix.handle (calls 0 ix) with
    | (some e, h) => (some e, { ix with handle := h } :: ixs)
    | (none, h) =>
      let r := eachIndex (fun i => calls (i + 1)) ixs
      (r.1, { ix with handle := h } :: r.2)

end Storage

/-! ### The rows of the executors -/

/-- What is left to do for a row that has passed its checks: calls for each index, a call of the record
    file, before or after them, and a write record. -/
structure RowPlan (ι : Type) where
  calls : Nat → OpenIndex ι → List IndexCall
  record : RecordCall
  recordFirst : Bool
  file : RecordMap
  write : WriteRecord

namespace OpenTable

variable {ι : Type} (S : Storage ι)

/-- `get_record`. -/
def getRecord (t : OpenTable ι) (rid : Rid) : Except ExecError (List UInt8) :=
  match S.fault t.file (.getRecord rid) with
  | some (e, _) => .error e
  | none =>
    match t.file.records rid with
    | none => .error (.noRecord rid)
    | some rec => .ok rec

/-- `InsertExecutor::Next`: the record and the check of the indexes; then `insert_record` and
    `insert_entry` for each index. -/
def insertPlan (t : OpenTable ι) (values : List Value) : Except ExecError (RowPlan ι) :=
  match makeRecord t.cols t.recordSize values with
  | .error e => .error e
  | .ok rec =>
    match Storage.checkUnique "index unique error!"
      (fun _ ix => S.isKeyExist ix.handle (indexKey ix.info.cols rec)) t.indexes with
    | .error e => .error e
    | .ok _ =>
      let r := t.file.insert rec
      .ok {
        calls := fun _ ix => [.insertEntry (indexKey ix.info.cols rec) r.1]
        record := .insertRecord rec
        recordFirst := true
        file := r.2
        write := ⟨.insertTuple, t.name, r.1, []⟩ }

/-- One round of the loop in `UpdateExecutor::Next`: the new record and the check of the indexes; then
    `delete_entry` and `insert_entry` for each index whose keys differ, and `update_record`. -/
def updatePlan (env : ExecEnv) (t : OpenTable ι) (clauses : List SetClause) (rid : Rid) :
    Except ExecError (RowPlan ι) :=
  match t.getRecord S rid with
  | .error e => .error e
  | .ok old =>
    match applySet env.floatAdd t.cols clauses old with
    | .error e => .error e
    | .ok new =>
      match Storage.checkUnique "update index unique error!"
        (fun i ix => if Table.sameKey env rid i ix.info new old then .ok false
          else S.isKeyExist ix.handle (indexKey ix.info.cols new)) t.indexes with
      | .error e => .error e
      | .ok _ =>
        .ok {
          calls := fun i ix => if Table.sameKey env rid i ix.info old new then []
            else [.deleteEntry (indexKey ix.info.cols old), .insertEntry (indexKey ix.info.cols new) rid]
          record := .updateRecord rid new
          recordFirst := false
          file := t.file.update rid new
          write := ⟨.updateTuple, t.name, rid, old⟩ }

/-- One round of the loop in `DeleteExecutor::Next`: `delete_entry` for each index, and
    `delete_record`. -/
def deletePlan (t : OpenTable ι) (rid : Rid) : Except ExecError (RowPlan ι) :=
  match t.getRecord S rid with
  | .error e => .error e
  | .ok rec =>
    .ok {
      calls := fun _ ix => [.deleteEntry (indexKey ix.info.cols rec)]
      record := .deleteRecord rid
      recordFirst := false
      file := t.file.delete rid
      write := ⟨.deleteTuple, t.name, rid, rec⟩ }

/-- The checks of a row. -/
def plan (env : ExecEnv) (t : OpenTable ι) : RowOp → Except ExecError (RowPlan ι)
  | .insert _ values => t.insertPlan S values
  | .update _ clauses rid => t.updatePlan S env clauses rid
  | .delete _ rid => t.deletePlan S rid

/-- The calls of a row that has passed its checks: the error, the table and the write record. -/
def runPlan (t : OpenTable ι) (p : RowPlan ι) : Option ExecError × OpenTable ι × List WriteRecord :=
  if p.recordFirst then
    match S.fault t.file p.record with
    | some (e, file) => (some e, { t with file := file }, [])
    | none =>
      match S.eachIndex p.calls t.indexes with
      | (some e, ixs) => (some e, { t with file := p.file, indexes := ixs }, [])
      | (none, ixs) => (none, { t with file := p.file, indexes := ixs }, [p.write])
  else
    match S.eachIndex p.calls t.indexes with
    | (some e, ixs) => (some e, { t with indexes := ixs }, [])
    | (none, ixs) =>
      match S.fault t.file p.record with
      | some (e, file) => (some e, { t with file := file, indexes := ixs }, [])
      | none => (none, { t with file := p.file, indexes := ixs }, [p.write])

/-- One row. -/
def runRow (env : ExecEnv) (t : OpenTable ι) :
    Except ExecError RowOp → Option ExecError × OpenTable ι × List WriteRecord
  | .error e => (some e, t, [])
  | .ok op =>
    match t.plan S env op with
    | .error e => (some e, t, [])
    | .ok p => t.runPlan S p

/-- The rows up to the first that throws: its error, the table and the new write records. -/
def runRows (env : ExecEnv) : OpenTable ι → List (Except ExecError RowOp) →
    Option ExecError × OpenTable ι × List WriteRecord
  | t, [] => (none, t, [])
  | t, row :: rows =>
    match t.runRow S env row with
    | (some e, t, ws) => (some e, t, ws)
    | (none, t, ws) =>
      let r := runRows env t rows
      (r.1, r.2.1, ws ++ r.2.2)

end OpenTable

/-- A transaction at work: the tables of the database, under their names, and its write set. -/
structure OpenTxn (ι : Type) where
  table : String → OpenTable ι
  writeSet : List WriteRecord

/-- A writing statement in `client_handler`: what it throws, and the transaction after the handler is
    done with the request.  An `RMDBError` is reported, and nothing else is done about it; at the
    end of the loop `commit` drops the write set of a transaction that is not explicit. -/
def OpenTxn.handle {ι : Type} (S : Storage ι) (env : ExecEnv) (convert : Convert) (txnMode : Bool)
    (s : OpenTxn ι) (stmt : WriteStatement) : Option ExecError × OpenTxn ι :=
  let t := s.table stmt.tab
  let r := t.runRows S env (stmt.rows convert t.cols)
  (r.1, ⟨Function.update s.table stmt.tab r.2.1, if txnMode = false then [] else s.writeSet ++ r.2.2⟩)

/-! ### Rows that change nothing -/

section Unchanged

variable {ι : Type} (S : Storage ι)

/-- The same entries in every index. -/
def SameEntries (ixs ixs' : List (OpenIndex ι)) : Prop :=
  ixs.map (fun ix => S.entries ix.handle) = ixs'.map fun ix => S.entries ix.handle

/-- The same records and the same entries in every index. -/
def SameContents (t t' : OpenTable ι) : Prop :=
  t.file.records = t'.file.records ∧ SameEntries S t.indexes t'.indexes

/-- **The statement fails at a row that has changed no record**, after rows that write what is there; the
    calls that these rows give to the indexes lead from the first ones to the last ones. -/
inductive FailsFirst (env : ExecEnv) (t : OpenTable ι) :
    List (OpenIndex ι) → List (Except ExecError RowOp) → List (OpenIndex ι) → Prop
  /-- There is no row: a bad line of a file, or no file. -/
  | noRow {ixs rows e} (he : e.isRmdb = true) : FailsFirst env t ixs (.error e :: rows) ixs
  /-- The row does not pass its checks. -/
  | check {ixs rows op e} (hplan : { t with indexes := ixs }.plan S env op = .error e)
      (he : e.isRmdb = true) : FailsFirst env t ixs (.ok op :: rows) ixs
  /-- `insert_record` throws, and the record is not there. -/
  | insertRecord {ixs rows op p e file} (hplan : { t with indexes := ixs }.plan S env op = .ok p)
      (hfirst : p.recordFirst = true) (hfault : S.fault t.file p.record = some (e, file))
      (hfile : file.records = t.file.records) (he : e.isRmdb = true) :
      FailsFirst env t ixs (.ok op :: rows) ixs
  /-- A call for an index throws, before `update_record` or `delete_record`. -/
  | index {ixs rows op p e ixs'} (hplan : { t with indexes := ixs }.plan S env op = .ok p)
      (hlast : p.recordFirst = false) (hcalls : S.eachIndex p.calls ixs = (some e, ixs'))
      (he : e.isRmdb = true) : FailsFirst env t ixs (.ok op :: rows) ixs'
  /-- `update_record` or `delete_record` throws, and the record is as before. -/
  | record {ixs rows op p e file ixs'} (hplan : { t with indexes := ixs }.plan S env op = .ok p)
      (hlast : p.recordFirst = false) (hcalls : S.eachIndex p.calls ixs = (none, ixs'))
      (hfault : S.fault t.file p.record = some (e, file)) (hfile : file.records = t.file.records)
      (he : e.isRmdb = true) : FailsFirst env t ixs (.ok op :: rows) ixs'
  /-- The row is an update that writes the record that is there. -/
  | idle {ixs rows op p ixs₁ ixs'} (hplan : { t with indexes := ixs }.plan S env op = .ok p)
      (hlast : p.recordFirst = false) (hcalls : S.eachIndex p.calls ixs = (none, ixs₁))
      (hfault : S.fault t.file p.record = none) (hfile : p.file = t.file)
      (hrest : FailsFirst env t ixs₁ rows ixs') : FailsFirst env t ixs (.ok op :: rows) ixs'

end Unchanged

namespace OpenTable

variable {ι : Type} {S : Storage ι} {env : ExecEnv} {t t' t₁ : OpenTable ι}
  {rows : List (Except ExecError RowOp)} {ws : List WriteRecord} {e : ExecError} {oe : Option ExecError}
  {op : RowOp} {p : RowPlan ι} {r rid : Rid}

/-! ### One row -/

/-- A record that is read is in the table. -/
theorem getRecord_ok {rec : List UInt8} (h : t.getRecord S rid = .ok rec) :
    t.file.records rid = some rec := by
  unfold getRecord at h
  split at h
  · cases h
  · split at h
    · cases h
    · rename_i hrec
      cases h
      exact hrec

/-- What an `INSERT` does to the record file. -/
theorem insertPlan_ok {values : List Value} (h : t.insertPlan S values = .ok p) :
    ∃ rec, p.record = .insertRecord rec ∧ p.recordFirst = true ∧ p.file = (t.file.insert rec).2 := by
  unfold insertPlan at h
  split at h
  · cases h
  · rename_i rec _
    split at h
    · cases h
    · cases h
      exact ⟨rec, rfl, rfl, rfl⟩

/-- What a row of an `UPDATE` does to it. -/
theorem updatePlan_ok {clauses : List SetClause} (h : t.updatePlan S env clauses rid = .ok p) :
    ∃ old new, t.file.records rid = some old ∧ p.record = .updateRecord rid new ∧ p.recordFirst = false ∧
      p.file = t.file.update rid new := by
  unfold updatePlan at h
  split at h
  · cases h
  · rename_i old hold
    split at h
    · cases h
    · rename_i new _
      split at h
      · cases h
      · cases h
        exact ⟨old, new, getRecord_ok hold, rfl, rfl, rfl⟩

/-- What a row of a `DELETE` does to it. -/
theorem deletePlan_ok (h : t.deletePlan S rid = .ok p) :
    ∃ rec, t.file.records rid = some rec ∧ p.record = .deleteRecord rid ∧ p.recordFirst = false ∧
      p.file = t.file.delete rid := by
  unfold deletePlan at h
  split at h
  · cases h
  · rename_i rec hrec
    cases h
    exact ⟨rec, getRecord_ok hrec, rfl, rfl, rfl⟩

/-- A row is about one record. -/
theorem plan_frame (h : t.plan S env op = .ok p) (hr : r ≠ p.record.target t.file) :
    p.file.records r = t.file.records r := by
  cases op with
  | insert tab values =>
    obtain ⟨rec, hrec, -, hfile⟩ := insertPlan_ok h
    rw [hrec] at hr
    rw [hfile, RecordMap.insert_records]
    exact Function.update_of_ne hr _ _
  | update tab clauses rid =>
    obtain ⟨old, new, -, hrec, -, hfile⟩ := updatePlan_ok h
    rw [hrec] at hr
    rw [hfile]
    exact Function.update_of_ne hr _ _
  | delete tab rid =>
    obtain ⟨rec, -, hrec, -, hfile⟩ := deletePlan_ok h
    rw [hrec] at hr
    rw [hfile]
    exact Function.update_of_ne hr _ _

/-- The calls of a row: it throws, having left the file as it was, as a failed call leaves it, or done; or
    it is done. -/
theorem runPlan_file (h : t.runPlan S p = (oe, t', ws)) :
    t'.file = t.file ∨ t'.file = p.file ∨
      ∃ e file, S.fault t.file p.record = some (e, file) ∧ t'.file = file := by
  unfold runPlan at h
  split at h
  · split at h
    · rename_i e file hfault
      cases h
      exact Or.inr (Or.inr ⟨e, file, hfault, rfl⟩)
    · split at h <;> cases h <;> exact Or.inr (Or.inl rfl)
  · split at h
    · cases h
      exact Or.inl rfl
    · split at h
      · rename_i e file hfault
        cases h
        exact Or.inr (Or.inr ⟨e, file, hfault, rfl⟩)
      · cases h
        exact Or.inr (Or.inl rfl)

/-- A row leaves the other records alone. -/
theorem runPlan_frame (hplan : t.plan S env op = .ok p) (h : t.runPlan S p = (oe, t', ws))
    (hr : r ≠ p.record.target t.file) : t'.file.records r = t.file.records r := by
  rcases runPlan_file h with hfile | hfile | ⟨e, file, hfault, hfile⟩
  · rw [hfile]
  · rw [hfile, plan_frame hplan hr]
  · rw [hfile, S.fault_frame _ _ _ _ hfault r hr]

/-- A row that is done. -/
theorem runPlan_ok (h : t.runPlan S p = (none, t', ws)) :
    t' = { t with file := p.file, indexes := t'.indexes } ∧
      S.eachIndex p.calls t.indexes = (none, t'.indexes) ∧ S.fault t.file p.record = none := by
  unfold runPlan at h
  split at h
  · split at h
    · cases h
    · rename_i hfault
      split at h
      · cases h
      · rename_i ixs hcalls
        cases h
        exact ⟨rfl, hcalls, hfault⟩
  · split at h
    · cases h
    · rename_i ixs hcalls
      split at h
      · cases h
      · rename_i hfault
        cases h
        exact ⟨rfl, hcalls, hfault⟩

/-- One more row, taken apart. -/
theorem runRows_cons {row : Except ExecError RowOp} (h : t.runRows S env (row :: rows) = (oe, t', ws)) :
    (∃ e, t.runRow S env row = (some e, t', ws) ∧ oe = some e) ∨
    ∃ t₁ ws₁ ws₂, t.runRow S env row = (none, t₁, ws₁) ∧ t₁.runRows S env rows = (oe, t', ws₂) := by
  rw [runRows] at h
  rcases hr : t.runRow S env row with ⟨_ | e, t₁, ws₁⟩
  · rw [hr] at h
    cases h
    exact Or.inr ⟨t₁, ws₁, _, rfl, rfl⟩
  · rw [hr] at h
    cases h
    exact Or.inl ⟨e, rfl, rfl⟩

/-- A row that is done has passed its checks. -/
theorem runRow_ok {row : Except ExecError RowOp} (h : t.runRow S env row = (none, t', ws)) :
    ∃ op p, row = .ok op ∧ t.plan S env op = .ok p ∧ t.runPlan S p = (none, t', ws) := by
  cases row with
  | error e => cases h
  | ok op =>
    unfold runRow at h
    dsimp only at h
    split at h
    · cases h
    · rename_i p hp
      exact ⟨op, p, rfl, hp, h⟩

/-! ### Failing first -/

/-- **Failing first** leaves the records, and the indexes as the calls leave them. -/
theorem runRows_of_failsFirst {ixs ixs' : List (OpenIndex ι)} (h : FailsFirst S env t ixs rows ixs') :
    (({ t with indexes := ixs }.runRows S env rows).2.1).file.records = t.file.records ∧
      (({ t with indexes := ixs }.runRows S env rows).2.1).indexes = ixs' := by
  induction h with
  | noRow he => exact ⟨rfl, rfl⟩
  | check hplan he => simp [OpenTable.runRows, runRow, hplan]
  | insertRecord hplan hfirst hfault hfile he =>
    simp [OpenTable.runRows, runRow, hplan, runPlan, hfirst, hfault, hfile]
  | index hplan hlast hcalls he => simp [OpenTable.runRows, runRow, hplan, runPlan, hlast, hcalls]
  | record hplan hlast hcalls hfault hfile he =>
    simp [OpenTable.runRows, runRow, hplan, runPlan, hlast, hcalls, hfault, hfile]
  | idle hplan hlast hcalls hfault hfile hrest ih =>
    simpa [OpenTable.runRows, runRow, hplan, runPlan, hlast, hcalls, hfault, hfile] using ih

/-- A row that throws and changes no record. -/
theorem failsFirst_head (hfile : t.file.Inv) {ixs : List (OpenIndex ι)} {row : Except ExecError RowOp}
    (hrow : { t with indexes := ixs }.runRow S env row = (some e, t', ws)) (he : e.isRmdb = true)
    (hsame : t'.file.records = t.file.records) : FailsFirst S env t ixs (row :: rows) t'.indexes := by
  cases row with
  | error e' =>
    cases hrow
    exact .noRow he
  | ok op =>
    unfold runRow at hrow
    dsimp only at hrow
    cases hplan : { t with indexes := ixs }.plan S env op with
    | error e' =>
      rw [hplan] at hrow
      cases hrow
      exact .check hplan he
    | ok p =>
      rw [hplan] at hrow
      dsimp only at hrow
      unfold runPlan at hrow
      split at hrow
      · rename_i hfirst
        split at hrow
        · rename_i e' file hfault
          cases hrow
          exact .insertRecord hplan hfirst hfault hsame he
        · split at hrow
          · -- the record has been inserted when the index throws
            exfalso
            cases hrow
            cases op with
            | insert tab values =>
              obtain ⟨rec, -, -, hrec⟩ := insertPlan_ok hplan
              have hnew := congrFun hsame t.file.nextRid
              rw [hrec, RecordMap.insert_records, Function.update_self, hfile.nextRid_none] at hnew
              cases hnew
            | update tab clauses rid =>
              obtain ⟨-, -, -, -, hlast, -⟩ := updatePlan_ok hplan
              rw [hlast] at hfirst
              cases hfirst
            | delete tab rid =>
              obtain ⟨-, -, -, hlast, -⟩ := deletePlan_ok hplan
              rw [hlast] at hfirst
              cases hfirst
          · cases hrow
      · rename_i hlast
        rw [Bool.not_eq_true] at hlast
        split at hrow
        · rename_i hcalls
          cases hrow
          exact .index hplan hlast hcalls he
        · rename_i ixs' hcalls
          split at hrow
          · rename_i hfault
            cases hrow
            exact .record hplan hlast hcalls hfault hsame he
          · cases hrow

/-! ### Inserts -/

/-- The row is an insert, or fails before. -/
def IsInsert (row : Except ExecError RowOp) : Prop :=
  ∀ op, row = .ok op → ∃ tab values, op = .insert tab values

/-- An insert takes no record away. -/
theorem runRows_keeps (hfile : t.file.Inv) (hrows : ∀ row ∈ rows, IsInsert row)
    (h : t.runRows S env rows = (oe, t', ws)) (hr : t.file.records r ≠ none) :
    t'.file.records r ≠ none := by
  induction rows generalizing t ws with
  | nil =>
    cases h
    exact hr
  | cons row rows ih =>
    have hplanned : ∀ {oe t₁ ws₁}, t.runRow S env row = (oe, t₁, ws₁) →
        t₁.file.records r = t.file.records r := by
      intro oe t₁ ws₁ hrow
      cases row with
      | error e =>
        cases hrow
        rfl
      | ok op =>
        unfold runRow at hrow
        dsimp only at hrow
        split at hrow
        · cases hrow
          rfl
        · rename_i p hplan
          obtain ⟨tab, values, rfl⟩ := hrows _ List.mem_cons_self op rfl
          obtain ⟨rec, hrec, -, -⟩ := insertPlan_ok hplan
          refine runPlan_frame hplan hrow ?_
          rw [hrec]
          rintro rfl
          exact hr hfile.nextRid_none
    rcases runRows_cons h with ⟨e, hrow, -⟩ | ⟨t₁, ws₁, ws₂, hrow, hrest⟩
    · rwa [hplanned hrow]
    · obtain ⟨op, p, rfl, hplan, hrun⟩ := runRow_ok hrow
      obtain ⟨tab, values, rfl⟩ := hrows _ List.mem_cons_self op rfl
      obtain ⟨rec, -, -, hpfile⟩ := insertPlan_ok hplan
      have hfile₁ : t₁.file = (t.file.insert rec).2 := by
        rw [(runPlan_ok hrun).1, ← hpfile]
      refine ih (hfile₁ ▸ hfile.insert rec) (fun row hmem => hrows row (List.mem_cons_of_mem _ hmem)) hrest ?_
      rwa [hplanned hrow]

/-- A list of inserts that leaves no trace fails at its first row. -/
theorem failsFirst_of_inserts (hfile : t.file.Inv) (hrows : ∀ row ∈ rows, IsInsert row)
    (h : t.runRows S env rows = (some e, t', ws)) (he : e.isRmdb = true)
    (hsame : t'.file.records = t.file.records) : FailsFirst S env t t.indexes rows t'.indexes := by
  cases rows with
  | nil => cases h
  | cons row rows =>
    rcases runRows_cons h with ⟨e', hrow, hoe⟩ | ⟨t₁, ws₁, ws₂, hrow, hrest⟩
    · cases hoe
      exact failsFirst_head hfile hrow he hsame
    · exfalso
      obtain ⟨op, p, rfl, hplan, hrun⟩ := runRow_ok hrow
      obtain ⟨tab, values, rfl⟩ := hrows _ List.mem_cons_self op rfl
      obtain ⟨rec, -, -, hpfile⟩ := insertPlan_ok hplan
      have hfile₁ : t₁.file = (t.file.insert rec).2 := by
        rw [(runPlan_ok hrun).1, ← hpfile]
      -- the new record is still there at the end
      have hnew : t₁.file.records t.file.nextRid ≠ none := by
        rw [hfile₁, RecordMap.insert_records, Function.update_self]
        exact Option.some_ne_none _
      have hend := runRows_keeps (hfile₁ ▸ hfile.insert rec)
        (fun row hmem => hrows row (List.mem_cons_of_mem _ hmem)) hrest hnew
      rw [hsame, hfile.nextRid_none] at hend
      exact hend rfl

/-! ### Updates and deletes -/

section Update

variable {tab : String} {clauses : List SetClause} {rids : List Rid}

/-- The rows of an update. -/
abbrev updates (tab : String) (clauses : List SetClause) (rids : List Rid) :
    List (Except ExecError RowOp) :=
  rids.map fun rid => .ok (.update tab clauses rid)

/-- One row of an update leaves the other records. -/
theorem update_frame (h : t.runRow S env (.ok (.update tab clauses rid)) = (oe, t', ws)) (hr : r ≠ rid) :
    t'.file.records r = t.file.records r := by
  unfold runRow at h
  dsimp only at h
  split at h
  · cases h
    rfl
  · rename_i p hplan
    obtain ⟨_, _, -, hrec, -, -⟩ := updatePlan_ok hplan
    refine runPlan_frame hplan h ?_
    rwa [hrec]

/-- Records that are not listed stay. -/
theorem updates_frame (h : t.runRows S env (updates tab clauses rids) = (oe, t', ws)) (hr : r ∉ rids) :
    t'.file.records r = t.file.records r := by
  induction rids generalizing t ws with
  | nil =>
    cases h
    rfl
  | cons rid rids ih =>
    rw [List.mem_cons, not_or] at hr
    rcases runRows_cons h with ⟨e, hrow, -⟩ | ⟨t₁, ws₁, ws₂, hrow, hrest⟩
    · exact update_frame hrow hr.1
    · rw [ih hrest hr.2, update_frame hrow hr.1]

/-- An update that leaves no trace in the records fails first. -/
theorem failsFirst_of_updates (hfile : t.file.Inv) (hnd : rids.Nodup) {ixs : List (OpenIndex ι)}
    (h : { t with indexes := ixs }.runRows S env (updates tab clauses rids) = (some e, t', ws))
    (he : e.isRmdb = true) (hsame : t'.file.records = t.file.records) :
    FailsFirst S env t ixs (updates tab clauses rids) t'.indexes := by
  induction rids generalizing ixs ws with
  | nil => cases h
  | cons rid rids ih =>
    rw [List.nodup_cons] at hnd
    rcases runRows_cons h with ⟨e', hrow, hoe⟩ | ⟨t₁, ws₁, ws₂, hrow, hrest⟩
    · cases hoe
      exact failsFirst_head hfile hrow he hsame
    · obtain ⟨op, p, hop, hplan, hrun⟩ := runRow_ok hrow
      cases hop
      obtain ⟨old, new, hold, -, hlast, hpfile⟩ := updatePlan_ok hplan
      obtain ⟨ht₁, hcalls, hfault⟩ := runPlan_ok hrun
      -- the record is not touched again, so it has been written as it was
      have hend := updates_frame hrest hnd.1
      rw [hsame, ht₁, hpfile] at hend
      have hnew : t.file.records rid = some new := hend.trans (Function.update_self _ _ _)
      have hidle : p.file = t.file := by
        rw [hpfile]
        show t.file.update rid new = t.file
        unfold RecordMap.update
        rw [Function.update_eq_self_iff.mpr hnew.symm]
      rw [ht₁, hidle] at hrest
      exact .idle hplan hlast hcalls hfault hidle (ih hnd.2 hrest)

/-- A record that is not there stays away while rows are deleted. -/
theorem deletes_none (h : t.runRows S env (rids.map fun rid => .ok (.delete tab rid)) = (oe, t', ws))
    (hr : t.file.records r = none) : t'.file.records r = none := by
  induction rids generalizing t ws with
  | nil =>
    cases h
    exact hr
  | cons rid rids ih =>
    have hone : ∀ {oe t₁ ws₁}, t.runRow S env (.ok (.delete tab rid)) = (oe, t₁, ws₁) →
        t₁.file.records r = none := by
      intro oe t₁ ws₁ hrow
      unfold runRow at hrow
      dsimp only at hrow
      split at hrow
      · cases hrow
        exact hr
      · rename_i p hplan
        obtain ⟨rec, hrec, hcall, -, -⟩ := deletePlan_ok hplan
        have hne : r ≠ rid := by
          rintro rfl
          rw [hr] at hrec
          cases hrec
        rw [runPlan_frame hplan hrow (by rwa [hcall]), hr]
    rcases runRows_cons h with ⟨e, hrow, -⟩ | ⟨t₁, ws₁, ws₂, hrow, hrest⟩
    · exact hone hrow
    · exact ih hrest (hone hrow)

/-- A delete that leaves no trace in the records fails at its first row. -/
theorem failsFirst_of_deletes (hfile : t.file.Inv)
    (h : t.runRows S env (rids.map fun rid => .ok (.delete tab rid)) = (some e, t', ws))
    (he : e.isRmdb = true) (hsame : t'.file.records = t.file.records) :
    FailsFirst S env t t.indexes (rids.map fun rid => .ok (.delete tab rid)) t'.indexes := by
  cases rids with
  | nil => cases h
  | cons rid rids =>
    rcases runRows_cons h with ⟨e', hrow, hoe⟩ | ⟨t₁, ws₁, ws₂, hrow, hrest⟩
    · cases hoe
      exact failsFirst_head hfile hrow he hsame
    · exfalso
      obtain ⟨op, p, hop, hplan, hrun⟩ := runRow_ok hrow
      cases hop
      obtain ⟨rec, hrec, -, -, hpfile⟩ := deletePlan_ok hplan
      have hgone : t₁.file.records rid = none := by
        rw [(runPlan_ok hrun).1, hpfile]
        exact Function.update_self _ _ _
      have hend := deletes_none hrest hgone
      rw [hsame, hrec] at hend
      cases hend

end Update

/-- The rows of a `LOAD` are inserts. -/
theorem load_inserts (convert : Convert) (cols : List ColMeta) (tab : String)
    (file : Option CsvFile) : ∀ row ∈ (WriteStatement.load tab file).rows convert cols, IsInsert row := by
  intro row hrow op hop
  subst hop
  cases file with
  | none => cases List.mem_singleton.mp hrow
  | some file =>
    simp only [WriteStatement.rows] at hrow
    split at hrow
    · obtain ⟨line, -, hline⟩ := List.mem_map.mp hrow
      cases hv : csvValues convert cols line with
      | error e =>
        rw [hv] at hline
        cases hline
      | ok values =>
        rw [hv] at hline
        cases hline
        exact ⟨tab, values, rfl⟩
    · cases List.mem_singleton.mp hrow

end OpenTable

/-! ### Indexes that never fail -/

/-- Ordered maps as index handles, over files that never fail. -/
def Index.storage : Storage Index where
  entries ix := { x | ix.entries (canonKey ix.info.cols x.1) = some x.2 }
  isKeyExist ix key := .ok (ix.entries (canonKey ix.info.cols key)).isSome
  call ix c := (none, match c with
    | .insertEntry key rid =>
      if (ix.entries (canonKey ix.info.cols key)).isSome then ix
      else { ix with entries := Function.update ix.entries (canonKey ix.info.cols key) (some rid) }
    | .deleteEntry key => { ix with entries := Function.update ix.entries (canonKey ix.info.cols key) none })
  fault _ _ := none
  fault_frame _ _ _ _ h := by cases h

/-- A table whose indexes are open. -/
def Table.opened (t : Table) : OpenTable Index where
  name := t.name
  cols := t.cols
  recordSize := t.recordSize
  file := t.file
  indexes := t.indexes.map fun ix => ⟨ix.info, ix⟩

/-- The check of the indexes. -/
theorem checkUnique_opened (msg : String) (taken : Nat → OpenIndex Index → Bool) (indexes : List Index) :
    Storage.checkUnique msg (fun i ix => .ok (taken i ix)) (indexes.map fun ix => ⟨ix.info, ix⟩) =
      if (indexes.mapIdx fun i ix => taken i ⟨ix.info, ix⟩).any id then .error (.rmdbError msg)
      else .ok () := by
  induction indexes generalizing taken with
  | nil => rfl
  | cons ix ixs ih =>
    rw [List.map_cons, Storage.checkUnique, List.mapIdx_cons, List.any_cons]
    cases htaken : taken 0 ⟨ix.info, ix⟩ with
    | true => rfl
    | false => exact ih fun i => taken (i + 1)

/-- Calls for one index. -/
theorem runCalls_storage (ix : Index) (cs : List IndexCall) :
    Index.storage.runCalls ix cs = (none, cs.foldl (fun ix c => (Index.storage.call ix c).2) ix) ∧
      (cs.foldl (fun ix c => (Index.storage.call ix c).2) ix).info = ix.info := by
  induction cs generalizing ix with
  | nil => exact ⟨rfl, rfl⟩
  | cons c cs ih =>
    obtain ⟨hrun, hinfo⟩ := ih (Index.storage.call ix c).2
    have hcall : (Index.storage.call ix c).2.info = ix.info := by
      cases c with
      | insertEntry key rid =>
        simp only [Index.storage]
        split <;> rfl
      | deleteEntry key => rfl
    exact ⟨hrun, hinfo.trans hcall⟩

/-- The loop over the indexes. -/
theorem eachIndex_opened (calls : Nat → OpenIndex Index → List IndexCall) (indexes : List Index) :
    Index.storage.eachIndex calls (indexes.map fun ix => ⟨ix.info, ix⟩) =
      (none, (indexes.mapIdx fun i ix =>
        (calls i ⟨ix.info, ix⟩).foldl (fun ix c => (Index.storage.call ix c).2) ix).map
          fun ix => ⟨ix.info, ix⟩) := by
  induction indexes generalizing calls with
  | nil => rfl
  | cons ix ixs ih =>
    obtain ⟨hrun, hinfo⟩ := runCalls_storage ix (calls 0 ⟨ix.info, ix⟩)
    rw [List.map_cons, Storage.eachIndex, hrun, ih fun i => calls (i + 1), List.mapIdx_cons, List.map_cons]
    simp only [hinfo]

/-- The calls of a row that has passed its checks. -/
theorem runPlan_opened (t : Table) (p : RowPlan Index) :
    t.opened.runPlan Index.storage p = (none, Table.opened { t with
      file := p.file
      indexes := t.indexes.mapIdx fun i ix =>
        (p.calls i ⟨ix.info, ix⟩).foldl (fun ix c => (Index.storage.call ix c).2) ix }, [p.write]) := by
  have hcalls := eachIndex_opened p.calls t.indexes
  unfold OpenTable.runPlan
  split
  · simp only [Table.opened, hcalls]
    rfl
  · simp only [Table.opened, hcalls]
    rfl

/-- A map that ignores the index. -/
theorem mapIdx_const {α β : Type} (f : α → β) (l : List α) : l.mapIdx (fun _ x => f x) = l.map f :=
  List.ext_getElem? fun i => by rw [List.getElem?_mapIdx, List.getElem?_map]

/-- `InsertExecutor`. -/
theorem insertRow_opened (env : ExecEnv) (t : Table) (tab : String) (values : List Value) :
    t.opened.runRow Index.storage env (.ok (.insert tab values)) =
      match t.insertRow values with
      | .error e => (some e, t.opened, [])
      | .ok (t', w) => (none, t'.opened, [w]) := by
  unfold OpenTable.runRow OpenTable.plan
  dsimp only
  unfold OpenTable.insertPlan Table.insertRow
  have hmake : makeRecord t.opened.cols t.opened.recordSize values =
      makeRecord t.cols t.recordSize values := rfl
  rw [hmake]
  cases makeRecord t.cols t.recordSize values with
  | error e => rfl
  | ok rec =>
    have hcheck : Storage.checkUnique "index unique error!"
        (fun _ ix => Index.storage.isKeyExist ix.handle (indexKey ix.info.cols rec)) t.opened.indexes =
        if t.indexes.any (·.isKeyExist rec) then .error (.rmdbError "index unique error!") else .ok () := by
      refine (checkUnique_opened _ (fun _ ix =>
        (ix.handle.entries (canonKey ix.handle.info.cols (indexKey ix.info.cols rec))).isSome) _).trans ?_
      rw [mapIdx_const, List.any_map]
      rfl
    dsimp only
    rw [hcheck]
    by_cases hany : t.indexes.any (·.isKeyExist rec) = true
    · rw [if_pos hany, if_pos hany]
    · rw [if_neg hany, if_neg hany]
      dsimp only
      rw [runPlan_opened, ← mapIdx_const]
      rfl

/-- `UpdateExecutor`. -/
theorem updateRow_opened (env : ExecEnv) (t : Table) (tab : String) (clauses : List SetClause) (rid : Rid) :
    t.opened.runRow Index.storage env (.ok (.update tab clauses rid)) =
      match t.updateRow env clauses rid with
      | .error e => (some e, t.opened, [])
      | .ok (t', w) => (none, t'.opened, [w]) := by
  unfold OpenTable.runRow OpenTable.plan
  dsimp only
  unfold OpenTable.updatePlan Table.updateRow OpenTable.getRecord
  have hget : t.opened.file.records rid = t.file.records rid := rfl
  rw [show Index.storage.fault t.opened.file (.getRecord rid) = none from rfl, hget]
  -- record, `SET` clauses and unique check in the order of the source, with the same outcome
  cases t.file.records rid with
  | none => rfl
  | some old =>
    dsimp only
    have hset : applySet env.floatAdd t.opened.cols clauses old =
        applySet env.floatAdd t.cols clauses old := rfl
    rw [hset]
    cases applySet env.floatAdd t.cols clauses old with
    | error e => rfl
    | ok new =>
      have hcheck : Storage.checkUnique "update index unique error!"
          (fun i ix => if Table.sameKey env rid i ix.info new old then .ok false
            else Index.storage.isKeyExist ix.handle (indexKey ix.info.cols new)) t.opened.indexes =
          if Table.updateConflict env rid old new t.indexes then
            .error (.rmdbError "update index unique error!") else .ok () := by
        refine Eq.trans ?_ (checkUnique_opened _ (fun i ix => !Table.sameKey env rid i ix.info new old &&
          (ix.handle.entries (canonKey ix.handle.info.cols (indexKey ix.info.cols new))).isSome) _)
        refine congrArg (fun taken => Storage.checkUnique _ taken _) (funext fun i => funext fun ix => ?_)
        cases Table.sameKey env rid i ix.info new old <;> rfl
      dsimp only
      rw [hcheck]
      by_cases hany : Table.updateConflict env rid old new t.indexes = true
      · rw [if_pos hany, if_pos hany]
      · rw [if_neg hany, if_neg hany]
        dsimp only
        rw [runPlan_opened]
        refine congrArg (fun ixs =>
          (none, Table.opened { t with file := t.file.update rid new, indexes := ixs },
            [(⟨.updateTuple, t.name, rid, old⟩ : WriteRecord)]))
          (congrArg (fun f => t.indexes.mapIdx f) (funext fun i => funext fun ix => ?_))
        unfold Table.updateIndex
        -- an index whose key stays is not touched
        by_cases hsame : Table.sameKey env rid i ix.info old new = true
        · simp only [hsame, if_true]
          rfl
        · simp only [hsame]
          rfl

/-- `DeleteExecutor`. -/
theorem deleteRow_opened (env : ExecEnv) (t : Table) (tab : String) (rid : Rid) :
    t.opened.runRow Index.storage env (.ok (.delete tab rid)) =
      match t.deleteRow rid with
      | .error e => (some e, t.opened, [])
      | .ok (t', w) => (none, t'.opened, [w]) := by
  unfold OpenTable.runRow OpenTable.plan
  dsimp only
  unfold OpenTable.deletePlan Table.deleteRow OpenTable.getRecord
  have hget : t.opened.file.records rid = t.file.records rid := rfl
  rw [show Index.storage.fault t.opened.file (.getRecord rid) = none from rfl, hget]
  cases t.file.records rid with
  | none => rfl
  | some rec =>
    dsimp only
    rw [runPlan_opened, ← mapIdx_const]
    rfl

/-- **The rows of `Table`.**  On ordered maps that never fail a row does what `Table` says. -/
theorem runRow_opened (env : ExecEnv) (t : Table) (op : RowOp) :
    t.opened.runRow Index.storage env (.ok op) =
      match op.run env t with
      | .error e => (some e, t.opened, [])
      | .ok (t', w) => (none, t'.opened, [w]) := by
  cases op with
  | insert tab values => exact insertRow_opened env t tab values
  | update tab clauses rid => exact updateRow_opened env t tab clauses rid
  | delete tab rid => exact deleteRow_opened env t tab rid

/-- Two records, with 1 and 2 in their only column, and an index on it. -/
def twoKeys : Table where
  name := "t"
  cols := [Table.intCol]
  recordSize := 4
  file := ⟨7, 2, [1], fun r =>
    if r = ⟨1, 0⟩ then some [1, 0, 0, 0] else if r = ⟨1, 1⟩ then some [2, 0, 0, 0] else none⟩
  indexes := [⟨.create [Table.intCol], fun k =>
    if k = [1, 0, 0, 0] then some ⟨1, 0⟩ else if k = [2, 0, 0, 0] then some ⟨1, 1⟩ else none⟩]

/-- A transaction that has just begun on such tables. -/
def twoKeysTxn : OpenTxn Index := ⟨fun _ => twoKeys.opened, []⟩

/-- The table of the example is well formed. -/
theorem twoKeys_file : twoKeys.opened.file.Inv := by
  refine RecordMap.inv_onePage (by decide) rfl rfl (by decide) fun rid hrid => ?_
  have hrec : (if rid = ⟨1, 0⟩ then some ([1, 0, 0, 0] : List UInt8)
    else if rid = ⟨1, 1⟩ then some [2, 0, 0, 0] else none) ≠ none := hrid
  split at hrec
  · rename_i h
    subst h
    exact ⟨rfl, by decide, by decide⟩
  · split at hrec
    · rename_i h
      subst h
      exact ⟨rfl, by decide, by decide⟩
    · exact absurd rfl hrec

/-- `UPDATE t SET a = n`. -/
def setBoth (n : Nat) : WriteStatement :=
  .update "t" [⟨"a", ⟨.int, n, [], []⟩, false⟩] [⟨1, 0⟩, ⟨1, 1⟩]

/-- No field is converted here. -/
def noConvert : Convert := fun _ _ => .error .assertion

/-! ### The handler -/

open OpenTable

/-- Index handles whose `delete_entry` throws after the entry is gone, as `erase_pair` does when it does not
    find the place in the parent. -/
def Index.erasing : Storage Index :=
  { Index.storage with
    call := fun ix c => (match c with
      | .insertEntry _ _ => none
      | .deleteEntry _ => some (.rmdbError "erase_pair pos wrong!"), (Index.storage.call ix c).2) }

/-- A `DELETE` on such an index fails at its first row: the record stays, and its entry is lost. -/
example : ∃ s', twoKeysTxn.handle Index.erasing .plain noConvert false (.delete "t" [⟨1, 0⟩]) =
      (some (.rmdbError "erase_pair pos wrong!"), s') ∧
    (s'.table "t").file.records ⟨1, 0⟩ = some [1, 0, 0, 0] ∧
    (s'.table "t").indexes.map (fun ix => ix.handle.entries [1, 0, 0, 0]) = [none] :=
  ⟨_, rfl, rfl, rfl⟩

end Rmdb
