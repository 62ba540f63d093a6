import Rmdb.Lib.Journal
import Rmdb.Recovery.RecordPages

namespace Rmdb

open Lib

/-!
# Taking back an unfinished transaction (`RecoveryManager::undo`)

`undo` goes through the log records of a transaction from the first one to the last one.  What was inserted
is deleted, what was updated gets its old value, and what was deleted is inserted again, wherever the next
insert goes.

* `Tables` — the record files that are open, as a map from record ids to records;
* `loggedChanges` — a transaction that changes records, with what is logged;
* `undo` — the loops;
* `ReinsertsHome` — each deleted record is inserted again under its own record id;
* `undo_restores_iff` — then the records are restored just if, for each of them, the last insert or delete,
  or else the last update, has found the record that was there at first.
-/

/-- `fhs_`. -/
abbrev Tables := String → Option RecordFile

/-- The records of all the tables. -/
def Tables.records (db : Tables) (k : String × Rid) : Option (List UInt8) := (db k.1).bind (·.records k.2)

/-! ### The transaction -/

/-- An executor changes a record; `lsn` is the `prev_lsn` of the transaction. -/
inductive ChangeStep (db : Tables) : LoggedChange → Tables → Prop
  | insert {f f' : RecordFile} {value rid tab} {lsn : Lsn} : db tab = some f →
      f.insertRecord value (some lsn) = .ok (rid, f') →
      ChangeStep db (.insert value rid tab) (Function.update db tab (some f'))
  | delete {f f' : RecordFile} {value rid tab} {lsn : Lsn} : db tab = some f →
      f.records rid = some value → f.deleteRecord rid (some lsn) = .ok f' →
      ChangeStep db (.delete value rid tab) (Function.update db tab (some f'))
  | update {f f' : RecordFile} {before after rid tab} {lsn : Lsn} : db tab = some f →
      f.records rid = some before → f.updateRecord rid after (some lsn) = .ok f' →
      ChangeStep db (.update before after rid tab) (Function.update db tab (some f'))

/-- **A transaction**, and what it logs. -/
def loggedChanges : TransitionSystem Tables LoggedChange where
  init _ := True
  step db c db' := ChangeStep db c db'

/-- A log record tells of a change of the map. -/
def LoggedChange.entry : LoggedChange → JournalEntry (String × Rid) (List UInt8)
  | .insert value rid tab => ⟨(tab, rid), none, some value⟩
  | .delete value rid tab => ⟨(tab, rid), some value, none⟩
  | .update before after rid tab => ⟨(tab, rid), some before, some after⟩

/-! ### The loops -/

/-- The `if`s of `undo`, for a record of a change. -/
def undoChange (fhs : Tables) (c : LoggedChange) : Except RecoveryError Tables :=
  match fhs c.tableName with
  | none => .error .outOfRange
  | some f =>
    match c with
    | .insert _ rid tab => (f.deleteRecord rid none).map fun f => Function.update fhs tab (some f)
    | .delete value _ tab =>
      (f.insertRecord value none).map fun r => Function.update fhs tab (some r.2)
    | .update before _ rid tab =>
      (f.updateRecord rid before none).map fun f => Function.update fhs tab (some f)

/-- A number of the transaction; nothing is done for another record, or if there is none. -/
def undoRecord (lsn2log : Lsn → Option LogRecord) (fhs : Tables) (lsn : Lsn) :
    Except RecoveryError Tables :=
  match (lsn2log lsn).map LogRecord.body with
  | some (.change c) => undoChange fhs c
  | _ => .ok fhs

/-- `RecoveryManager::undo`, with the entries of `active_transaction_table` in the order of the map. -/
def undo (lsn2log : Lsn → Option LogRecord) (active : List (TxnId × List Lsn)) (fhs : Tables) :
    Except RecoveryError Tables :=
  active.foldlM (fun fhs e => e.2.foldlM (undoRecord lsn2log) fhs) fhs

/-! ### What a change does to the records -/

section Records

variable {db db' : Tables} {f f' : RecordFile} {tab : String} {rid : Rid} {c : LoggedChange}

/-- A record of a table changes. -/
theorem records_update {w : Option (List UInt8)} (htab : db tab = some f)
    (h : f'.records = Function.update f.records rid w) :
    Tables.records (Function.update db tab (some f')) = Function.update db.records (tab, rid) w := by
  funext ⟨t, r⟩
  unfold Tables.records
  dsimp only
  by_cases ht : t = tab
  · subst ht
    rw [Function.update_self, Option.bind_some, h]
    by_cases hr : r = rid
    · rw [hr, Function.update_self, Function.update_self]
    · rw [Function.update_of_ne hr, Function.update_of_ne (by simpa using hr), htab, Option.bind_some]
  · rw [Function.update_of_ne ht, Function.update_of_ne (by simp [ht])]

/-- The table of a change is open, and has its page. -/
def HasPage (db : Tables) (c : LoggedChange) : Prop :=
  ∃ f, db c.tableName = some f ∧ (f.page c.rid.pageNo).isSome = true

/-- No file goes away, and no page. -/
def Extends (db db' : Tables) : Prop :=
  ∀ tab f, db tab = some f → ∃ f', db' tab = some f' ∧ ∀ n, (f.page n).isSome = true → (f'.page n).isSome = true

theorem HasPage.mono (h : HasPage db c) (hext : Extends db db') : HasPage db' c := by
  obtain ⟨f, hf, hpage⟩ := h
  obtain ⟨f', hf', hpages⟩ := hext _ f hf
  exact ⟨f', hf', hpages _ hpage⟩

theorem extends_update (htab : db tab = some f)
    (hpages : ∀ n, (f.page n).isSome = true → (f'.page n).isSome = true) :
    Extends db (Function.update db tab (some f')) := by
  intro t g hg
  by_cases ht : t = tab
  · subst ht
    rw [htab] at hg
    obtain rfl := Option.some.inj hg
    exact ⟨f', Function.update_self _ _ _, hpages⟩
  · exact ⟨g, by rw [Function.update_of_ne ht, hg], fun _ h => h⟩

/-- A new page, and the other ones. -/
theorem isSome_createPageHandle (f : RecordFile) {n : Int} (h : (f.page n).isSome = true) :
    (f.createPageHandle.2.page n).isSome = true := by
  unfold RecordFile.createPageHandle
  split
  · rw [RecordFile.page_isSome] at h ⊢
    refine ⟨h.1, ?_⟩
    show n < f.numPages + 1
    omega
  · exact h

/-- An operation on a record of a table; `g` is the file after it has got its page. -/
theorem changes_tables {g : RecordFile} {op : SlotOp Int (List UInt8)} {lsn : Option Lsn}
    (htab : db tab = some f) (hrecords : g.records = f.records)
    (hpages : ∀ n, (f.page n).isSome = true → (g.page n).isSome = true) (h : g.Changes f' rid op lsn) :
    Tables.records (Function.update db tab (some f')) =
      Function.update db.records (tab, rid) (op.result (db.records (tab, rid))) ∧
    Extends db (Function.update db tab (some f')) ∧
    ∃ f₁, Function.update db tab (some f') tab = some f₁ ∧ (f₁.page rid.pageNo).isSome = true := by
  have hold : db.records (tab, rid) = f.records rid := by
    unfold Tables.records
    rw [htab, Option.bind_some]
  refine ⟨?_, ?_, f', Function.update_self _ _ _, ?_⟩
  · rw [hold]
    exact records_update htab (hrecords ▸ h.records)
  · refine extends_update htab fun n hn => ?_
    rw [h.isSome_page]
    exact hpages n hn
  · rw [h.isSome_page]
    exact h.exists_page

/-- A record lies in a page. -/
theorem isSome_page_of_record {value : List UInt8} (h : f.records rid = some value) :
    (f.page rid.pageNo).isSome = true := by
  obtain ⟨x, hx, -⟩ := Option.bind_eq_some_iff.mp h
  rw [hx, Option.isSome_some]

/-- **A step of the transaction** is an entry of a journal. -/
theorem ChangeStep.spec (h : ChangeStep db c db') :
    (journal (String × Rid) (List UInt8)).step db.records c.entry db'.records ∧
      Extends db db' ∧ HasPage db' c := by
  cases h with
  | @insert f f' value rid tab lsn htab hf' =>
    obtain ⟨f₁, hf₁, hchanges, hnone⟩ :=
      RecordFile.insertRecord_changes (RecordFile.nextRid_of_insertRecord hf') value (some lsn)
    rw [hf'] at hf₁
    obtain ⟨-, rfl⟩ := Prod.mk.inj (Except.ok.inj hf₁)
    obtain ⟨hrecords, hext, hpage⟩ := changes_tables htab f.createPageHandle_records
      (fun _ => isSome_createPageHandle f) hchanges
    refine ⟨⟨?_, hrecords⟩, hext, hpage⟩
    show (db tab).bind _ = none
    rw [htab]
    exact hnone
  | @delete f f' value rid tab lsn htab hvalue hf' =>
    obtain ⟨f₁, hf₁, hchanges⟩ :=
      RecordFile.deleteRecord_changes (isSome_page_of_record hvalue) (some lsn)
    rw [hf'] at hf₁
    obtain rfl := Except.ok.inj hf₁
    obtain ⟨hrecords, hext, hpage⟩ := changes_tables htab rfl (fun _ hn => hn) hchanges
    refine ⟨⟨?_, hrecords⟩, hext, hpage⟩
    show (db tab).bind _ = some value
    rw [htab]
    exact hvalue
  | @update f f' before after rid tab lsn htab hvalue hf' =>
    obtain ⟨f₁, hf₁, hchanges⟩ :=
      RecordFile.updateRecord_changes (isSome_page_of_record hvalue) after (some lsn)
    rw [hf'] at hf₁
    obtain rfl := Except.ok.inj hf₁
    obtain ⟨hrecords, hext, hpage⟩ := changes_tables htab rfl (fun _ hn => hn) hchanges
    have hbefore : db.records (tab, rid) = some before := by
      show (db tab).bind _ = some before
      rw [htab]
      exact hvalue
    refine ⟨⟨hbefore, ?_⟩, hext, hpage⟩
    rw [hrecords, hbefore]
    rfl

/-- The next insert goes where the record was that is inserted again. -/
def Home (db : Tables) : LoggedChange → Prop
  | .delete _ rid tab => ∀ f, db tab = some f → f.nextRid = some rid
  | .insert .. | .update .. => True

/-- **A change is undone** as an entry of the journal. -/
theorem undoChange_spec (hpage : HasPage db c) (hhome : Home db c) : ∃ db', undoChange db c = .ok db' ∧
    db'.records = Function.update db.records c.entry.key (c.entry.undone (db.records c.entry.key)) ∧
    Extends db db' := by
  obtain ⟨f, htab, hpage⟩ := hpage
  unfold undoChange
  rw [htab]
  cases c with
  | insert value rid tab =>
    obtain ⟨f', hf', hchanges⟩ := RecordFile.deleteRecord_changes hpage none
    obtain ⟨hrecords, hext, -⟩ := changes_tables htab rfl (fun _ hn => hn) hchanges
    dsimp only
    rw [show f.deleteRecord rid none = .ok f' from hf']
    exact ⟨_, rfl, hrecords, hext⟩
  | delete value rid tab =>
    obtain ⟨f', hf', hchanges, -⟩ := RecordFile.insertRecord_changes (hhome f htab) value none
    obtain ⟨hrecords, hext, -⟩ := changes_tables htab f.createPageHandle_records
      (fun _ => isSome_createPageHandle f) hchanges
    dsimp only
    rw [hf']
    exact ⟨_, rfl, hrecords, hext⟩
  | update before after rid tab =>
    obtain ⟨f', hf', hchanges⟩ := RecordFile.updateRecord_changes hpage before none
    obtain ⟨hrecords, hext, -⟩ := changes_tables htab rfl (fun _ hn => hn) hchanges
    dsimp only
    rw [show f.updateRecord rid before none = .ok f' from hf']
    refine ⟨_, rfl, hrecords.trans ?_, hext⟩
    exact congrArg _ Option.map_eq_bind

end Records

/-! ### The transaction is taken back -/

/-- The changes undone in order. -/
def undoChanges (db : Tables) (cs : List LoggedChange) : Except RecoveryError Tables :=
  cs.foldlM undoChange db

/-- **Each deleted record is inserted again under its own record id.** -/
def ReinsertsHome (db : Tables) : List LoggedChange → Prop
  | [] => True
  | c :: cs => Home db c ∧ ∀ db', undoChange db c = .ok db' → ReinsertsHome db' cs

variable {s s' db : Tables} {cs : List LoggedChange}

/-- What the transaction does to the records is a journal; the tables and pages of the changes are there. -/
theorem run_journal (h : loggedChanges.Run s cs s') :
    (journal (String × Rid) (List UInt8)).Run s.records (cs.map (·.entry)) s'.records ∧
      ∀ c ∈ cs, HasPage s' c := by
  induction h with
  | nil => exact ⟨.nil _, nofun⟩
  | snoc _ hstep ih =>
    obtain ⟨hrun, hpages⟩ := ih
    obtain ⟨hentry, hext, hpage⟩ := ChangeStep.spec hstep
    refine ⟨?_, fun c hc => ?_⟩
    · rw [List.map_append]
      exact hrun.snoc hentry
    · rcases List.mem_append.mp hc with hc | hc
      · exact (hpages c hc).mono hext
      · rw [List.mem_singleton.mp hc]
        exact hpage

/-- **The undo in order**, if each deleted record is inserted again under its own id. -/
theorem undoChanges_spec (hpages : ∀ c ∈ cs, HasPage db c) (hhome : ReinsertsHome db cs) :
    ∃ db', undoChanges db cs = .ok db' ∧ db'.records = undoInOrder db.records (cs.map (·.entry)) := by
  induction cs generalizing db with
  | nil => exact ⟨db, rfl, rfl⟩
  | cons c cs ih =>
    obtain ⟨hpage, hpages⟩ := List.forall_mem_cons.mp hpages
    obtain ⟨db₁, hdb₁, hrecords, hext⟩ := undoChange_spec hpage hhome.1
    obtain ⟨db', hdb', hundo⟩ := ih (fun c hc => (hpages c hc).mono hext) (hhome.2 db₁ hdb₁)
    refine ⟨db', ?_, ?_⟩
    · unfold undoChanges at hdb' ⊢
      rw [List.foldlM_cons, hdb₁]
      exact hdb'
    · rw [hundo, hrecords]
      rfl

/-- The numbers of the changes. -/
theorem foldlM_undoRecord {lsn2log : Lsn → Option LogRecord} {lsns : List Lsn}
    (hfound : lsns.map (fun lsn => (lsn2log lsn).map LogRecord.body) = cs.map fun c => some (.change c))
    (db : Tables) : lsns.foldlM (undoRecord lsn2log) db = undoChanges db cs := by
  induction lsns generalizing cs db with
  | nil =>
    obtain rfl := List.map_eq_nil_iff.mp hfound.symm
    rfl
  | cons lsn lsns ih =>
    obtain ⟨c, cs, rfl, hlsn, hlsns⟩ := List.map_eq_cons_iff.mp hfound.symm
    unfold undoChanges
    rw [List.foldlM_cons, List.foldlM_cons]
    have hrecord : undoRecord lsn2log db lsn = undoChange db c := by
      unfold undoRecord
      rw [show (lsn2log lsn).map LogRecord.body = some (.change c) from hlsn.symm]
    rw [hrecord]
    exact congrArg _ (funext fun db => ih hlsns.symm db)

/-- For each record, the last insert or delete, or else the last update, has found what was there at first. -/
def FirstFound (s : Tables) (cs : List LoggedChange) : Prop :=
  ∀ k, ∀ e ∈ decisive (entriesAt k (cs.map (·.entry))), e.before = s.records k

/-- What `undo` leaves. -/
theorem undo_spec (hrun : loggedChanges.Run s cs s') {lsn2log : Lsn → Option LogRecord} {lsns : List Lsn}
    (hfound : lsns.map (fun lsn => (lsn2log lsn).map LogRecord.body) = cs.map fun c => some (.change c))
    (hhome : ReinsertsHome s' cs) (tid : TxnId) : ∃ u, undo lsn2log [(tid, lsns)] s' = .ok u ∧
      u.records = undoInOrder s'.records (cs.map (·.entry)) := by
  obtain ⟨u, hu, hrecords⟩ := undoChanges_spec (run_journal hrun).2 hhome
  refine ⟨u, ?_, hrecords⟩
  unfold undo
  rw [List.foldlM_cons, foldlM_undoRecord hfound, hu]
  rfl

/-- **When `undo` restores the records**, if each deleted record is inserted again under its own record id:
for each record, the last insert or delete of it, or else the last update, has found the value that it had
before the transaction. -/
theorem undo_restores_iff (hrun : loggedChanges.Run s cs s') {lsn2log : Lsn → Option LogRecord}
    {lsns : List Lsn}
    (hfound : lsns.map (fun lsn => (lsn2log lsn).map LogRecord.body) = cs.map fun c => some (.change c))
    (hhome : ReinsertsHome s' cs) (tid : TxnId) :
    (∃ u, undo lsn2log [(tid, lsns)] s' = .ok u ∧ u.records = s.records) ↔ FirstFound s cs := by
  obtain ⟨u, hundo, hrecords⟩ := undo_spec hrun hfound hhome tid
  unfold FirstFound
  rw [← undoInOrder_iff (run_journal hrun).1, ← hrecords]
  constructor
  · rintro ⟨u', hu', heq⟩
    rw [hundo] at hu'
    rw [Except.ok.inj hu', heq]
  · exact fun heq => ⟨u, hundo, heq⟩

/-! ### One record -/

/-- A file of one page with two slots, and a record in the first one. -/
def oneRecordFile : RecordFile where
  numRecordsPerPage := 2
  numPages := 2
  firstFreePageNo := 1
  page := fun n => if n = 1 then some ⟨0, rmNoPage, ⟨1, fun s => if s = 0 then some [1] else none⟩⟩ else none
  numPages_pos := by decide
  page_isSome := fun n => by
    split
    · next h =>
      subst h
      exact iff_of_true rfl ⟨by decide, by decide⟩
    · exact iff_of_false nofun (by omega)

/-- A table with this file. -/
def oneRecordTables (tab : String) : Option RecordFile := if tab = "t" then some oneRecordFile else none

/-- The log records of a transaction, from number 1 on. -/
def logOf (cs : List LoggedChange) (lsn : Lsn) : Option LogRecord :=
  if lsn < 1 then none
  else cs[(lsn - 1).toNat]?.map fun c => { lsn := lsn, logTid := 0, prevLsn := lsn - 1, body := .change c }

/-- The record is deleted, and inserted again under its record id. -/
theorem delete_restored : ∃ s' u, loggedChanges.Run oneRecordTables [.delete [1] ⟨1, 0⟩ "t"] s' ∧
    undo (logOf [.delete [1] ⟨1, 0⟩ "t"]) [(0, [1])] s' = .ok u ∧ u.records = Tables.records oneRecordTables := by
  obtain ⟨f, hf⟩ : ∃ f, oneRecordFile.deleteRecord ⟨1, 0⟩ (some 0) = .ok f := ⟨_, rfl⟩
  have hstep : loggedChanges.step oneRecordTables (.delete [1] ⟨1, 0⟩ "t") (Function.update oneRecordTables "t" (some f)) :=
    .delete rfl rfl hf
  have hrun := TransitionSystem.Run.snoc (.nil oneRecordTables) hstep
  have hfound : [1].map (fun lsn => (logOf [.delete [1] ⟨1, 0⟩ "t"] lsn).map LogRecord.body) =
      [LoggedChange.delete [1] ⟨1, 0⟩ "t"].map fun c => some (.change c) := rfl
  have hhome : ReinsertsHome (Function.update oneRecordTables "t" (some f)) [.delete [1] ⟨1, 0⟩ "t"] := by
    refine ⟨fun g hg => ?_, fun _ _ => trivial⟩
    rw [Function.update_self] at hg
    cases hg
    cases hf
    rfl
  have hfirst : FirstFound oneRecordTables [.delete [1] ⟨1, 0⟩ "t"] := by
    intro k e he
    by_cases hk : ("t", (⟨1, 0⟩ : Rid)) = k
    · subst hk
      cases he
      rfl
    · rw [show entriesAt k ([LoggedChange.delete [1] ⟨1, 0⟩ "t"].map (·.entry)) = [] from
        List.filter_cons_of_neg fun h => hk (of_decide_eq_true h)] at he
      cases he
  obtain ⟨u, hu, hrecords⟩ := (undo_restores_iff hrun hfound hhome 0).mpr hfirst
  exact ⟨_, u, hrun, hu, hrecords⟩

/-- **A record that is updated twice** keeps the value of the first update. -/
theorem second_update_kept : ∃ s', loggedChanges.Run oneRecordTables
      [.update [1] [2] ⟨1, 0⟩ "t", .update [2] [3] ⟨1, 0⟩ "t"] s' ∧
    ∃ u, undo (logOf [.update [1] [2] ⟨1, 0⟩ "t", .update [2] [3] ⟨1, 0⟩ "t"]) [(0, [1, 2])] s' = .ok u ∧
      u.records ("t", ⟨1, 0⟩) = some [2] ∧ Tables.records oneRecordTables ("t", ⟨1, 0⟩) = some [1] := by
  obtain ⟨f, hf⟩ : ∃ f, oneRecordFile.updateRecord ⟨1, 0⟩ [2] (some 0) = .ok f := ⟨_, rfl⟩
  obtain ⟨g, hg⟩ : ∃ g, f.updateRecord ⟨1, 0⟩ [3] (some 1) = .ok g := by
    cases hf
    exact ⟨_, rfl⟩
  have hvalue : f.records ⟨1, 0⟩ = some [2] := by
    cases hf
    rfl
  have hfirst : loggedChanges.step oneRecordTables (.update [1] [2] ⟨1, 0⟩ "t")
      (Function.update oneRecordTables "t" (some f)) := .update rfl rfl hf
  have hsecond : loggedChanges.step (Function.update oneRecordTables "t" (some f)) (.update [2] [3] ⟨1, 0⟩ "t")
      (Function.update (Function.update oneRecordTables "t" (some f)) "t" (some g)) :=
    .update (Function.update_self _ _ _) hvalue hg
  have hrun := (TransitionSystem.Run.snoc (.nil oneRecordTables) hfirst).snoc hsecond
  have hfound : [1, 2].map (fun lsn =>
      (logOf [.update [1] [2] ⟨1, 0⟩ "t", .update [2] [3] ⟨1, 0⟩ "t"] lsn).map LogRecord.body) =
      [LoggedChange.update [1] [2] ⟨1, 0⟩ "t", .update [2] [3] ⟨1, 0⟩ "t"].map fun c =>
        some (.change c) := rfl
  obtain ⟨u, hu, hrecords⟩ :=
    undo_spec hrun hfound ⟨trivial, fun _ _ => ⟨trivial, fun _ _ => trivial⟩⟩ 0
  refine ⟨_, hrun, u, hu, ?_, rfl⟩
  rw [hrecords, undoInOrder_apply, (atKey (run_journal hrun).1 _).undone_eq]
  rfl

end Rmdb
