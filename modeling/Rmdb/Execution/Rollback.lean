import Rmdb.Execution.IndexMaintenance
import Rmdb.Lib.Transition

namespace Rmdb

open Lib

/-!
# Does `abort` restore the database?

A transaction changes rows through the executors and collects write records; `abort` takes them back,
last one first.

* `txnRowSystem` — the transaction of one client, row by row; `undoableSystem` — the same, where each
  row meets `Undoable`;
* `Restored` — same records and indexes; pages the transaction has created may stay at the end of
  the chain of free pages;
* `restored_undo` — the undo of one row, in any state that looks like the one right after it;
* `abort_restores` — the undo of a whole transaction;
* `abort_swaps_deleted_rows` — a transaction that `abort` does not take back.
-/

/-- The tables of the database, under their names. -/
structure Db where
  table : String → Table
  name_eq : ∀ n, (table n).name = n

namespace Db

/-- Put a table in the place of the one with its name. -/
def set (db : Db) (t : Table) : Db where
  table := Function.update db.table t.name t
  name_eq n := by
    by_cases hn : n = t.name
    · subst hn
      rw [Function.update_self]
    · rw [Function.update_of_ne hn]
      exact db.name_eq n

theorem table_set (db : Db) {t : Table} {n : String} (hn : t.name = n) (m : String) :
    (db.set t).table m = if m = n then t else db.table m := by
  subst hn
  exact Function.update_apply _ _ _ _

end Db

/-- A transaction at work: the database and its write set. -/
structure TxnRows where
  db : Db
  writeSet : List WriteRecord

/-- The rows the executors work on, with the table. -/
inductive RowOp where
  | insert (tab : String) (values : List Value)
  | update (tab : String) (clauses : List SetClause) (rid : Rid)
  | delete (tab : String) (rid : Rid)

namespace RowOp

/-- The table of the row. -/
def tab : RowOp → String
  | .insert tab _ | .update tab _ _ | .delete tab _ => tab

/-- What the executor does with the row. -/
def run (env : ExecEnv) (t : Table) : RowOp → Except ExecError (Table × WriteRecord)
  | .insert _ values => t.insertRow values
  | .update _ clauses rid => Table.updateRow env t clauses rid
  | .delete _ rid => t.deleteRow rid

/-- The row can be taken back.  For a delete: the record id just given free is the one the next insert
    would take.  For an update: neither `strncmp` nor `memcmp` takes two different keys for one.  In
    both cases the indexes hold the row. -/
def Undoable (env : ExecEnv) (t : Table) : RowOp → Prop
  | .insert _ _ => True
  | .delete _ rid => (t.file.delete rid).nextRid = rid ∧
      ∀ rec, t.file.records rid = some rec → ∀ ix ∈ t.indexes,
        ix.entries (ix.keyOf rec) = some rid
  | .update _ clauses rid => ∀ old new, t.file.records rid = some old →
      applySet env.floatAdd t.cols clauses old = .ok new →
      ∀ i ix, t.indexes[i]? = some ix → ix.entries (ix.keyOf old) = some rid ∧
        (Table.sameKey env rid i ix.info old new = true ∨
          memcmpEq ix.info.colTotLen (indexKey ix.info.cols new) (indexKey ix.info.cols old) = true →
          ix.keyOf new = ix.keyOf old)

end RowOp

namespace TxnRows

/-- A row that the executor completes. -/
def step (env : ExecEnv) (s : TxnRows) (op : RowOp) : Except ExecError TxnRows :=
  match op.run env (s.db.table op.tab) with
  | .error e => .error e
  | .ok (t, w) => .ok ⟨s.db.set t, s.writeSet ++ [w]⟩

/-- One round of the loop of `abort`. -/
def undoOne (db : Db) (w : WriteRecord) : Except ExecError Db :=
  ((db.table w.tabName).undo w).map db.set

/-- `TransactionManager::abort`: the write set from its back. -/
def abort (s : TxnRows) : Except ExecError Db := s.writeSet.reverse.foldlM undoOne s.db

end TxnRows

/-- The transaction of one client on a database. -/
def txnRowSystem (env : ExecEnv) (db : Db) : TransitionSystem TxnRows RowOp where
  init s := s = ⟨db, []⟩
  step s op s' := s.step env op = .ok s'

/-- The transaction, when every row can be taken back. -/
def undoableSystem (env : ExecEnv) (db : Db) : TransitionSystem TxnRows RowOp where
  init s := s = ⟨db, []⟩
  step s op s' := op.Undoable env (s.db.table op.tab) ∧ s.step env op = .ok s'

/-- The same records and the same indexes.  The chain may have got new pages at its end. -/
structure Restored (t t' : Table) : Prop where
  name : t.name = t'.name
  cols : t.cols = t'.cols
  recordSize : t.recordSize = t'.recordSize
  indexes : t.indexes = t'.indexes
  perPage : t.file.perPage = t'.file.perPage
  records : t.file.records = t'.file.records
  chain : ∃ more, t.file.chain = t'.file.chain ++ more

theorem Restored.refl (t : Table) : Restored t t :=
  ⟨rfl, rfl, rfl, rfl, rfl, rfl, [], (List.append_nil _).symm⟩

/-! ### Indexes -/

section Index

variable {ix : Index} {rec old new : List UInt8} {rid : Rid}

theorem Index.ext {a b : Index} (hinfo : a.info = b.info) (h : ∀ k, a.entries k = b.entries k) :
    a = b := by
  obtain ⟨i, e⟩ := a
  obtain ⟨i', e'⟩ := b
  have he : e = e' := funext h
  simp only at hinfo
  rw [hinfo, he]

open Table in
/-- Taking a new key out again. -/
theorem deleteEntry_insertEntry (h : ix.isKeyExist rec = false) :
    (ix.insertEntry rec rid).deleteEntry rec = ix := by
  refine Index.ext (by rw [info_deleteEntry, info_insertEntry]) fun k => ?_
  rw [entries_deleteEntry, keyOf_congr info_insertEntry, entries_insertEntry h]
  split
  · rename_i hk
    rw [hk, isKeyExist_eq_false.mp h]
  · rfl

open Table in
/-- Putting an old key back. -/
theorem insertEntry_deleteEntry (h : ix.entries (ix.keyOf rec) = some rid) :
    (ix.deleteEntry rec).insertEntry rec rid = ix := by
  have hfree : (ix.deleteEntry rec).isKeyExist rec = false := by
    rw [isKeyExist_eq_false, entries_deleteEntry, keyOf_congr info_deleteEntry, if_pos rfl]
  refine Index.ext (by rw [info_insertEntry, info_deleteEntry]) fun k => ?_
  rw [entries_insertEntry hfree, keyOf_congr info_deleteEntry, entries_deleteEntry]
  split
  · rename_i hk
    rw [hk, h]
  · rfl

open Table in
/-- A changed key changed back. -/
theorem replace_replace (hnew : ix.isKeyExist new = false)
    (hold : ix.entries (ix.keyOf old) = some rid) :
    (((ix.deleteEntry old).insertEntry new rid).deleteEntry new).insertEntry old rid = ix := by
  rw [deleteEntry_insertEntry (isKeyExist_deleteEntry hnew), insertEntry_deleteEntry hold]

open Table in
/-- A key replaced by itself. -/
theorem replace_same (hkey : ix.keyOf new = ix.keyOf old)
    (hold : ix.entries (ix.keyOf old) = some rid) :
    (ix.deleteEntry new).insertEntry old rid = ix := by
  have hdel : ix.deleteEntry new = ix.deleteEntry old := by
    unfold Index.deleteEntry
    rw [hkey]
  rw [hdel, insertEntry_deleteEntry hold]

end Index

/-! ### One row -/

section Row

variable {env : ExecEnv} {t t' a : Table} {w : WriteRecord}

open Table

/-- **The undo of an insert.** -/
theorem restored_undo_insert {values : List Value} (hfile : t.file.Inv)
    (hrun : t.insertRow values = .ok (t', w)) (ha : Restored a t') :
    ∃ a', a.undo w = .ok a' ∧ Restored a' t := by
  obtain ⟨rec, hnew, rfl, rfl⟩ := insertRow_ok hrun
  obtain ⟨hroom, n, l, hchain⟩ := hfile.withRoom
  have hins := RecordMap.insert_eq_insertAt hchain rec
  have hrid : (t.file.insert rec).1 = t.file.nextRid := RecordMap.insert_fst _ _
  have hrecs : a.file.records = Function.update t.file.records t.file.nextRid (some rec) :=
    ha.records.trans (RecordMap.insert_records _ _)
  have hpage : t.file.nextRid.pageNo = n := by
    rw [← hrid, hins]
    rfl
  have hper : a.file.perPage = t.file.withRoom.perPage := by
    rw [ha.perPage]
    show (t.file.insert rec).2.perPage = _
    rw [hins]
    rfl
  have hself : a.file.records t.file.nextRid = some rec := by rw [hrecs, Function.update_self]
  unfold Table.undo
  rw [hrid]
  dsimp only
  rw [hself]
  refine ⟨_, rfl, ha.name, ha.cols, ha.recordSize, ?_, ?_, ?_, ?_⟩
  · -- the keys were not in the indexes before
    show a.indexes.map _ = t.indexes
    rw [ha.indexes, List.map_map]
    refine (List.map_congr_left fun ix hix => ?_).trans (List.map_id _)
    exact deleteEntry_insertEntry (hnew ix hix)
  · show a.file.perPage = t.file.perPage
    rw [hper]
    unfold RecordMap.withRoom
    split <;> rfl
  · show Function.update a.file.records t.file.nextRid none = t.file.records
    rw [hrecs, Function.update_idem, ← hfile.nextRid_none, Function.update_eq_self]
  · -- a page that left the chain comes back, a new one stays at the end
    obtain ⟨more, hmore⟩ := ha.chain
    have hchain' : (t.file.insert rec).2.chain =
        if (t.file.insert rec).2.isFull n then l else n :: l := by
      rw [hins]
      rfl
    have hfull : a.file.isFull n = (t.file.insert rec).2.isFull n :=
      RecordMap.isFull_congr ha.perPage fun s _ => by rw [ha.records]
    have hback : (a.file.delete t.file.nextRid).chain = n :: (l ++ more) := by
      show (if a.file.isFull t.file.nextRid.pageNo then _ else _) = _
      rw [hpage, hfull, hmore]
      show (if _ then n :: ((t.file.insert rec).2.chain ++ more)
        else (t.file.insert rec).2.chain ++ more) = _
      rw [hchain']
      split <;> rfl
    refine (?_ : ∃ more', (a.file.delete t.file.nextRid).chain = t.file.chain ++ more')
    rw [hback]
    unfold RecordMap.withRoom at hchain
    cases hc : t.file.chain with
    | nil => exact ⟨n :: (l ++ more), rfl⟩
    | cons n' l' =>
      rw [hc] at hchain
      dsimp only at hchain
      rw [hc] at hchain
      cases hchain
      exact ⟨more, rfl⟩

/-- **The undo of a delete** whose record id is the next to be taken. -/
theorem restored_undo_delete {rid : Rid} (hfile : t.file.Inv)
    (hrun : t.deleteRow rid = .ok (t', w)) (ha : Restored a t')
    (hnext : (t.file.delete rid).nextRid = rid)
    (hentries : ∀ rec, t.file.records rid = some rec → ∀ ix ∈ t.indexes,
      ix.entries (ix.keyOf rec) = some rid) : ∃ a', a.undo w = .ok a' ∧ Restored a' t := by
  obtain ⟨rec, hrec, rfl, rfl⟩ := deleteRow_ok hrun
  obtain ⟨h1, h2, -, -⟩ := hfile.range rid (by rw [hrec]; exact Option.some_ne_none _)
  -- the page of the record is first in the chain
  obtain ⟨l, hchain⟩ : ∃ l, (t.file.delete rid).chain = rid.pageNo :: l := by
    unfold RecordMap.nextRid at hnext
    cases hc : (t.file.delete rid).chain with
    | nil =>
      rw [hc] at hnext
      have hpage := congrArg Rid.pageNo hnext
      have hpage' : t.file.numPages = rid.pageNo := hpage
      omega
    | cons n l =>
      rw [hc] at hnext
      exact ⟨l, by rw [← congrArg Rid.pageNo hnext]⟩
  have hslot : ((t.file.delete rid).freeSlot rid.pageNo : Int) = rid.slotNo := by
    unfold RecordMap.nextRid at hnext
    rw [hchain] at hnext
    exact congrArg Rid.slotNo hnext
  obtain ⟨more, hmore⟩ := ha.chain
  have hachain : a.file.chain = rid.pageNo :: (l ++ more) := by
    rw [hmore]
    show (t.file.delete rid).chain ++ more = _
    rw [hchain]
    rfl
  have haslot : a.file.freeSlot rid.pageNo = (t.file.delete rid).freeSlot rid.pageNo := by
    unfold RecordMap.freeSlot
    rw [ha.records, ha.perPage]
  have hins : a.file.insert rec = a.file.insertAt rid.pageNo (l ++ more) rec := by
    unfold RecordMap.insert
    rw [hachain]
  have hrid : (a.file.insert rec).1 = rid := by
    rw [hins]
    show (⟨rid.pageNo, (a.file.freeSlot rid.pageNo : Int)⟩ : Rid) = rid
    rw [haslot, hslot]
  have hrecs : (a.file.insert rec).2.records = t.file.records := by
    rw [RecordMap.insert_records, ← RecordMap.insert_fst a.file rec, hrid, ha.records]
    show Function.update (Function.update t.file.records rid none) rid (some rec) = _
    rw [Function.update_idem, ← hrec, Function.update_eq_self]
  have hper : (a.file.insert rec).2.perPage = t.file.perPage := by
    rw [hins]
    exact ha.perPage
  refine ⟨_, rfl, ha.name, ha.cols, ha.recordSize, ?_, hper, hrecs, more, ?_⟩
  · show a.indexes.map _ = t.indexes
    rw [ha.indexes, List.map_map]
    refine (List.map_congr_left fun ix hix => ?_).trans (List.map_id _)
    show (ix.deleteEntry rec).insertEntry rec (a.file.insert rec).1 = ix
    rw [hrid]
    exact insertEntry_deleteEntry (hentries rec hrec ix hix)
  · -- the page is full again exactly when it was full before
    show (a.file.insert rec).2.chain = t.file.chain ++ more
    have hfull : (a.file.insert rec).2.isFull rid.pageNo = t.file.isFull rid.pageNo :=
      RecordMap.isFull_congr hper fun s _ => by rw [hrecs]
    have hchain' : (a.file.insert rec).2.chain = if (a.file.insert rec).2.isFull rid.pageNo then
        l ++ more else rid.pageNo :: (l ++ more) := by
      rw [hins]
      rfl
    rw [hchain', hfull]
    have hdel : (if t.file.isFull rid.pageNo then rid.pageNo :: t.file.chain else t.file.chain) =
        rid.pageNo :: l := hchain
    split
    · rename_i hf
      rw [if_pos hf] at hdel
      rw [(List.cons.inj hdel).2]
    · rename_i hf
      rw [if_neg hf] at hdel
      rw [hdel]
      rfl

/-- **The undo of an update** whose keys are told apart. -/
theorem restored_undo_update {clauses : List SetClause} {rid : Rid}
    (hrun : updateRow env t clauses rid = .ok (t', w)) (ha : Restored a t')
    (hok : RowOp.Undoable env t (.update "" clauses rid)) :
    ∃ a', a.undo w = .ok a' ∧ Restored a' t := by
  obtain ⟨old, new, hold, hnew, hcheck, rfl, rfl⟩ := updateRow_ok hrun
  have hself : a.file.records rid = some new := by
    rw [ha.records]
    exact Function.update_self _ _ _
  unfold Table.undo
  dsimp only
  rw [hself]
  refine ⟨_, rfl, ha.name, ha.cols, ha.recordSize, ?_, ha.perPage, ?_, ha.chain⟩
  · show a.indexes.map _ = t.indexes
    rw [ha.indexes]
    refine List.ext_getElem? fun i => ?_
    rw [List.getElem?_map, List.getElem?_mapIdx, Option.map_map]
    cases hix : t.indexes[i]? with
    | none => rfl
    | some ix =>
      obtain ⟨hentry, hsame⟩ := hok old new hold hnew i ix hix
      rw [Option.map_some]
      congr 1
      show (if memcmpEq (updateIndex env rid old new i ix).info.colTotLen _ _ then _ else _) = ix
      rw [info_updateIndex]
      unfold updateIndex
      by_cases hs : sameKey env rid i ix.info old new = true
      · rw [if_pos hs]
        split
        · rfl
        · exact replace_same (hsame (Or.inl hs)) hentry
      · rw [if_neg hs]
        have hfree := (hcheck i ix hix).resolve_left hs
        split
        · -- `memcmp` would say that the new key is the old one, which is in the index
          rename_i hm
          have hkey := hsame (Or.inr hm)
          rw [isKeyExist_eq_false, hkey, hentry] at hfree
          cases hfree
        · exact replace_replace hfree hentry
  · show Function.update a.file.records rid (some old) = t.file.records
    rw [ha.records]
    show Function.update (Function.update t.file.records rid (some new)) rid (some old) = _
    rw [Function.update_idem, ← hold, Function.update_eq_self]

/-- **The undo of one row.** -/
theorem restored_undo {op : RowOp} (hfile : t.file.Inv) (hrun : op.run env t = .ok (t', w))
    (hok : op.Undoable env t) (ha : Restored a t') : ∃ a', a.undo w = .ok a' ∧ Restored a' t := by
  cases op with
  | insert tab values => exact restored_undo_insert hfile hrun ha
  | update tab clauses rid => exact restored_undo_update hrun ha hok
  | delete tab rid => exact restored_undo_delete hfile hrun ha hok.1 hok.2

/-- The write record names the table, and the table keeps its name. -/
theorem run_name {op : RowOp} (hrun : op.run env t = .ok (t', w)) :
    t'.name = t.name ∧ w.tabName = t.name := by
  cases op with
  | insert tab values =>
    obtain ⟨rec, -, rfl, rfl⟩ := insertRow_ok hrun
    exact ⟨rfl, rfl⟩
  | update tab clauses rid =>
    obtain ⟨old, new, -, -, -, rfl, rfl⟩ := updateRow_ok hrun
    exact ⟨rfl, rfl⟩
  | delete tab rid =>
    obtain ⟨rec, -, rfl, rfl⟩ := deleteRow_ok hrun
    exact ⟨rfl, rfl⟩

/-- The record file stays well formed. -/
theorem run_file_inv {op : RowOp} (hfile : t.file.Inv) (hrun : op.run env t = .ok (t', w)) :
    t'.file.Inv := by
  cases op with
  | insert tab values =>
    obtain ⟨rec, -, rfl, -⟩ := insertRow_ok hrun
    exact hfile.insert _
  | update tab clauses rid =>
    obtain ⟨old, new, hold, -, -, rfl, -⟩ := updateRow_ok hrun
    exact hfile.update (by rw [hold]; exact Option.some_ne_none _) new
  | delete tab rid =>
    obtain ⟨rec, hrec, rfl, -⟩ := deleteRow_ok hrun
    exact hfile.delete (by rw [hrec]; exact Option.some_ne_none _)

end Row

/-! ### Whole transactions -/

section Txn

variable {env : ExecEnv} {db : Db}

/-- What a transaction keeps: the files are well formed, and undoing the write set from any state that
    looks like the present one leads back to the start. -/
theorem undoable_run (hfile : ∀ tab, (db.table tab).file.Inv) {s : TxnRows}
    (hs : (undoableSystem env db).Reachable s) :
    (∀ tab, (s.db.table tab).file.Inv) ∧
      ∀ a : Db, (∀ tab, Restored (a.table tab) (s.db.table tab)) →
        ∃ b, s.writeSet.reverse.foldlM TxnRows.undoOne a = .ok b ∧
          ∀ tab, Restored (b.table tab) (db.table tab) := by
  induction hs with
  | init h =>
    rw [show _ = _ from h]
    exact ⟨hfile, fun a ha => ⟨a, rfl, ha⟩⟩
  | @step s s' op _ hstep ih =>
    obtain ⟨hinv, hback⟩ := ih
    obtain ⟨hok, hrun⟩ := hstep
    unfold TxnRows.step at hrun
    split at hrun
    · cases hrun
    rename_i t w hrow
    cases hrun
    obtain ⟨hname, hwname⟩ := run_name hrow
    rw [s.db.name_eq] at hname hwname
    have htab := s.db.table_set hname
    refine ⟨fun tab => ?_, fun a ha => ?_⟩
    · show ((s.db.set t).table tab).file.Inv
      rw [htab]
      split
      · exact run_file_inv (hinv _) hrow
      · exact hinv tab
    · -- the last row is undone first
      have haop := ha op.tab
      dsimp only at haop
      rw [htab, if_pos rfl] at haop
      obtain ⟨a', hundo, ha'⟩ := restored_undo (hinv _) hrow hok haop
      have hone : TxnRows.undoOne a w = .ok (a.set a') := by
        unfold TxnRows.undoOne
        rw [hwname, hundo]
        rfl
      show ∃ b, (s.writeSet ++ [w]).reverse.foldlM TxnRows.undoOne a = .ok b ∧ _
      rw [List.reverse_append, List.reverse_singleton, List.singleton_append, List.foldlM_cons, hone]
      refine hback _ fun tab => ?_
      rw [a.table_set (ha'.name.trans (s.db.name_eq _))]
      split
      · rename_i hop
        rw [hop]
        exact ha'
      · rename_i hop
        have hatab := ha tab
        dsimp only at hatab
        rw [htab, if_neg hop] at hatab
        exact hatab

/-- **`abort` restores the database** after every transaction whose rows can be taken back: the same
    map from record ids to records, and the same entries in every index. -/
theorem abort_restores (env : ExecEnv) (db : Db) (hfile : ∀ tab, (db.table tab).file.Inv)
    (s : TxnRows) (hs : (undoableSystem env db).Reachable s) :
    ∃ db', s.abort = .ok db' ∧ ∀ tab,
      (db'.table tab).file.records = (db.table tab).file.records ∧
        (db'.table tab).indexes = (db.table tab).indexes := by
  obtain ⟨db', habort, h⟩ := (undoable_run hfile hs).2 s.db (fun tab => Restored.refl _)
  exact ⟨db', habort, fun tab => ⟨(h tab).records, (h tab).indexes⟩⟩

/-- A database whose tables have one record. -/
def oneRowDb : Db := ⟨fun n => { Table.oneRow with name := n }, fun _ => rfl⟩

/-- The theorem at a transaction that inserts a row and deletes the row that was there. -/
theorem abort_restores_insert_delete : ∃ s, (undoableSystem .plain oneRowDb).Reachable s ∧
    s.writeSet = [⟨.insertTuple, "t", ⟨1, 1⟩, []⟩, ⟨.deleteTuple, "t", ⟨1, 0⟩, [0, 0, 0, 0]⟩] ∧
    ∃ db', s.abort = .ok db' ∧ ∀ tab,
      (db'.table tab).file.records = (oneRowDb.table tab).file.records ∧
        (db'.table tab).indexes = (oneRowDb.table tab).indexes := by
  have h₁ : (undoableSystem .plain oneRowDb).Reachable _ :=
    .step (.init rfl) (a := .insert "t" [⟨.int, 5, [], []⟩]) ⟨trivial, rfl⟩
  have h₂ : (undoableSystem .plain oneRowDb).Reachable _ :=
    .step h₁ (a := .delete "t" ⟨1, 0⟩) ⟨⟨by decide, fun rec hrec ix hix => by
      cases hrec
      cases hix with
      | head => decide
      | tail _ hix => cases hix⟩, rfl⟩
  exact ⟨_, h₂, rfl, abort_restores .plain oneRowDb (fun _ => Table.oneRow_file) _ h₂⟩

/-- A table of two records, without indexes. -/
def twoRows : Table where
  name := "t"
  cols := [Table.intCol]
  recordSize := 4
  file := ⟨7, 2, [1], fun r =>
    if r = ⟨1, 0⟩ then some [0, 0, 0, 0] else if r = ⟨1, 1⟩ then some [1, 0, 0, 0] else none⟩
  indexes := []

/-- A database of such tables. -/
def twoRowsDb : Db := ⟨fun n => { twoRows with name := n }, fun _ => rfl⟩

theorem twoRows_file : twoRows.file.Inv := by
  refine RecordMap.inv_onePage (by decide) rfl rfl (by decide) fun rid hrid => ?_
  have hrec : (if rid = ⟨1, 0⟩ then some ([0, 0, 0, 0] : List UInt8)
    else if rid = ⟨1, 1⟩ then some [1, 0, 0, 0] else none) ≠ none := hrid
  split at hrec
  · rename_i h
    subst h
    exact ⟨rfl, by decide, by decide⟩
  · split at hrec
    · rename_i h
      subst h
      exact ⟨rfl, by decide, by decide⟩
    · exact absurd rfl hrec

/-- **`abort` can swap two deleted rows.** The row deleted last goes to the lowest free slot. -/
theorem abort_swaps_deleted_rows : (∀ tab, (twoRowsDb.table tab).file.Inv) ∧
    ∃ s, (txnRowSystem .plain twoRowsDb).Reachable s ∧ ∃ db', s.abort = .ok db' ∧
      (db'.table "t").file.records ≠ (twoRowsDb.table "t").file.records := by
  refine ⟨fun tab => twoRows_file, ?_⟩
  have h₁ : (txnRowSystem .plain twoRowsDb).Reachable _ :=
    .step (.init rfl) (a := .delete "t" ⟨1, 0⟩) rfl
  have h₂ : (txnRowSystem .plain twoRowsDb).Reachable _ :=
    .step h₁ (a := .delete "t" ⟨1, 1⟩) rfl
  refine ⟨_, h₂, _, rfl, fun heq => ?_⟩
  have hzero := congrFun heq ⟨1, 0⟩
  exact absurd hzero (by decide)

end Txn

end Rmdb
