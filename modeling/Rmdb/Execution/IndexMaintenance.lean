import Rmdb.Execution.Table
import Rmdb.Lib.KeyIndex

namespace Rmdb

open Lib

/-!
# Do the indexes follow the table?

`Table.Agrees` says that every index holds exactly the pairs (key of the record, record id).  Inserts
and deletes keep it.  An update decides with `strncmp` whether the key of a row has changed, so it
keeps it exactly when that comparison never takes two different keys for one (`KeysTold`).

* `Agrees.insertRow`, `Agrees.deleteRow`, `Agrees.updateRow` — one row, by `Lib.Indexes`;
* `updateRows_entry` — an entry `strncmp` overlooked is still there at the end of the statement;
* `statement_keeps_indexes_iff` — whole statements.
-/

namespace Table

/-- **Every index holds the keys of the records, and nothing else.** -/
def Agrees (t : Table) : Prop :=
  ∀ ix ∈ t.indexes, ∀ k rid, ix.entries k = some rid ↔
    ∃ rec, t.file.records rid = some rec ∧ ix.keyOf rec = k

/-- In an update of the rows `rids`, `strncmp` finds two keys of a row equal only when they are. -/
def KeysTold (env : ExecEnv) (t : Table) (clauses : List SetClause) (rids : List Rid) : Prop :=
  ∀ rid ∈ rids, ∀ old new, t.file.records rid = some old →
    applySet env.floatAdd t.cols clauses old = .ok new →
    ∀ i ix, t.indexes[i]? = some ix → sameKey env rid i ix.info old new = true →
      ix.keyOf new = ix.keyOf old

section Index

variable {ix : Index} {rec old new : List UInt8} {rid : Rid}

/-- A key that is not there is mapped to its record. -/
theorem insertEntry_eq (h : ix.isKeyExist rec = false) :
    ix.insertEntry rec rid =
      { ix with entries := Function.update ix.entries (ix.keyOf rec) (some rid) } := by
  unfold Index.insertEntry
  rw [h, if_neg Bool.false_ne_true]

/-- The other keys stay. -/
theorem entries_insertEntry (h : ix.isKeyExist rec = false) (k : List UInt8) :
    (ix.insertEntry rec rid).entries k = if k = ix.keyOf rec then some rid else ix.entries k := by
  rw [insertEntry_eq h]
  exact Function.update_apply ..

/-- Only the key of the record is gone. -/
theorem entries_deleteEntry (k : List UInt8) :
    (ix.deleteEntry rec).entries k = if k = ix.keyOf rec then none else ix.entries k :=
  Function.update_apply ..

/-- The description of the index stays. -/
@[simp] theorem info_insertEntry : (ix.insertEntry rec rid).info = ix.info := by
  unfold Index.insertEntry
  split <;> rfl

/-- The description of the index stays. -/
@[simp] theorem info_deleteEntry : (ix.deleteEntry rec).info = ix.info := rfl

/-- The key depends on the description only. -/
theorem keyOf_congr {ix' : Index} (h : ix'.info = ix.info) : ix'.keyOf = ix.keyOf := by
  funext r
  unfold Index.keyOf
  rw [h]

/-- The key is not there. -/
theorem isKeyExist_eq_false : ix.isKeyExist rec = false ↔ ix.entries (ix.keyOf rec) = none := by
  unfold Index.isKeyExist
  rw [Option.isSome_eq_false_iff, Option.isNone_iff_eq_none]

/-- Deleting adds no key. -/
theorem isKeyExist_deleteEntry (hnew : ix.isKeyExist new = false) :
    (ix.deleteEntry old).isKeyExist new = false := by
  rw [isKeyExist_eq_false, entries_deleteEntry, keyOf_congr info_deleteEntry]
  rw [isKeyExist_eq_false] at hnew
  rw [hnew]
  split <;> rfl

/-- An index whose key has changed: the old key goes, the new one comes. -/
theorem entries_replace (hnew : ix.isKeyExist new = false) (k : List UInt8) :
    ((ix.deleteEntry old).insertEntry new rid).entries k =
      if k = ix.keyOf new then some rid else if k = ix.keyOf old then none else ix.entries k := by
  rw [entries_insertEntry (isKeyExist_deleteEntry hnew), keyOf_congr info_deleteEntry,
    entries_deleteEntry]

end Index

/-! ### `strncmp` -/

/-- The comparison does not depend on the order of its arguments. -/
theorem strncmpEq_comm (beyond : Bool) (n : Nat) (a b : List UInt8) :
    strncmpEq beyond n a b = strncmpEq beyond n b a := by
  induction n generalizing a b with
  | zero => rfl
  | succ n ih =>
    cases a with
    | nil => cases b <;> rfl
    | cons x as =>
      cases b with
      | nil => rfl
      | cons y bs =>
        unfold strncmpEq
        by_cases hxy : x = y
        · subst hxy
          rw [ih as bs]
        · rw [if_pos hxy, if_pos (fun h => hxy h.symm)]

/-- Nor does the comparison of two records' keys. -/
theorem sameKey_comm (env : ExecEnv) (rid : Rid) (i : Nat) (info : IndexMeta) (a b : List UInt8) :
    sameKey env rid i info a b = sameKey env rid i info b a :=
  strncmpEq_comm _ _ _ _

/-! ### Inserts and deletes -/

section Rows

variable {env : ExecEnv} {t t' : Table} {w : WriteRecord} {rid : Rid}

/-- What an insert does. -/
theorem insertRow_ok {values : List Value} (hrun : t.insertRow values = .ok (t', w)) :
    ∃ rec, (∀ ix ∈ t.indexes, ix.isKeyExist rec = false) ∧
      t' = { t with
        file := (t.file.insert rec).2
        indexes := t.indexes.map (·.insertEntry rec (t.file.insert rec).1) } ∧
      w = ⟨.insertTuple, t.name, (t.file.insert rec).1, []⟩ := by
  unfold Table.insertRow at hrun
  split at hrun
  · cases hrun
  rename_i rec _
  split at hrun
  · cases hrun
  rename_i hany
  cases hrun
  refine ⟨rec, fun ix hix => ?_, rfl, rfl⟩
  have hall := List.any_eq_false.mp (Bool.not_eq_true _ ▸ hany) ix hix
  simpa using hall

/-- What a delete does. -/
theorem deleteRow_ok (hrun : t.deleteRow rid = .ok (t', w)) :
    ∃ rec, t.file.records rid = some rec ∧
      t' = { t with
        file := t.file.delete rid
        indexes := t.indexes.map (·.deleteEntry rec) } ∧
      w = ⟨.deleteTuple, t.name, rid, rec⟩ := by
  unfold Table.deleteRow at hrun
  split at hrun
  · cases hrun
  rename_i rec hrec
  cases hrun
  exact ⟨rec, hrec, rfl, rfl⟩

/-- **An insert keeps the indexes in agreement.** -/
theorem Agrees.insertRow (h : t.Agrees) (hfile : t.file.Inv) {values : List Value}
    (hrun : t.insertRow values = .ok (t', w)) : t'.Agrees := by
  obtain ⟨rec, hnew, rfl, -⟩ := insertRow_ok hrun
  intro ix' hix' k r
  obtain ⟨ix, hix, rfl⟩ := List.mem_map.mp hix'
  have hfree := hnew ix hix
  have hix₀ : Indexes ix.entries t.file.records ix.keyOf := h ix hix
  have hins := hix₀.insert hfile.nextRid_none (isKeyExist_eq_false.mp hfree)
  show _ ↔ ∃ rec', (t.file.insert rec).2.records r = some rec' ∧ _
  rw [keyOf_congr info_insertEntry, insertEntry_eq hfree, RecordMap.insert_records,
    RecordMap.insert_fst]
  exact hins k r

/-- **A delete keeps the indexes in agreement.** -/
theorem Agrees.deleteRow (h : t.Agrees) (hrun : t.deleteRow rid = .ok (t', w)) : t'.Agrees := by
  obtain ⟨rec, hrec, rfl, -⟩ := deleteRow_ok hrun
  intro ix' hix' k r
  obtain ⟨ix, hix, rfl⟩ := List.mem_map.mp hix'
  have hix₀ : Indexes ix.entries t.file.records ix.keyOf := h ix hix
  rw [keyOf_congr info_deleteEntry]
  exact hix₀.delete hrec k r

/-- **A whole delete keeps the indexes in agreement.** -/
theorem Agrees.deleteRows {rids : List Rid} (h : t.Agrees)
    (hrun : rids.foldlM (fun t rid => (t.deleteRow rid).map Prod.fst) t = .ok t') : t'.Agrees := by
  induction rids generalizing t with
  | nil =>
    cases hrun
    exact h
  | cons rid rids ih =>
    rw [List.foldlM_cons] at hrun
    cases hd : t.deleteRow rid with
    | error e =>
      rw [hd] at hrun
      cases hrun
    | ok p =>
      rw [hd] at hrun
      exact ih (h.deleteRow hd) hrun

/-! ### One row of an update -/

/-- What a row of an update does. -/
theorem updateRow_ok {clauses : List SetClause} (hrun : updateRow env t clauses rid = .ok (t', w)) :
    ∃ old new, t.file.records rid = some old ∧
      applySet env.floatAdd t.cols clauses old = .ok new ∧
      (∀ i ix, t.indexes[i]? = some ix → sameKey env rid i ix.info old new = true ∨
        ix.isKeyExist new = false) ∧
      t' = { t with
        file := t.file.update rid new
        indexes := t.indexes.mapIdx (updateIndex env rid old new) } ∧
      w = ⟨.updateTuple, t.name, rid, old⟩ := by
  unfold updateRow at hrun
  split at hrun
  · cases hrun
  rename_i old hold
  split at hrun
  · cases hrun
  rename_i new hnew
  split at hrun
  · cases hrun
  rename_i hconf
  cases hrun
  refine ⟨old, new, hold, hnew, fun i ix hix => ?_, rfl, rfl⟩
  unfold updateConflict at hconf
  rw [List.any_eq_true, not_exists] at hconf
  have hi := hconf (!sameKey env rid i ix.info new old && ix.isKeyExist new)
  rw [not_and] at hi
  have hmem : (!sameKey env rid i ix.info new old && ix.isKeyExist new) ∈
      t.indexes.mapIdx fun i ix => !sameKey env rid i ix.info new old && ix.isKeyExist new := by
    refine List.mem_of_getElem? (i := i) ?_
    rw [List.getElem?_mapIdx, hix]
    rfl
  have hfalse := hi hmem
  rw [sameKey_comm env rid i ix.info new old] at hfalse
  cases hs : sameKey env rid i ix.info old new with
  | true => exact Or.inl rfl
  | false =>
    right
    rw [hs] at hfalse
    simpa using hfalse

/-- The description of the index stays. -/
@[simp] theorem info_updateIndex (i : Nat) (ix : Index) (old new : List UInt8) :
    (updateIndex env rid old new i ix).info = ix.info := by
  unfold updateIndex
  split
  · rfl
  · rw [info_insertEntry, info_deleteEntry]

/-- **A row keeps the indexes in agreement when `strncmp` does not overlook a key.** -/
theorem Agrees.updateRow (h : t.Agrees) {clauses : List SetClause}
    (hrun : Table.updateRow env t clauses rid = .ok (t', w))
    (htold : KeysTold env t clauses [rid]) : t'.Agrees := by
  obtain ⟨old, new, hold, hnew, hcheck, rfl, -⟩ := updateRow_ok hrun
  intro ix' hix' k r
  obtain ⟨i, hi⟩ := List.mem_iff_getElem?.mp hix'
  dsimp only at hi
  rw [List.getElem?_mapIdx, Option.map_eq_some_iff] at hi
  obtain ⟨ix, hix, rfl⟩ := hi
  have hix₀ : Indexes ix.entries t.file.records ix.keyOf := h ix (List.mem_of_getElem? hix)
  rw [keyOf_congr (info_updateIndex i ix old new)]
  unfold updateIndex
  by_cases hs : sameKey env rid i ix.info old new = true
  · -- the entry stays, and so does the key
    rw [if_pos hs]
    have hkey := htold rid List.mem_cons_self old new hold hnew i ix hix hs
    exact hix₀.same_key hold hkey k r
  · have hfree := (hcheck i ix hix).resolve_left hs
    rw [if_neg hs, insertEntry_eq (isKeyExist_deleteEntry hfree), keyOf_congr info_deleteEntry]
    exact hix₀.replace hold (isKeyExist_eq_false.mp hfree) k r

end Rows

/-! ### Whole updates -/

section Loop

variable {env : ExecEnv} {clauses : List SetClause}

/-- The rows of an update. -/
def updateRows (env : ExecEnv) (clauses : List SetClause) (rids : List Rid) (t : Table) :
    Except ExecError Table :=
  rids.foldlM (fun t rid => (updateRow env t clauses rid).map Prod.fst) t

/-- The first row is updated before the rest. -/
theorem updateRows_cons {rid : Rid} {rids : List Rid} {t t' : Table}
    (h : updateRows env clauses (rid :: rids) t = .ok t') :
    ∃ t₁ w, updateRow env t clauses rid = .ok (t₁, w) ∧ updateRows env clauses rids t₁ = .ok t' := by
  unfold updateRows at h
  rw [List.foldlM_cons] at h
  cases hr : updateRow env t clauses rid with
  | error e =>
    rw [hr] at h
    cases h
  | ok p =>
    rw [hr] at h
    exact ⟨p.1, p.2, rfl, h⟩

/-- The other rows are as before, and the indexes keep their descriptions. -/
theorem updateRow_frame {t t' : Table} {rid : Rid} {w : WriteRecord}
    (h : updateRow env t clauses rid = .ok (t', w)) :
    t'.cols = t.cols ∧ (∀ r, r ≠ rid → t'.file.records r = t.file.records r) ∧
      ∀ (i : Nat) (ix' : Index), t'.indexes[i]? = some ix' →
        ∃ ix, t.indexes[i]? = some ix ∧ ix'.info = ix.info := by
  obtain ⟨old, new, -, -, -, rfl, -⟩ := updateRow_ok h
  refine ⟨rfl, fun r hr => Function.update_of_ne hr _ _, fun i ix' hi => ?_⟩
  dsimp only at hi
  rw [List.getElem?_mapIdx, Option.map_eq_some_iff] at hi
  obtain ⟨ix, hix, rfl⟩ := hi
  exact ⟨ix, hix, info_updateIndex i ix old new⟩

/-- The condition on the rows to come does not change with the rows done. -/
theorem KeysTold.of_updateRow {t t' : Table} {rid : Rid} {rids : List Rid} {w : WriteRecord}
    (h : updateRow env t clauses rid = .ok (t', w)) (hrid : rid ∉ rids)
    (ht : KeysTold env t clauses rids) : KeysTold env t' clauses rids := by
  obtain ⟨hcols, hrec, hidx⟩ := updateRow_frame h
  intro r hr old new hold hnew i ix' hix' hs
  have hne : r ≠ rid := by
    rintro rfl
    exact hrid hr
  rw [hrec r hne] at hold
  rw [hcols] at hnew
  obtain ⟨ix, hix, hinfo⟩ := hidx i ix' hix'
  rw [hinfo] at hs
  rw [keyOf_congr hinfo]
  exact ht r hr old new hold hnew i ix hix hs

/-- **An update whose keys are told apart keeps the indexes in agreement.** -/
theorem Agrees.updateRows {rids : List Rid} {t t' : Table} (h : t.Agrees) (hnd : rids.Nodup)
    (ht : KeysTold env t clauses rids) (hrun : Table.updateRows env clauses rids t = .ok t') :
    t'.Agrees := by
  induction rids generalizing t with
  | nil =>
    cases hrun
    exact h
  | cons rid rids ih =>
    obtain ⟨t₁, w, hrow, hrest⟩ := updateRows_cons hrun
    rw [List.nodup_cons] at hnd
    have ht₁ : KeysTold env t clauses [rid] := by
      intro r hr
      rw [List.mem_singleton] at hr
      subst hr
      exact ht r List.mem_cons_self
    exact ih (h.updateRow hrow ht₁) hnd.2
      (KeysTold.of_updateRow hrow hnd.1 fun r hr => ht r (List.mem_cons_of_mem _ hr)) hrest

/-- Where an updated row ends up. -/
theorem updateRows_record {rids : List Rid} {t t' : Table} (hnd : rids.Nodup)
    (hrun : updateRows env clauses rids t = .ok t') (r : Rid) :
    (r ∉ rids → t'.file.records r = t.file.records r) ∧
    (r ∈ rids → ∀ old new, t.file.records r = some old →
      applySet env.floatAdd t.cols clauses old = .ok new → t'.file.records r = some new) := by
  induction rids generalizing t with
  | nil =>
    cases hrun
    exact ⟨fun _ => rfl, fun hr => absurd hr List.not_mem_nil⟩
  | cons rid rids ih =>
    obtain ⟨t₁, w, hrow, hrest⟩ := updateRows_cons hrun
    rw [List.nodup_cons] at hnd
    obtain ⟨ih1, ih2⟩ := ih hnd.2 hrest
    obtain ⟨hcols, hframe, -⟩ := updateRow_frame hrow
    refine ⟨fun hr => ?_, fun hr old new hold hnew => ?_⟩
    · rw [List.mem_cons, not_or] at hr
      rw [ih1 hr.2, hframe r hr.1]
    · by_cases heq : r = rid
      · subst heq
        rw [ih1 hnd.1]
        obtain ⟨old', new', hold', hnew', -, rfl, -⟩ := updateRow_ok hrow
        rw [hold] at hold'
        cases hold'
        rw [hnew] at hnew'
        cases hnew'
        exact Function.update_self _ _ _
      · refine ih2 ((List.mem_cons.mp hr).resolve_left heq) old new ?_ ?_
        · rw [hframe r heq]
          exact hold
        · rw [hcols]
          exact hnew

/-- **An entry that `strncmp` overlooks stays.** Rows of other keys do not touch it, and the row
    itself is skipped. -/
theorem updateRows_entry {rids : List Rid} {t t' : Table} {A : Rid} {k : List UInt8} {i : Nat}
    {ix : Index} (hnd : rids.Nodup) (hrun : updateRows env clauses rids t = .ok t')
    (hix : t.indexes[i]? = some ix) (hentry : ix.entries k = some A)
    (hother : ∀ r ∈ rids, r ≠ A → ∀ rec, t.file.records r = some rec → ix.keyOf rec ≠ k)
    (hself : ∀ old new, t.file.records A = some old →
      applySet env.floatAdd t.cols clauses old = .ok new → A ∈ rids →
      sameKey env A i ix.info old new = true) :
    ∃ ix', t'.indexes[i]? = some ix' ∧ ix'.info = ix.info ∧ ix'.entries k = some A := by
  induction rids generalizing t ix with
  | nil =>
    cases hrun
    exact ⟨ix, hix, rfl, hentry⟩
  | cons rid rids ih =>
    obtain ⟨t₁, w, hrow, hrest⟩ := updateRows_cons hrun
    rw [List.nodup_cons] at hnd
    obtain ⟨hcols, hframe, -⟩ := updateRow_frame hrow
    obtain ⟨old, new, hold, hnew, hcheck, rfl, -⟩ := updateRow_ok hrow
    have hix₁ : (t.indexes.mapIdx (updateIndex env rid old new))[i]? =
        some (updateIndex env rid old new i ix) := by
      rw [List.getElem?_mapIdx, hix]
      rfl
    have hinfo : (updateIndex env rid old new i ix).info = ix.info :=
      info_updateIndex i ix old new
    -- the row leaves the entry alone
    have hentry₁ : (updateIndex env rid old new i ix).entries k = some A := by
      unfold updateIndex
      by_cases hs : sameKey env rid i ix.info old new = true
      · rw [if_pos hs]
        exact hentry
      · have hne : rid ≠ A := by
          rintro rfl
          exact hs (hself old new hold hnew List.mem_cons_self)
        have hfree := (hcheck i ix hix).resolve_left hs
        rw [if_neg hs, entries_replace hfree]
        have hk : k ≠ ix.keyOf new := by
          intro hk
          rw [hk, isKeyExist_eq_false.mp hfree] at hentry
          cases hentry
        have hk' : k ≠ ix.keyOf old :=
          fun hk' => hother rid List.mem_cons_self hne old hold hk'.symm
        rw [if_neg hk, if_neg hk']
        exact hentry
    obtain ⟨ix', hix', hinfo', hentry'⟩ := ih hnd.2 hrest hix₁ hentry₁ (by
      intro r hr hrA rec hrec
      have hne : r ≠ rid := by
        rintro rfl
        exact hnd.1 hr
      rw [hframe r hne] at hrec
      rw [keyOf_congr hinfo]
      exact hother r (List.mem_cons_of_mem _ hr) hrA rec hrec) (by
      intro old' new' hold' hnew' hA
      have hne : A ≠ rid := by
        rintro rfl
        exact hnd.1 hA
      rw [hframe A hne] at hold'
      rw [hinfo]
      exact hself old' new' hold' hnew' (List.mem_cons_of_mem _ hA))
    exact ⟨ix', hix', hinfo'.trans hinfo, hentry'⟩

end Loop

/-- What the statement's scan promises: the rows are different records of the table. -/
def Statement.Targets (t : Table) : Statement → Prop
  | .insert _ => True
  | .update _ rids | .delete rids => rids.Nodup ∧ ∀ rid ∈ rids, t.file.records rid ≠ none

/-- `strncmp` tells the old keys of the updated rows from the new ones. -/
def Statement.KeysTold (env : ExecEnv) (t : Table) : Statement → Prop
  | .update clauses rids => Table.KeysTold env t clauses rids
  | _ => True

/-- **A statement that completes leaves the indexes in agreement exactly when `strncmp` has overlooked
    no change of a key.**  Inserts and deletes always do. -/
theorem statement_keeps_indexes_iff (env : ExecEnv) (t t' : Table) (st : Statement)
    (hfile : t.file.Inv) (hag : t.Agrees) (htargets : st.Targets t) (hrun : run env t st = .ok t') :
    t'.Agrees ↔ st.KeysTold env t := by
  cases st with
  | insert values =>
    refine ⟨fun _ => trivial, fun _ => ?_⟩
    cases hr : t.insertRow values with
    | error e =>
      rw [run, hr] at hrun
      cases hrun
    | ok p =>
      rw [run, hr] at hrun
      cases hrun
      exact hag.insertRow hfile hr
  | delete rids =>
    refine ⟨fun _ => trivial, fun _ => ?_⟩
    exact hag.deleteRows hrun
  | update clauses rids =>
    obtain ⟨hnd, hrids⟩ := htargets
    refine ⟨fun hag' => ?_, fun htold => hag.updateRows hnd htold hrun⟩
    intro A hA old new hold hnew i ix hix hs
    have hmem := List.mem_of_getElem? hix
    have hentry := (hag ix hmem (ix.keyOf old) A).mpr ⟨old, hold, rfl⟩
    obtain ⟨ix', hix', hinfo, hentry'⟩ := updateRows_entry hnd hrun hix hentry
      (fun r _ hne rec hrec hkey => by
        have hr := (hag ix hmem (ix.keyOf old) r).mpr ⟨rec, hrec, hkey⟩
        rw [hentry] at hr
        exact hne (Option.some.inj hr).symm)
      (fun old' new' hold' hnew' _ => by
        rw [hold] at hold'
        cases hold'
        rw [hnew] at hnew'
        cases hnew'
        exact hs)
    obtain ⟨rec, hrec, hkey⟩ :=
      (hag' ix' (List.mem_of_getElem? hix') (ix.keyOf old) A).mp hentry'
    have hfinal := (updateRows_record hnd hrun A).2 hA old new hold hnew
    rw [hfinal] at hrec
    cases hrec
    rw [keyOf_congr hinfo] at hkey
    exact hkey

/-! ### A table with one row -/

/-- An `INT` column. -/
def intCol : ColMeta := { name := "a", type := .int, len := 4, offset := 0 }

/-- A table with one record, whose only column is 0, and an index on that column. -/
def oneRow : Table where
  name := "t"
  cols := [intCol]
  recordSize := 4
  file := ⟨7, 2, [1], fun r => if r = ⟨1, 0⟩ then some [0, 0, 0, 0] else none⟩
  indexes := [⟨.create [intCol], fun k => if k = [0, 0, 0, 0] then some ⟨1, 0⟩ else none⟩]

/-- `UPDATE t SET a = n` on that record. -/
def setRow (n : Nat) : Statement := .update [⟨"a", ⟨.int, n, [], []⟩, false⟩] [⟨1, 0⟩]

/-- A file with one record. -/
theorem oneRow_file : oneRow.file.Inv := by
  refine RecordMap.inv_onePage (by decide) rfl rfl (by decide) fun rid hrid => ?_
  have hrec : (if rid = ⟨1, 0⟩ then some ([0, 0, 0, 0] : List UInt8) else none) ≠ none := hrid
  split at hrec
  · rename_i h
    subst h
    exact ⟨rfl, by decide, by decide⟩
  · exact absurd rfl hrec

/-- Its index has this record. -/
theorem oneRow_agrees : oneRow.Agrees := by
  intro ix hix k rid
  rw [show oneRow.indexes = [_] from rfl, List.mem_singleton] at hix
  subst hix
  show (if k = [0, 0, 0, 0] then some (⟨1, 0⟩ : Rid) else none) = some rid ↔
    ∃ rec, (if rid = ⟨1, 0⟩ then some ([0, 0, 0, 0] : List UInt8) else none) = some rec ∧ _
  constructor
  · intro h
    split at h
    · rename_i hk
      refine ⟨[0, 0, 0, 0], if_pos (Option.some.inj h).symm, ?_⟩
      rw [hk]
      decide
    · cases h
  · rintro ⟨rec, hrec, hk⟩
    split at hrec
    · rename_i hr
      cases hrec
      rw [← hk, hr]
      decide
    · cases hrec

/-- The theorem at `UPDATE t SET a = 1`: `strncmp` sees the first byte change. -/
theorem statement_keeps_indexes_set_one : ∃ t', run .plain oneRow (setRow 1) = .ok t' ∧ t'.Agrees := by
  refine ⟨_, rfl, ?_⟩
  refine (statement_keeps_indexes_iff .plain oneRow _ (setRow 1) oneRow_file oneRow_agrees
    ⟨by decide, by decide⟩ rfl).mpr ?_
  intro rid hrid old new hold hnew i ix hix hs
  rw [List.mem_singleton] at hrid
  subst hrid
  cases hold
  cases hnew
  cases i with
  | zero =>
    cases hix
    cases hs
  | succ i => cases hix

/-- **`UPDATE t SET a = 256` leaves the index behind.** The bytes of 0 and of 256 both start with a
    zero, where `strncmp` stops. -/
theorem strncmp_overlooks_key : oneRow.file.Inv ∧ oneRow.Agrees ∧ (setRow 256).Targets oneRow ∧
    ∃ t', run .plain oneRow (setRow 256) = .ok t' ∧ ¬ t'.Agrees := by
  refine ⟨oneRow_file, oneRow_agrees, ⟨by decide, by decide⟩, _, rfl, fun hag => ?_⟩
  have hentry := (hag _ List.mem_cons_self [0, 0, 0, 0] ⟨1, 0⟩).mp (by decide)
  obtain ⟨rec, hrec, hkey⟩ := hentry
  cases hrec
  exact absurd hkey (by decide)

end Table

end Rmdb
