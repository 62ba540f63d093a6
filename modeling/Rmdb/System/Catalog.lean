import Mathlib.Algebra.BigOperators.Group.List.Basic
import Rmdb.System.SmManager

namespace Rmdb

open Lib

/-!
# The columns and the indexes of the catalog (`system/sm_manager.cpp`, `system/sm_meta.h`)

The DDL statements with all that the catalog says of columns and indexes.  A length is an `int`, and
`CHAR(-1)` is accepted.  `create_index` leaves `col_tot_len` at 0, and `create_table` does not compare
the names of the columns.

* `Catalog` — the tables, and the record sizes of their files;
* `createTable`, `createIndex`, `dropIndex`, `dropTable` — the statements;
* `Consistent` — what all the other modules take for granted;
* `catalogs_consistent` — the statements after which it is so.

What the files answer is an argument of a statement.  The file of an index ends in `.idx`, so it is never
that of a table.
-/

namespace Catalog

/-- `struct ColDef`. -/
structure ColDef where
  name : String
  type : ColType
  len : Int
  deriving DecidableEq, Repr

/-- `struct ColMeta`. -/
structure Col where
  tabName : String
  name : String
  type : ColType
  len : Int
  offset : Int
  index : Bool
  deriving DecidableEq, Repr

/-- `struct IndexMeta`. -/
structure Index where
  tabName : String
  colTotLen : Nat
  colNum : Nat
  cols : List Col
  deriving DecidableEq, Repr

/-- `struct TabMeta`. -/
structure Tab where
  name : String
  cols : List Col
  indexes : List Index
  deriving DecidableEq, Repr

/-- What a statement throws. -/
inductive Error where
  | tableExistsError (tab : String)
  | tableNotFoundError (tab : String)
  | indexExistsError (tab : String) (names : List String)
  | indexEntryNotFoundError
  | invalidRecordSizeError (size : Int)
  | invalidColLengthError (len : Int)
  | rmdbError (msg : String)
  /-- From a call of the file managers. -/
  | files
  deriving DecidableEq, Repr

/-- What the file managers answer in a statement. -/
structure Files where
  isFile : String → Bool
  /-- The new file is created and written. -/
  created : Bool
  /-- It is opened, and for an index the records of the table are inserted. -/
  opened : Bool
  /-- The file is closed and destroyed. -/
  destroyed : String → Bool

end Catalog

/-- `db_`, and `record_size` of the record files. -/
structure Catalog where
  tabs : String → Option Catalog.Tab
  recordSize : String → Option Int

namespace Catalog

/-! ### The statements -/

/-- Addition of `int`. -/
def wrap (n : Int) : Int := Int.bmod n (2 ^ 32)

/-- The loop of `create_table` from `curr_offset` on: the columns, and the record size. -/
def layout (tab : String) : Int → List ColDef → List Col × Int
  | currOffset, [] => ([], currOffset)
  | currOffset, d :: defs =>
    let col : Col :=
      { tabName := tab, name := d.name, type := d.type, len := d.len, offset := currOffset, index := false }
    let rest := layout tab (wrap (currOffset + d.len)) defs
    (col :: rest.1, rest.2)

/-- `tabs_` with another description of a table. -/
def setTab (c : Catalog) (tab : String) (t : Option Tab) : Catalog :=
  { c with tabs := Function.update c.tabs tab t }

/-- `SmManager::create_table`. -/
def createTable (io : Files) (c : Catalog) (tab : String) (defs : List ColDef) :
    Except Error Unit × Catalog :=
  if (c.tabs tab).isSome then (.error (.tableExistsError tab), c)
  else
    let (cols, recordSize) := layout tab 0 defs
    if recordSize < 1 ∨ (maxColLen : Int) < recordSize then
      (.error (.invalidRecordSizeError recordSize), c)
    else if io.created = false then (.error .files, c)
    else
      let c := { c.setTab tab (some { name := tab, cols := cols, indexes := [] }) with
        recordSize := Function.update c.recordSize tab (some recordSize) }
      (if io.opened then .ok () else .error .files, c)

/-- The columns that `create_index` finds, with the flag it sets. -/
def indexCols (cols : List Col) (names : List String) : List Col :=
  names.flatMap fun y => (cols.filter (·.name = y)).map fun x => { x with index := true }

/-- The columns of the table after that. -/
def markCols (cols : List Col) (names : List String) : List Col :=
  cols.map fun x => if x.name ∈ names then { x with index := true } else x

/-- The sum of the lengths. -/
def totLen (cols : List Col) : Int := (cols.map (·.len)).sum

/-- `SmManager::create_index`. -/
def createIndex (io : Files) (c : Catalog) (tab : String) (names : List String) :
    Except Error Unit × Catalog :=
  if io.isFile (getIndexName tab names) then (.error (.indexExistsError tab names), c)
  else
    match c.tabs tab with
    | none => (.error (.rmdbError "tab not find"), c)
    | some t =>
      let newIndex : Index :=
        { tabName := tab, colTotLen := 0, colNum := names.length, cols := indexCols t.cols names }
      let t := { t with cols := markCols t.cols names }
      let c := c.setTab tab (some t)
      if newIndex.cols.length ≠ newIndex.colNum then (.error (.invalidColLengthError newIndex.colNum), c)
      -- `IxManager::create_index`
      else if io.created = false then (.error .files, c)
      else if (maxColLen : Int) < wrap (totLen newIndex.cols) then
        (.error (.invalidColLengthError (wrap (totLen newIndex.cols))), c)
      else
        let c := c.setTab tab (some { t with indexes := t.indexes ++ [newIndex] })
        (if io.opened then .ok () else .error .files, c)

/-- The comparison in `is_index` and `get_index_meta`. -/
def Index.isNamed (index : Index) (names : List String) : Bool :=
  index.colNum = names.length ∧ (index.cols.map (·.name)).take index.colNum = names

/-- `SmManager::drop_index`. -/
def dropIndex (io : Files) (c : Catalog) (tab : String) (names : List String) :
    Except Error Unit × Catalog :=
  match c.tabs tab with
  | none => (.error .indexEntryNotFoundError, c)
  | some t =>
    if t.indexes.any (·.isNamed names) = false then (.error (.rmdbError "index not find!"), c)
    else
      let c := c.setTab tab (some { t with indexes := t.indexes.eraseP (·.isNamed names) })
      (if io.destroyed (getIndexName tab names) then .ok () else .error .files, c)

/-- The loop of `drop_table`, at the element `pos` of the vector, with the elements up to its old end as
fuel.  Behind its end the program reads what is no index. -/
def dropIndexes (io : Files) (tab : String) : Nat → Nat → Catalog → Option (Except Error Unit × Catalog)
  | 0, _, c => some (.ok (), c)
  | n + 1, pos, c =>
    match (c.tabs tab).bind (·.indexes[pos]?) with
    | none => none
    | some index =>
      match c.dropIndex io tab (index.cols.map (·.name)) with
      | (.error e, c) => some (.error e, c)
      | (.ok (), c) => dropIndexes io tab n (pos + 1) c

/-- `SmManager::drop_table`. -/
def dropTable (io : Files) (c : Catalog) (tab : String) : Option (Except Error Unit × Catalog) :=
  match c.tabs tab with
  | none => some (.error (.tableNotFoundError tab), c)
  | some t =>
    match dropIndexes io tab t.indexes.length 0 c with
    | some (.ok (), c) =>
      if io.destroyed tab then
        some (.ok (), { c.setTab tab none with recordSize := Function.update c.recordSize tab none })
      else some (.error .files, c)
    | r => r

/-- A DDL statement, with the answers of the file managers. -/
inductive Ddl where
  | createTable (io : Files) (tab : String) (defs : List ColDef)
  | createIndex (io : Files) (tab : String) (names : List String)
  | dropIndex (io : Files) (tab : String) (names : List String)
  | dropTable (io : Files) (tab : String)

/-- What a statement leaves behind, whether it throws or not. -/
def step (c : Catalog) : Ddl → Option Catalog
  | .createTable io tab defs => some (c.createTable io tab defs).2
  | .createIndex io tab names => some (c.createIndex io tab names).2
  | .dropIndex io tab names => some (c.dropIndex io tab names).2
  | .dropTable io tab => (c.dropTable io tab).map Prod.snd

/-! ### What the catalog is for -/

/-- An index of a table with these columns. -/
structure Index.Consistent (index : Index) (cols : List Col) : Prop where
  colNum : index.colNum = index.cols.length
  cols : ∀ c ∈ index.cols, ∃ c' ∈ cols, c'.name = c.name ∧ c'.offset = c.offset ∧ c'.len = c.len
  colTotLen : (index.colTotLen : Int) = totLen index.cols

/-- A table, and the record size of its file. -/
structure Tab.Consistent (t : Tab) (recordSize : Option Int) : Prop where
  names : (t.cols.map (·.name)).Nodup
  offsets : ∀ k c, t.cols[k]? = some c → c.offset = totLen (t.cols.take k)
  recordSize : recordSize = some (totLen t.cols)
  indexes : ∀ index ∈ t.indexes, index.Consistent t.cols

/-- **What a catalog is for**: it describes the records of the tables and the keys of the indexes. -/
def Consistent (c : Catalog) : Prop := ∀ tab t, c.tabs tab = some t → t.Consistent (c.recordSize tab)

/-- An `int`. -/
def IsInt (n : Int) : Prop := -2 ^ 31 ≤ n ∧ n < 2 ^ 31

/-- The columns of a new table: different names, and the lengths add up without overflow. -/
def GoodDefs (defs : List ColDef) : Prop :=
  (defs.map (·.name)).Nodup ∧ ∀ k, IsInt ((defs.take k).map (·.len)).sum

/-- The statements that describe what they create as it is.  A table that is created has good columns; an
index that is created has columns of the length 0 in total. -/
def Describes (c : Catalog) : Ddl → Prop
  | .createTable io tab defs => c.tabs tab = none → 1 ≤ wrap (defs.map (·.len)).sum →
    wrap (defs.map (·.len)).sum ≤ maxColLen → io.created = true → GoodDefs defs
  | .createIndex io tab names => ∀ t, c.tabs tab = some t → io.isFile (getIndexName tab names) = false →
    (indexCols t.cols names).length = names.length → io.created = true →
    wrap (totLen (indexCols t.cols names)) ≤ maxColLen → totLen (indexCols t.cols names) = 0
  | .dropIndex _ _ _ => True
  | .dropTable _ _ => True

/-- **The catalogs of a database**, from the empty one on. -/
def system : TransitionSystem Catalog Ddl where
  init c := ∀ tab, c.tabs tab = none
  step c a c' := c.step a = some c'

/-! ### The columns of a new table -/

/-- A number is kept if it is an `int`. -/
theorem wrap_eq_iff {n : Int} : wrap n = n ↔ IsInt n := by
  unfold wrap IsInt
  rw [Int.bmod_eq_iff (by decide)]
  constructor
  · rintro ⟨hlo, hhi, -⟩
    omega
  · rintro ⟨hlo, hhi⟩
    refine ⟨?_, ?_, ?_⟩
    · omega
    · omega
    · rw [sub_self]
      exact Int.dvd_zero _

/-- The sum is cut once. -/
theorem wrap_wrap_add (a b : Int) : wrap (wrap a + b) = wrap (a + b) := Int.bmod_add_bmod

section Layout

variable {tab : String} {off : Int} {defs : List ColDef}

/-- What a column keeps of its definition. -/
theorem layout_map {α : Type} {f : Col → α} {g : ColDef → α}
    (hf : ∀ (d : ColDef) off, f ⟨tab, d.name, d.type, d.len, off, false⟩ = g d) :
    (layout tab off defs).1.map f = defs.map g := by
  induction defs generalizing off with
  | nil => rfl
  | cons d defs ih =>
    rw [layout, List.map_cons, List.map_cons, hf, ih]

/-- The names of the columns. -/
theorem layout_names : (layout tab off defs).1.map (·.name) = defs.map (·.name) :=
  layout_map fun _ _ => rfl

/-- The lengths of the columns. -/
theorem layout_lens : (layout tab off defs).1.map (·.len) = defs.map (·.len) :=
  layout_map fun _ _ => rfl

/-- The record size is the sum of the lengths, as an `int`. -/
theorem layout_size (off : Int) : (layout tab (wrap off) defs).2 = wrap (off + (defs.map (·.len)).sum) := by
  induction defs generalizing off with
  | nil => rw [layout, List.map_nil, List.sum_nil, add_zero]
  | cons d defs ih => rw [layout, wrap_wrap_add, ih, List.map_cons, List.sum_cons, add_assoc]

/-- The record size that `create_table` passes to the record manager. -/
theorem layout_recordSize : (layout tab 0 defs).2 = wrap (defs.map (·.len)).sum := by
  have h0 : (layout tab (wrap 0) defs).2 = _ := layout_size 0
  rwa [zero_add] at h0

/-- The offset of a column is what the additions of `int` give. -/
theorem layout_offset (off : Int) {k : Nat} {c : Col} (h : (layout tab (wrap off) defs).1[k]? = some c) :
    c.offset = wrap (off + totLen ((layout tab (wrap off) defs).1.take k)) := by
  induction defs generalizing off k with
  | nil => cases h
  | cons d defs ih =>
    rw [layout, wrap_wrap_add] at h ⊢
    unfold totLen
    cases k with
    | zero =>
      obtain rfl := Option.some.inj h
      rw [List.take_zero, List.map_nil, List.sum_nil, add_zero]
    | succ k =>
      rw [ih _ h, List.take_succ_cons, List.map_cons, List.sum_cons, add_assoc]
      rfl

/-- **The new table is described as it is** if its columns are good. -/
theorem layout_consistent_iff (tab : String) : Tab.Consistent
    { name := tab, cols := (layout tab 0 defs).1, indexes := [] } (some (layout tab 0 defs).2) ↔
      GoodDefs defs := by
  have hsums : ∀ k, totLen ((layout tab 0 defs).1.take k) = ((defs.take k).map (·.len)).sum := by
    intro k
    unfold totLen
    rw [List.map_take, layout_lens, List.map_take]
  have hoff : ∀ {k c}, (layout tab 0 defs).1[k]? = some c →
      c.offset = wrap ((defs.take k).map (·.len)).sum := by
    intro k c h
    have h0 := layout_offset 0 h
    rwa [zero_add, show wrap 0 = 0 from rfl, hsums] at h0
  have hlen : (layout tab 0 defs).1.length = defs.length := by
    rw [← List.length_map (f := (·.name)), layout_names, List.length_map]
  have htotal : totLen (layout tab 0 defs).1 = (defs.map (·.len)).sum := congrArg _ layout_lens
  have hsize : (layout tab 0 defs).2 = wrap (defs.map (·.len)).sum := layout_recordSize
  constructor
  · rintro ⟨hnames, hoffsets, hrecord, -⟩
    refine ⟨by rwa [layout_names] at hnames, fun k => wrap_eq_iff.mp ?_⟩
    by_cases hk : k < defs.length
    · have hget := List.getElem?_eq_getElem (hlen.symm ▸ hk : k < (layout tab 0 defs).1.length)
      rw [← hoff hget, hoffsets k _ hget, hsums]
    · rw [List.take_of_length_le (Nat.le_of_not_lt hk), ← hsize, ← htotal]
      exact Option.some.inj hrecord
  · rintro ⟨hnames, hints⟩
    refine ⟨layout_names.symm ▸ hnames, fun k c hc => ?_, ?_, nofun⟩
    · rw [hoff hc, hsums]
      exact wrap_eq_iff.mpr (hints k)
    · have hall := hints defs.length
      rw [List.take_length] at hall
      rw [htotal, hsize, wrap_eq_iff.mpr hall]

end Layout

/-! ### The columns of an index -/

section Marks

variable {cols : List Col} {names : List String}

/-- What the marks of the index do not change. -/
theorem markCols_map {α : Type} {f : Col → α} (hf : ∀ x : Col, f { x with index := true } = f x) :
    (markCols cols names).map f = cols.map f := by
  unfold markCols
  rw [List.map_map]
  refine List.map_congr_left fun x _ => ?_
  dsimp only [Function.comp]
  split
  · exact hf x
  · rfl

/-- Marked columns are where they were. -/
theorem mem_markCols (names : List String) {c : Col} (hc : c ∈ cols) :
    ∃ c' ∈ markCols cols names, c'.name = c.name ∧ c'.offset = c.offset ∧ c'.len = c.len := by
  refine ⟨_, List.mem_map_of_mem hc, ?_⟩
  split
  · exact ⟨rfl, rfl, rfl⟩
  · exact ⟨rfl, rfl, rfl⟩

/-- Marks do not change the lengths. -/
theorem totLen_markCols (cols : List Col) (names : List String) (k : Nat) :
    totLen ((markCols cols names).take k) = totLen (cols.take k) := by
  unfold totLen
  rw [List.map_take, markCols_map fun _ => rfl, List.map_take]

/-- The columns of a new index are columns of the table. -/
theorem mem_indexCols {c : Col} (hc : c ∈ indexCols cols names) :
    ∃ c' ∈ cols, c'.name = c.name ∧ c'.offset = c.offset ∧ c'.len = c.len := by
  obtain ⟨y, -, hc⟩ := List.mem_flatMap.mp hc
  obtain ⟨x, hx, rfl⟩ := List.mem_map.mp hc
  exact ⟨x, List.mem_of_mem_filter hx, rfl, rfl, rfl⟩

/-- An index agrees with the table after columns are marked. -/
theorem Index.Consistent.mark {index : Index} (h : index.Consistent cols) :
    index.Consistent (markCols cols names) where
  colNum := h.colNum
  cols c hc := by
    obtain ⟨c', hc', hname, hoffset, hlen⟩ := h.cols c hc
    obtain ⟨c'', hmem, hname', hoffset', hlen'⟩ := mem_markCols names hc'
    exact ⟨c'', hmem, hname'.trans hname, hoffset'.trans hoffset, hlen'.trans hlen⟩
  colTotLen := h.colTotLen

/-- So do all of them. -/
theorem Tab.Consistent.mark {t : Tab} {r : Option Int} (h : t.Consistent r) (names : List String) :
    Tab.Consistent { t with cols := markCols t.cols names } r where
  names := by
    rw [markCols_map fun _ => rfl]
    exact h.names
  offsets k c hc := by
    unfold markCols at hc
    rw [List.getElem?_map] at hc
    obtain ⟨x, hx, hxc⟩ := Option.map_eq_some_iff.mp hc
    have hoffset : c.offset = x.offset := by
      rw [← hxc]
      split <;> rfl
    rw [hoffset, totLen_markCols]
    exact h.offsets k x hx
  recordSize := by
    have htotal := totLen_markCols t.cols names t.cols.length
    rw [List.take_length, List.take_of_length_le (le_of_eq (by unfold markCols; exact List.length_map _))]
      at htotal
    rw [htotal]
    exact h.recordSize
  indexes index hindex := (h.indexes index hindex).mark

end Marks

/-! ### The statements -/

section Statements

variable {io : Files} {c : Catalog} {tab : String}

/-- The table that is set. -/
@[simp]
theorem setTab_self (t : Option Tab) : (c.setTab tab t).tabs tab = t := Function.update_self ..

/-- The other tables. -/
theorem setTab_of_ne {tab' : String} (h : tab' ≠ tab) (t : Option Tab) :
    (c.setTab tab t).tabs tab' = c.tabs tab' := Function.update_of_ne h ..

/-- The other tables stay as they are. -/
theorem Consistent.setTab_iff {t : Tab} (h : c.Consistent) :
    (c.setTab tab (some t)).Consistent ↔ t.Consistent (c.recordSize tab) := by
  constructor
  · exact fun hall => hall tab t (setTab_self _)
  · intro ht tab' t' ht'
    by_cases htab : tab' = tab
    · subst htab
      obtain rfl := Option.some.inj ((setTab_self _).symm.trans ht')
      exact ht
    · exact h tab' t' ((setTab_of_ne htab _).symm.trans ht')

/-- So they do when the file of this one is created, or destroyed. -/
theorem Consistent.setRecordSize (size : Option Int) (h : c.Consistent) (hnone : c.tabs tab = none) :
    Consistent { c with recordSize := Function.update c.recordSize tab size } := by
  intro tab' t' ht'
  have htab : tab' ≠ tab := by
    rintro rfl
    cases hnone.symm.trans ht'
  dsimp only
  rw [Function.update_of_ne htab]
  exact h tab' t' ht'

/-- `create_table` keeps the catalog consistent exactly when the definition is one. -/
theorem createTable_consistent_iff {defs : List ColDef} (h : c.Consistent) :
    (c.createTable io tab defs).2.Consistent ↔ c.Describes (.createTable io tab defs) := by
  unfold createTable
  by_cases hnew : c.tabs tab = none
  case neg =>
    rw [if_pos (Option.isSome_iff_ne_none.mpr hnew)]
    exact iff_of_true h fun hnone => absurd hnone hnew
  rw [if_neg (by rw [hnew]; exact Bool.false_ne_true)]
  dsimp only
  rw [layout_recordSize]
  by_cases hbad : wrap (defs.map (·.len)).sum < 1 ∨ (maxColLen : Int) < wrap (defs.map (·.len)).sum
  · rw [if_pos hbad]
    exact iff_of_true h fun _ hlo hhi => by omega
  rw [if_neg hbad]
  by_cases hcreated : io.created = false
  · rw [if_pos hcreated]
    exact iff_of_true h fun _ _ _ htrue => absurd (hcreated.symm.trans htrue) Bool.false_ne_true
  rw [if_neg hcreated]
  push Not at hbad
  have hcond : c.Describes (.createTable io tab defs) ↔ GoodDefs defs :=
    ⟨fun hd => hd hnew hbad.1 hbad.2 (by simpa using hcreated), fun hg _ _ _ _ => hg⟩
  have hfile := h.setRecordSize (some (wrap (defs.map (·.len)).sum)) hnew
  refine hfile.setTab_iff.trans ?_
  dsimp only
  rw [Function.update_self, hcond, ← layout_consistent_iff tab, layout_recordSize]

/-- `create_index` keeps it exactly when the index fits its description. -/
theorem createIndex_consistent_iff {names : List String} (h : c.Consistent) :
    (c.createIndex io tab names).2.Consistent ↔ c.Describes (.createIndex io tab names) := by
  unfold createIndex
  -- it stops at each check with the columns marked so far
  by_cases hfile : io.isFile (getIndexName tab names) = true
  · rw [if_pos hfile]
    exact iff_of_true h fun _ _ hno => absurd (hno.symm.trans hfile) Bool.false_ne_true
  rw [if_neg hfile]
  cases htab : c.tabs tab with
  | none => exact iff_of_true h fun t ht => by rw [htab] at ht; cases ht
  | some t =>
    have ht := (h tab t htab).mark names
    have hmark : (c.setTab tab (some { t with cols := markCols t.cols names })).Consistent :=
      h.setTab_iff.mpr ht
    dsimp only
    by_cases hfound : (indexCols t.cols names).length = names.length
    case neg =>
      rw [if_pos hfound]
      refine iff_of_true hmark fun t' ht' _ hlen => ?_
      obtain rfl := Option.some.inj (htab.symm.trans ht')
      exact absurd hlen hfound
    rw [if_neg (not_not_intro hfound)]
    by_cases hcreated : io.created = false
    · rw [if_pos hcreated]
      exact iff_of_true hmark fun _ _ _ _ htrue => absurd (hcreated.symm.trans htrue) Bool.false_ne_true
    rw [if_neg hcreated]
    by_cases hlong : (maxColLen : Int) < wrap (totLen (indexCols t.cols names))
    · rw [if_pos hlong]
      refine iff_of_true hmark fun t' ht' _ _ _ hshort => ?_
      obtain rfl := Option.some.inj (htab.symm.trans ht')
      omega
    rw [if_neg hlong]
    -- all checks passed: `col_tot_len` is stored as 0
    have hcond : c.Describes (.createIndex io tab names) ↔ totLen (indexCols t.cols names) = 0 := by
      constructor
      · exact fun hd => hd t htab (by simpa using hfile) hfound (by simpa using hcreated)
          (Int.not_lt.mp hlong)
      · intro hzero t' ht' _ _ _ _
        obtain rfl := Option.some.inj (htab.symm.trans ht')
        exact hzero
    rw [hcond]
    refine hmark.setTab_iff.trans ?_
    obtain ⟨hnames, hoffsets, hrecord, hindexes⟩ := ht
    constructor
    · intro hnew
      exact (hnew.indexes _ (List.mem_append_right _ List.mem_cons_self)).colTotLen.symm
    · intro hzero
      refine ⟨hnames, hoffsets, hrecord, fun index hindex => ?_⟩
      rcases List.mem_append.mp hindex with hold | hnew
      · exact hindexes index hold
      · obtain rfl := List.mem_singleton.mp hnew
        refine ⟨hfound.symm, fun x hx => ?_, hzero.symm⟩
        obtain ⟨x', hx', hname, hoffset, hlen⟩ := mem_indexCols hx
        obtain ⟨x'', hmem, hname', hoffset', hlen'⟩ := mem_markCols names hx'
        exact ⟨x'', hmem, hname'.trans hname, hoffset'.trans hoffset, hlen'.trans hlen⟩

/-- `drop_index` keeps it. -/
theorem Consistent.dropIndex (io : Files) (tab : String) (names : List String) (h : c.Consistent) :
    (c.dropIndex io tab names).2.Consistent := by
  unfold Catalog.dropIndex
  cases htab : c.tabs tab with
  | none => exact h
  | some t =>
    dsimp only
    split
    · exact h
    · obtain ⟨hnames, hoffsets, hrecord, hindexes⟩ := h tab t htab
      exact h.setTab_iff.mpr ⟨hnames, hoffsets, hrecord,
        fun index hindex => hindexes index (List.mem_of_mem_eraseP hindex)⟩

/-- So does dropping several. -/
theorem Consistent.dropIndexes {n pos : Nat} {r : Except Error Unit × Catalog} (h : c.Consistent)
    (hr : dropIndexes io tab n pos c = some r) : r.2.Consistent := by
  induction n generalizing c pos with
  | zero =>
    cases hr
    exact h
  | succ n ih =>
    rw [Catalog.dropIndexes] at hr
    split at hr
    · cases hr
    · next index _ =>
      have hdrop := h.dropIndex io tab (index.cols.map (·.name))
      split at hr
      · next e c' heq =>
        cases hr
        rwa [heq] at hdrop
      · next c' heq =>
        rw [heq] at hdrop
        exact ih hdrop hr

/-- `drop_table` keeps it. -/
theorem Consistent.dropTable {r : Except Error Unit × Catalog} (h : c.Consistent)
    (hr : c.dropTable io tab = some r) : r.2.Consistent := by
  unfold Catalog.dropTable at hr
  split at hr
  · cases hr
    exact h
  · next t _ =>
    split at hr
    · next c₁ hloop =>
      have h₁ := h.dropIndexes hloop
      split at hr
      · cases hr
        intro tab' t' ht'
        have htab : tab' ≠ tab := by
          rintro rfl
          cases (Function.update_self ..).symm.trans ht'
        dsimp only
        rw [Function.update_of_ne htab]
        exact h₁ tab' t' ((Function.update_of_ne htab ..).symm.trans ht')
      · cases hr
        exact h₁
    · exact h.dropIndexes hr

end Statements

/-- A step keeps a consistent catalog consistent just if it describes what it creates. -/
theorem step_consistent_iff {c c' : Catalog} {a : Ddl} (h : c.Consistent) (hstep : c.step a = some c') :
    c'.Consistent ↔ c.Describes a := by
  cases a with
  | createTable io tab defs =>
    cases hstep
    exact createTable_consistent_iff h
  | createIndex io tab names =>
    cases hstep
    exact createIndex_consistent_iff h
  | dropIndex io tab names =>
    cases hstep
    exact iff_of_true (h.dropIndex _ _ _) trivial
  | dropTable io tab =>
    obtain ⟨r, hr, rfl⟩ := Option.map_eq_some_iff.mp hstep
    exact iff_of_true (h.dropTable hr) trivial

/-- **The catalogs that describe their tables.**  In a run whose statements describe what they create the
catalog is consistent in each state, and the first statement that does not makes it inconsistent. -/
theorem catalogs_consistent : ∀ c, (system.restrict fun c a _ => c.Describes a).Reachable c →
    c.Consistent ∧ ∀ a c', system.step c a c' → (c'.Consistent ↔ c.Describes a) := by
  have hinv : ∀ c, (system.restrict fun c a _ => c.Describes a).Reachable c → c.Consistent := by
    intro c hc
    refine hc.invariant (fun c h0 tab t ht => ?_) fun c a c' h hstep => ?_
    · rw [h0 tab] at ht
      cases ht
    · exact (step_consistent_iff h hstep.1).mpr hstep.2
  exact fun c hc => ⟨hinv c hc, fun a c' hstep => step_consistent_iff (hinv c hc) hstep⟩

/-! ### Two tables -/

/-- The empty catalog. -/
def empty : Catalog := ⟨fun _ => none, fun _ => none⟩

/-- File managers that refuse nothing. -/
def goodFiles : Files := ⟨fun _ => false, true, true, fun _ => true⟩

/-- `create table t (a int, b char(0))`. -/
def emptyColumn : Catalog :=
  (empty.createTable goodFiles "t" [⟨"a", .int, 4⟩, ⟨"b", .string, 0⟩]).2

/-- **`create index t (b)`** describes its key of no bytes. -/
theorem index_on_empty_column : (emptyColumn.createIndex goodFiles "t" ["b"]).2.Consistent := by
  have htable : (system.restrict fun c a _ => c.Describes a).Reachable emptyColumn := by
    refine .step (a := .createTable goodFiles "t" [⟨"a", .int, 4⟩, ⟨"b", .string, 0⟩])
      (.init fun _ => rfl) ⟨rfl, fun _ _ _ _ => ⟨by decide, fun k => ?_⟩⟩
    rcases k with _ | _ | k
    · exact ⟨by decide, by decide⟩
    · exact ⟨by decide, by decide⟩
    · rw [List.take_of_length_le (by exact Nat.le_add_left 2 k)]
      exact ⟨by decide, by decide⟩
  refine ((catalogs_consistent _ htable).2 (.createIndex goodFiles "t" ["b"]) _ rfl).mpr ?_
  intro t ht _ _ _ _
  obtain rfl := Option.some.inj ht
  rfl

/-- **`create index t (a)`** leaves `col_tot_len` at 0, and the key has 4 bytes. -/
theorem int_index_has_no_length : ¬ ∀ c, system.Reachable c → c.Consistent := by
  intro h
  have hreach : system.Reachable (emptyColumn.createIndex goodFiles "t" ["a"]).2 :=
    .step (a := .createIndex goodFiles "t" ["a"])
      (.step (a := .createTable goodFiles "t" [⟨"a", .int, 4⟩, ⟨"b", .string, 0⟩]) (.init fun _ => rfl) rfl)
      rfl
  have hindex := ((h _ hreach "t" _ rfl).indexes _ List.mem_cons_self).colTotLen
  exact absurd hindex (by decide)

end Catalog

end Rmdb
