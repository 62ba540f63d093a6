import Mathlib.Data.Finset.Sort
import Rmdb.System.Catalog
import Rmdb.System.Reopen

namespace Rmdb

open Lib SmMeta

/-!
# The text of a catalog (`system/sm_meta.h`)

`flush_meta` writes what the DDL statements have left in `db_`, lengths below zero included, and `open_db`
reads it into an empty `db_`.

* `writeDb`, `readDb` — `operator<<` and `operator>>` of `DbMeta` and its members;
* `Listing` — the tables in the order of the map;
* `Catalog.Written` — what the statements keep of the names and the numbers;
* `readDb_writeDb` — every catalog comes back, and only white space is left.
-/

namespace Catalog

/-! ### Writing -/

/-- A number with its sign, and what is written after it. -/
def int (n : Int) (c : Char) : List Char := writeInt n ++ [c]

def Col.write (c : Col) : List Char :=
  word c.tabName ' ' ++ (word c.name ' ' ++ (num (typeCode c.type) ' ' ++
    (int c.len ' ' ++ (int c.offset ' ' ++ writeNat c.index.toNat))))

example : Col.write ⟨"t", "b", .string, -5, 9, true⟩ = "t b 3 -5 9 1".toList := by decide +kernel

def Index.write (i : Index) : List Char :=
  word i.tabName ' ' ++ (num i.colTotLen ' ' ++ (writeNat i.colNum ++
    i.cols.flatMap fun c => '\n' :: c.write))

def Tab.write (t : Tab) : List Char :=
  word t.name '\n' ++ (num t.cols.length '\n' ++ ((t.cols.flatMap fun c => c.write ++ ['\n']) ++
    (num t.indexes.length '\n' ++ t.indexes.flatMap fun i => i.write ++ ['\n'])))

/-- The tables in the order of the map: by name. -/
structure Listing (tabs : String → Option Tab) (l : List Tab) : Prop where
  sorted : l.Pairwise fun t t' => t.name < t'.name
  mem : ∀ t, t ∈ l ↔ tabs t.name = some t

/-- `operator<<` of a `DbMeta` with these tables. -/
def writeDb (name : String) (tabs : List Tab) : List Char :=
  word name '\n' ++ (num tabs.length '\n' ++ tabs.flatMap fun t => t.write ++ ['\n'])

/-! ### Reading -/

/-- `is >> n` for an `int`: the stream fails at a number that is none. -/
def readInt32 : Reader Int := do
  let n ← readInt
  if -2 ^ 31 ≤ n ∧ n < 2 ^ 31 then return n else failure

def readCol : Reader Col := do
  let tabName ← readToken
  let name ← readToken
  let type ← readType
  let len ← readInt32
  let offset ← readInt32
  let index ← readBool
  return { tabName, name, type, len, offset, index }

def readIndex : Reader Index := do
  let tabName ← readToken
  let colTotLen ← readNat
  let colNum ← readNat
  let cols ← readMany readCol colNum
  return { tabName, colTotLen, colNum, cols }

def readTab : Reader Tab := do
  let name ← readToken
  let n ← readNat
  let cols ← readMany readCol n
  let n ← readNat
  let indexes ← readMany readIndex n
  return { name, cols, indexes }

/-- `class DbMeta`. -/
structure DbMeta where
  name : String
  tabs : String → Option Tab

/-- `tabs_[tab.name] = tab`.  The assignment copies the indexes, too, as the copy constructor of `TabMeta`
    does not. -/
def setEntry (tabs : String → Option Tab) (t : Tab) : String → Option Tab :=
  Function.update tabs t.name (some t)

/-- One table after the other, from the empty map on. -/
def mapOf (l : List Tab) : String → Option Tab := l.foldl setEntry fun _ => none

/-- `is >> db_meta`, into an empty `DbMeta`. -/
def readDb : Reader DbMeta := do
  let name ← readToken
  let n ← readNat
  let tabs ← readMany readTab n
  return { name, tabs := mapOf tabs }

/-! ### Round trip -/

/-- The names are words, and the numbers are of type `int`. -/
structure Col.Written (c : Col) : Prop where
  tabName : IsToken c.tabName
  name : IsToken c.name
  len : IsInt c.len
  offset : IsInt c.offset

structure Index.Written (i : Index) : Prop where
  tabName : IsToken i.tabName
  colNum : i.colNum = i.cols.length
  cols : ∀ c ∈ i.cols, c.Written

structure Tab.Written (t : Tab) : Prop where
  name : IsToken t.name
  cols : ∀ c ∈ t.cols, c.Written
  indexes : ∀ i ∈ t.indexes, i.Written

/-- An `int` is read back before white space. -/
theorem int_reads {n : Int} (hn : IsInt n) {c : Char} (hc : isSpace c = true) :
    Reads Anything readInt32 (int n c) n := by
  refine ((readInt_reads n).closed hc).result ?_
  exact if_pos hn

/-- A column is read back. -/
theorem Col.Written.reads {c : Col} (h : c.Written) : Reads Ends readCol c.write c := by
  refine (word_reads h.tabName rfl).then ?_
  refine (word_reads h.name rfl).then ?_
  refine (type_reads c.type).then ?_
  refine (int_reads h.len rfl).then ?_
  refine (int_reads h.offset rfl).then ?_
  exact (bool_reads c.index).result rfl

/-- An index is read back. -/
theorem Index.Written.reads {i : Index} (h : i.Written) : Reads Ends readIndex i.write i := by
  refine (word_reads h.tabName rfl).then ?_
  refine (num_reads i.colTotLen rfl).then ?_
  have hmany := Reads.many_spaced (c := '\n') rfl fun c hc => (h.cols c hc).reads
  rw [← h.colNum] at hmany
  -- the number of columns ends at the line end before the first of them
  refine (readNat_reads i.colNum).bind (hmany.result rfl) fun rest hrest => ?_
  cases i.cols with
  | nil => exact hrest
  | cons c cs => rfl

/-- A table is read back, with its columns and indexes. -/
theorem Tab.Written.reads {t : Tab} (h : t.Written) : Reads Anything readTab t.write t := by
  refine (word_reads h.name rfl).then ?_
  refine (num_reads t.cols.length rfl).then ?_
  refine (Reads.many fun c hc => (h.cols c hc).reads.closed rfl).then ?_
  refine (num_reads t.indexes.length rfl).then ?_
  exact (Reads.many fun i hi => (h.indexes i hi).reads.closed rfl).result rfl

/-- The tables are read into a map, one after the other. -/
theorem writeDb_reads {name : String} (hname : IsToken name) {l : List Tab} (h : ∀ t ∈ l, t.Written) :
    Reads Anything readDb (writeDb name l) ⟨name, mapOf l⟩ := by
  refine (word_reads hname rfl).then ?_
  refine (num_reads l.length rfl).then ?_
  exact (Reads.many fun t ht => (h t ht).reads.space rfl).result rfl

/-! ### The tables of the map -/

section Listing

variable {tabs : String → Option Tab} {l l' : List Tab}

/-- The map has one listing by names. -/
theorem Listing.unique (h : Listing tabs l) (h' : Listing tabs l') : l = l' := by
  have hnodup : ∀ {k : List Tab}, (k.Pairwise fun t t' => t.name < t'.name) → k.Nodup := fun hk =>
    hk.imp fun hlt heq => by
      rw [heq] at hlt
      exact lt_irrefl _ hlt
  have hperm : l.Perm l' := (List.perm_ext_iff_of_nodup (hnodup h.sorted) (hnodup h'.sorted)).mpr
    fun t => (h.mem t).trans (h'.mem t).symm
  exact hperm.eq_of_pairwise (fun a b _ _ hab hba => absurd hba (lt_asymm hab)) h.sorted h'.sorted

/-- A map with finitely many keys can be listed. -/
theorem exists_listing (hname : ∀ tab t, tabs tab = some t → t.name = tab) {keys : Finset String}
    (hkeys : ∀ tab, (tabs tab).isSome = true → tab ∈ keys) : ∃ l, Listing tabs l := by
  refine ⟨(keys.sort (· ≤ ·)).filterMap tabs, ?_, fun t => ?_⟩
  · have hsort : (keys.sort (· ≤ ·)).Pairwise (· < ·) := (Finset.sortedLT_sort keys).pairwise
    refine List.pairwise_filterMap.mpr (hsort.imp fun {a b} hab t ht t' ht' => ?_)
    rw [hname a t ht, hname b t' ht']
    exact hab
  · rw [List.mem_filterMap]
    constructor
    · rintro ⟨tab, -, ht⟩
      rw [hname tab t ht]
      exact ht
    · intro ht
      exact ⟨t.name, (Finset.mem_sort _).mpr (hkeys _ (by rw [ht]; rfl)), ht⟩

/-- The last entry of a name counts, and there is one at most. -/
theorem foldl_setEntry (m : String → Option Tab) (tab : String)
    (hl : l.Pairwise fun t t' => t.name < t'.name) :
    l.foldl setEntry m tab = (l.find? fun t => t.name = tab).or (m tab) := by
  induction l generalizing m with
  | nil => rfl
  | cons t l ih =>
    obtain ⟨hlt, hl⟩ := List.pairwise_cons.mp hl
    rw [List.foldl_cons, ih _ hl, List.find?_cons]
    unfold setEntry
    by_cases heq : t.name = tab
    · -- no later table has the name
      have hnone : l.find? (fun t => decide (t.name = tab)) = none := by
        refine List.find?_eq_none.mpr fun t' ht' hc => ?_
        have hbelow := hlt t' ht'
        rw [of_decide_eq_true hc, heq] at hbelow
        exact lt_irrefl _ hbelow
      simp [hnone, heq]
    · simp [heq, Function.update_of_ne (Ne.symm heq)]

/-- Reading the tables in their order gives the map again. -/
theorem Listing.mapOf_eq (h : Listing tabs l) (hname : ∀ tab t, tabs tab = some t → t.name = tab) :
    mapOf l = tabs := by
  funext tab
  unfold mapOf
  rw [foldl_setEntry _ tab h.sorted, Option.or_none]
  cases htab : tabs tab with
  | none =>
    refine List.find?_eq_none.mpr fun t ht hc => ?_
    have hsome := (h.mem t).mp ht
    rw [of_decide_eq_true hc, htab] at hsome
    cases hsome
  | some t =>
    have hmem : t ∈ l := (h.mem t).mpr (by rw [hname tab t htab]; exact htab)
    have hfound : (l.find? fun t => decide (t.name = tab)).isSome = true :=
      List.find?_isSome.mpr ⟨t, hmem, decide_eq_true (hname tab t htab)⟩
    obtain ⟨t', ht'⟩ := Option.isSome_iff_exists.mp hfound
    rw [ht']
    have hname' : t'.name = tab := by simpa using List.find?_some ht'
    have hsome := (h.mem t').mp (List.mem_of_find?_eq_some ht')
    rw [hname', htab] at hsome
    exact hsome.symm

end Listing

/-! ### What the statements keep -/

/-- The names in a statement are identifiers, and its lengths are of type `int`. -/
def Ddl.Named : Ddl → Prop
  | .createTable _ tab defs => isIdent tab = true ∧ ∀ d ∈ defs, isIdent d.name = true ∧ IsInt d.len
  | _ => True

/-- Each table has its name and can be written. -/
structure Written (c : Catalog) : Prop where
  finite : ∃ keys : Finset String, ∀ tab, (c.tabs tab).isSome = true → tab ∈ keys
  name : ∀ tab t, c.tabs tab = some t → t.name = tab
  tabs : ∀ tab t, c.tabs tab = some t → t.Written

section Statements

variable {c : Catalog} {tab : String} {io : Files}

/-- What an `int` holds. -/
theorem isInt_wrap (n : Int) : IsInt (wrap n) := by
  rw [← wrap_eq_iff]
  have h := wrap_wrap_add n 0
  rw [add_zero, add_zero] at h
  exact h

/-- The columns of a new table can be written. -/
theorem layout_written (htab : IsToken tab) {defs : List ColDef}
    (hdefs : ∀ d ∈ defs, isIdent d.name = true ∧ IsInt d.len) {off : Int} (hoff : IsInt off) :
    ∀ x ∈ (layout tab off defs).1, x.Written := by
  induction defs generalizing off with
  | nil =>
    intro x hx
    exact absurd hx List.not_mem_nil
  | cons d defs ih =>
    obtain ⟨hname, hlen⟩ := hdefs d List.mem_cons_self
    intro x hx
    rcases List.mem_cons.mp hx with rfl | hx
    · exact ⟨htab, isToken_of_isIdent hname, hlen, hoff⟩
    · exact ih (fun d' hd' => hdefs d' (List.mem_cons_of_mem _ hd')) (isInt_wrap _) x hx

/-- A table that can be written. -/
theorem Written.setTab (h : c.Written) {t : Tab} (hname : t.name = tab) (ht : t.Written) :
    (c.setTab tab (some t)).Written := by
  obtain ⟨keys, hkeys⟩ := h.finite
  refine ⟨⟨insert tab keys, fun tab' hsome => ?_⟩, fun tab' t' ht' => ?_, fun tab' t' ht' => ?_⟩
  · by_cases heq : tab' = tab
    · rw [heq]
      exact Finset.mem_insert_self _ _
    · rw [setTab_of_ne heq] at hsome
      exact Finset.mem_insert_of_mem (hkeys tab' hsome)
  · by_cases heq : tab' = tab
    · subst heq
      rw [setTab_self] at ht'
      rw [← Option.some.inj ht', hname]
    · rw [setTab_of_ne heq] at ht'
      exact h.name tab' t' ht'
  · by_cases heq : tab' = tab
    · subst heq
      rw [setTab_self] at ht'
      rw [← Option.some.inj ht']
      exact ht
    · rw [setTab_of_ne heq] at ht'
      exact h.tabs tab' t' ht'

/-- A table less. -/
theorem Written.eraseTab (h : c.Written) (tab : String) : (c.setTab tab none).Written := by
  obtain ⟨keys, hkeys⟩ := h.finite
  have hold : ∀ {tab' t'}, (c.setTab tab none).tabs tab' = some t' → c.tabs tab' = some t' := by
    intro tab' t' ht'
    by_cases heq : tab' = tab
    · subst heq
      rw [setTab_self] at ht'
      cases ht'
    · rw [setTab_of_ne heq] at ht'
      exact ht'
  refine ⟨⟨keys, fun tab' hsome => ?_⟩, fun tab' t' ht' => h.name tab' t' (hold ht'),
    fun tab' t' ht' => h.tabs tab' t' (hold ht')⟩
  obtain ⟨t', ht'⟩ := Option.isSome_iff_exists.mp hsome
  exact hkeys tab' (by rw [hold ht']; rfl)

/-- The record sizes are not written. -/
theorem Written.setRecordSize (h : c.Written) (recordSize : String → Option Int) :
    Written { c with recordSize := recordSize } := ⟨h.finite, h.name, h.tabs⟩

/-- `create_table` of identifiers can be written. -/
theorem Written.createTable (h : c.Written) {defs : List ColDef}
    (hn : (Ddl.createTable io tab defs).Named) : (c.createTable io tab defs).2.Written := by
  obtain ⟨htab, hdefs⟩ := hn
  have htoken := isToken_of_isIdent htab
  unfold Catalog.createTable
  split
  · exact h
  · dsimp only
    split
    · exact h
    · split
      · exact h
      · have ht : Tab.Written { name := tab, cols := (layout tab 0 defs).1, indexes := [] } :=
          ⟨htoken, layout_written htoken hdefs ⟨by decide, by decide⟩, by simp⟩
        have hname : (Tab.mk tab (layout tab 0 defs).1 []).name = tab := rfl
        have hnew := h.setTab hname ht
        exact hnew.setRecordSize _

/-- A marked column. -/
theorem Col.Written.mark {x : Col} (h : x.Written) : Col.Written { x with index := true } :=
  ⟨h.tabName, h.name, h.len, h.offset⟩

/-- A table with marked columns. -/
theorem Tab.Written.mark {t : Tab} (h : t.Written) (names : List String) :
    Tab.Written { t with cols := markCols t.cols names } := by
  refine ⟨h.name, fun x hx => ?_, h.indexes⟩
  obtain ⟨x', hx', rfl⟩ := List.mem_map.mp hx
  have hw := h.cols x' hx'
  split
  · exact hw.mark
  · exact hw

/-- `create_index` keeps the catalog in a form that can be written. -/
theorem Written.createIndex (h : c.Written) (names : List String) :
    (c.createIndex io tab names).2.Written := by
  unfold Catalog.createIndex
  split
  · exact h
  · split
    · exact h
    · rename_i t ht
      have hname := h.name tab t ht
      have hmark := (h.tabs tab t ht).mark names
      have hmarked : (c.setTab tab (some { t with cols := markCols t.cols names })).Written :=
        h.setTab hname hmark
      dsimp only
      split
      · exact hmarked
      · rename_i hnum
        split
        · exact hmarked
        · split
          · exact hmarked
          · refine hmarked.setTab hname ⟨hmark.name, hmark.cols, fun i hi => ?_⟩
            rcases List.mem_append.mp hi with hi | hi
            · exact hmark.indexes i hi
            · -- the new index
              rw [List.mem_singleton.mp hi]
              refine ⟨?_, (not_not.mp hnum).symm, fun x hx => ?_⟩
              · rw [← hname]
                exact hmark.name
              · obtain ⟨y, -, hx⟩ := List.mem_flatMap.mp hx
                obtain ⟨x', hx', rfl⟩ := List.mem_map.mp hx
                exact ((h.tabs tab t ht).cols x' (List.mem_filter.mp hx').1).mark

/-- So does `drop_index`. -/
theorem Written.dropIndex (h : c.Written) (names : List String) : (c.dropIndex io tab names).2.Written := by
  unfold Catalog.dropIndex
  split
  · exact h
  · rename_i t ht
    split
    · exact h
    · have hw := h.tabs tab t ht
      exact h.setTab (h.name tab t ht)
        ⟨hw.name, hw.cols, fun i hi => hw.indexes i (List.mem_of_mem_eraseP hi)⟩

/-- So does dropping several. -/
theorem Written.dropIndexes {n pos : Nat} {r : Except Error Unit × Catalog} (h : c.Written)
    (hr : dropIndexes io tab n pos c = some r) : r.2.Written := by
  induction n generalizing c pos with
  | zero =>
    cases hr
    exact h
  | succ n ih =>
    rw [Catalog.dropIndexes] at hr
    split at hr
    · cases hr
    · rename_i index _
      have hdrop : (c.dropIndex io tab (index.cols.map (·.name))).2.Written := h.dropIndex _
      split at hr
      · rename_i e c' heq
        cases hr
        rwa [heq] at hdrop
      · rename_i c' heq
        rw [heq] at hdrop
        exact ih hdrop hr

/-- So does `drop_table`. -/
theorem Written.dropTable {r : Except Error Unit × Catalog} (h : c.Written)
    (hr : c.dropTable io tab = some r) : r.2.Written := by
  unfold Catalog.dropTable at hr
  split at hr
  · cases hr
    exact h
  · split at hr
    · rename_i c₁ hloop
      have h₁ : c₁.Written := h.dropIndexes hloop
      split at hr
      · cases hr
        exact (h₁.eraseTab tab).setRecordSize _
      · cases hr
        exact h₁
    · exact h.dropIndexes hr

end Statements

/-- So does every statement. -/
theorem Written.step {c c' : Catalog} {a : Ddl} (h : c.Written) (hn : a.Named) (hstep : c.step a = some c') :
    c'.Written := by
  cases a with
  | createTable io tab defs =>
    cases hstep
    exact h.createTable hn
  | createIndex io tab names =>
    cases hstep
    exact h.createIndex names
  | dropIndex io tab names =>
    cases hstep
    exact h.dropIndex names
  | dropTable io tab =>
    obtain ⟨r, hr, rfl⟩ := Option.map_eq_some_iff.mp hstep
    exact h.dropTable hr

/-- Every catalog that is reached can be written. -/
theorem written_of_reachable {c : Catalog} (hc : (system.restrict fun _ a _ => a.Named).Reachable c) :
    c.Written := by
  refine hc.invariant (fun c h0 => ?_) fun c a c' h hstep => h.step hstep.2 hstep.1
  refine ⟨⟨∅, fun tab hsome => ?_⟩, fun tab t ht => ?_, fun tab t ht => ?_⟩
  · rw [h0 tab] at hsome
    cases hsome
  · rw [h0 tab] at ht
    cases ht
  · rw [h0 tab] at ht
    cases ht

/-- **Every catalog comes back.**  Whatever the statements have left in `db_` has one text; reading it gives
    the name of the database and the tables as they were, and leaves white space only. -/
theorem readDb_writeDb {c : Catalog} (hc : (system.restrict fun _ a _ => a.Named).Reachable c)
    {name : String} (hname : isIdent name = true) :
    (∃! l, Listing c.tabs l) ∧ ∀ l, Listing c.tabs l → ∃ rest, rest.all isSpace = true ∧
      readDb (writeDb name l) = some (⟨name, c.tabs⟩, rest) := by
  have h := written_of_reachable hc
  constructor
  · obtain ⟨keys, hkeys⟩ := h.finite
    obtain ⟨l, hl⟩ := exists_listing h.name hkeys
    exact ⟨l, hl, fun l' hl' => hl'.unique hl⟩
  · intro l hl
    have hwritten : ∀ t ∈ l, t.Written := fun t ht => h.tabs _ t ((hl.mem t).mp ht)
    obtain ⟨rest, hrest, hread⟩ := writeDb_reads (isToken_of_isIdent hname) hwritten [] [] rfl trivial
    refine ⟨rest, hrest, ?_⟩
    rw [hl.mapOf_eq h.name] at hread
    simpa using hread

/-- `create table t (a char(9), b char(-5))` and `create index t (b, a)`. -/
def negativeColumn : Catalog :=
  ((empty.createTable goodFiles "t" [⟨"a", .string, 9⟩, ⟨"b", .string, -5⟩]).2.createIndex goodFiles "t"
    ["b", "a"]).2

/-- A length below zero comes back, too. -/
theorem readDb_writeDb_negative_length : ∃ l rest, Listing negativeColumn.tabs l ∧
    readDb (writeDb "db" l) = some (⟨"db", negativeColumn.tabs⟩, rest) := by
  have hreach : (system.restrict fun _ a _ => a.Named).Reachable negativeColumn := by
    have htable : (system.restrict fun _ a _ => a.Named).Reachable
        (empty.createTable goodFiles "t" [⟨"a", .string, 9⟩, ⟨"b", .string, -5⟩]).2 := by
      refine .step (a := .createTable goodFiles "t" [⟨"a", .string, 9⟩, ⟨"b", .string, -5⟩])
        (.init fun _ => rfl) ⟨rfl, by decide, fun d hd => ?_⟩
      rcases List.mem_pair.mp hd with rfl | rfl
      · exact ⟨by decide, by decide, by decide⟩
      · exact ⟨by decide, by decide, by decide⟩
    exact .step (a := .createIndex goodFiles "t" ["b", "a"]) htable ⟨rfl, trivial⟩
  obtain ⟨⟨l, hl, -⟩, hread⟩ := readDb_writeDb hreach (by decide : isIdent "db" = true)
  obtain ⟨rest, -, hrest⟩ := hread l hl
  exact ⟨l, rest, hl, hrest⟩

end Catalog

end Rmdb
