import Mathlib.Data.Finset.Sort
import Mathlib.Data.String.Basic
import Rmdb.Record.FileInvariant
import Rmdb.System.SmMeta
import Rmdb.System.TablePages

namespace Rmdb

open Lib

/-!
# A database in use, closed and opened (`system/sm_manager.cpp`)

`SmManager` with its catalog and the file headers its handles hold in memory.  The statements reach the
pages of a table through `RmFileHandle`: a page is fetched, changed and unpinned as dirty; a change of
the file header is written at once.  The pages of an index are changed in any way.

* `Database` — the state; `Database.catalog` — `db_` with all its members;
* `DbStep`, `database` — the statements and their page accesses;
* `closeDb`, `openDb` — the end of a process and the start of the next one;
* `SameDatabase` — what should be the same after that.
-/

/-- A name the scanner of the parser accepts: a letter, then letters, digits and `_`. -/
def isIdent (s : String) : Bool :=
  match s.toList with
  | [] => false
  | c :: cs => c.isAlpha && cs.all fun c => c = '_' || c.isAlpha || c.isDigit

/-- `SmManager`, with the disk and the pool. -/
structure Database where
  store : SmStore
  /-- `db_.name_`. -/
  name : String
  /-- The keys of `db_.tabs_`. -/
  keys : Finset String
  /-- `ColMeta::index`, by table and column. -/
  indexed : String → String → Bool
  /-- `file_hdr_` of the handles in `fhs_`. -/
  hdrs : String → List UInt8
  /-- `file_hdr_` of the handles in `ihs_`. -/
  ixHdrs : String → List UInt8

/-! ### Page accesses -/

namespace SmStore

/-- The bytes in a frame change. -/
def changePage (s : SmStore) (f : FrameId) (bytes : List UInt8) : SmStore :=
  { s with
    frames := Function.update s.frames f
      { s.frames f with page := { (s.frames f).page with bytes := bytes } } }

/-- `get_record` and `RmScan::next`: a page is fetched and unpinned. -/
def readTablePage (s : SmStore) (h : FileHandle) (n : Int) (v : FrameId) (isDirty : Bool) :
    Option SmStore :=
  match s.fetchPage ⟨h.fd, n⟩ v with
  | none => none
  | some (_, s) => some (s.unpinPage ⟨h.fd, n⟩ isDirty)

/-- `insert_record`, `delete_record` and `update_record` on a page that exists. -/
def writeTablePage (s : SmStore) (h : FileHandle) (n : Int) (v : FrameId) (bytes : List UInt8) :
    Option SmStore :=
  match s.fetchPage ⟨h.fd, n⟩ v with
  | none => none
  | some (f, s) => some ((s.changePage f bytes).unpinPage ⟨h.fd, n⟩ true)

/-- `insert_record` on a new page: `create_new_page_handle` writes the page `init` and the header,
    then the record is put into the page. -/
def newTablePage (s : SmStore) (h : FileHandle) (v : FrameId) (init bytes hdr : List UInt8) :
    Option SmStore :=
  match s.newPage h.fd v with
  | none => none
  | some (f, p, s) =>
    let s := ((s.changePage f init).flushPage p).writeBytes ⟨h.fd, 0⟩ hdr
    some ((s.changePage f bytes).unpinPage p true)

/-- `flush_all_page`: the loop over the cached pages `ps`. -/
def flushAllPage (s : SmStore) (ps : List PageId) : SmStore :=
  ps.foldl (fun s p =>
    match s.pageTable p with
    | none => s
    | some f => if (s.frames f).isDirty then s.writeFrame f p else s) s

/-- An access to the pages of an open index. -/
def IndexAccess (s : SmStore) : SmStep → Prop
  | .fetchPage h _ _ | .newPage h _ | .writeHdr h _ => ∃ name, s.ihs name = some h
  | .change f _ => ∃ name h, s.ihs name = some h ∧ (s.frames f).id.fd = h.fd
  | .unpinPage p _ | .flushPage p | .deletePage p => ∃ name h, s.ihs name = some h ∧ p.fd = h.fd
  | _ => False

end SmStore

/-! ### The statements -/

/-- The bytes of a header page. -/
def hdrBytes (h : RmFileHdr) : List UInt8 := (List.range sizeofRmFileHdr).map h.bytes

namespace Database

/-- `create_table`. -/
def createTable (d : Database) (tab : String) (cols : List ColMeta) : Database :=
  let hdr := hdrBytes (RmFileHdr.create (cols.map (·.len)).sum)
  let s := d.store.createTable tab cols hdr
  if (d.store.tabs tab).isNone ∧ (s.tabs tab).isSome then
    { d with
      store := s
      keys := insert tab d.keys
      indexed := Function.update d.indexed tab fun _ => false
      hdrs := Function.update d.hdrs tab hdr }
  else { d with store := s }

/-- `create_index`.  The columns are marked before the index is created. -/
def createIndex (d : Database) (tab : String) (names : List String)
    (hdr leafHdr root : List UInt8) : Database :=
  let path := getIndexName tab names
  let s := d.store.createIndex tab names hdr leafHdr root
  if (d.store.files path).isNone ∧ (d.store.tabs tab).isSome then
    { d with
      store := s
      indexed := Function.update d.indexed tab fun col => d.indexed tab col || decide (col ∈ names)
      ixHdrs := Function.update d.ixHdrs path hdr }
  else { d with store := s }

end Database

/-- A statement, or a page access of one. -/
inductive DbStep where
  | createTable (tab : String) (cols : List ColMeta)
  | dropTable (tab : String) (ps : List PageId)
  | createIndex (tab : String) (names : List String) (hdr leafHdr root : List UInt8)
  | dropIndex (tab : String) (names : List String) (ps : List PageId)
  | readPage (tab : String) (n : Int) (v : FrameId) (isDirty : Bool)
  | writePage (tab : String) (n : Int) (v : FrameId) (bytes : List UInt8)
  | newPage (tab : String) (v : FrameId) (init bytes hdr : List UInt8)
  /-- `file_hdr_` of a table changes and is written. -/
  | writeHdr (tab : String) (hdr : List UInt8)
  | index (a : SmStep)
  /-- `file_hdr_` of an index changes. -/
  | indexHdr (name : String) (hdr : List UInt8)

namespace Database

/-- One step.  The names in a statement are those of the parser, and a statement on records looks at
    pages the table has. -/
def Step (d : Database) : DbStep → Database → Prop
  | .createTable tab cols, d' =>
    isIdent tab = true ∧ (∀ c ∈ cols, isIdent c.name = true) ∧ d' = d.createTable tab cols
  | .dropTable tab ps, d' =>
    (∀ h, d.store.fhs tab = some h → d.store.CachedPages h.fd ps) ∧
      ∃ s, d.store.dropTable tab (d.hdrs tab) ps = some s ∧
        d' = { d with store := s, keys := d.keys.erase tab }
  | .createIndex tab names hdr leafHdr root, d' => d' = d.createIndex tab names hdr leafHdr root
  | .dropIndex tab names ps, d' =>
    (∀ h, d.store.ihs (getIndexName tab names) = some h → d.store.CachedPages h.fd ps) ∧
      d' = { d with
        store := d.store.dropIndex tab names (d.ixHdrs (getIndexName tab names)) ps }
  | .readPage tab n v isDirty, d' =>
    ∃ h s, d.store.fhs tab = some h ∧ (1 ≤ n ∧ n < d.store.fd2pageno h.fd) ∧
      d.store.readTablePage h n v isDirty = some s ∧ d' = { d with store := s }
  | .writePage tab n v bytes, d' =>
    ∃ h s, d.store.fhs tab = some h ∧ (1 ≤ n ∧ n < d.store.fd2pageno h.fd) ∧
      d.store.writeTablePage h n v bytes = some s ∧ d' = { d with store := s }
  | .newPage tab v init bytes hdr, d' =>
    ∃ h s, d.store.fhs tab = some h ∧ d.store.newTablePage h v init bytes hdr = some s ∧
      d' = { d with store := s, hdrs := Function.update d.hdrs tab hdr }
  | .writeHdr tab hdr, d' =>
    ∃ h, d.store.fhs tab = some h ∧
      d' = { d with
        store := d.store.writeBytes ⟨h.fd, 0⟩ hdr
        hdrs := Function.update d.hdrs tab hdr }
  | .index a, d' =>
    d.store.IndexAccess a ∧ ∃ s, d.store.Step a s ∧ d' = { d with store := s }
  | .indexHdr name hdr, d' => d' = { d with ixHdrs := Function.update d.ixHdrs name hdr }

/-- A database that has just been created, in a new process. -/
structure Initial (d : Database) : Prop where
  store : d.store.Initial
  pins : d.store.PinsOk
  name : IsToken d.name
  keys : d.keys = ∅

end Database

/-- **The database in use.** -/
def database : TransitionSystem Database DbStep where
  init := Database.Initial
  step d a d' := d.Step a d'

/-! ### The catalog -/

namespace Database

/-- A column with all its members. -/
def colEntry (tab : String) (flags : String → Bool) (c : ColMeta) : SmMeta.Col where
  tabName := tab
  name := c.name
  type := c.type
  len := c.len
  offset := c.offset
  index := flags c.name

/-- A table with all its members.  An index has copies of columns that have just been marked. -/
def tabEntry (d : Database) (info : TabMeta) : SmMeta.Tab where
  name := info.name
  cols := info.cols.map (colEntry info.name (d.indexed info.name))
  indexes := info.indexes.map fun i =>
    { tabName := info.name
      colTotLen := i.colTotLen
      colNum := i.cols.length
      cols := i.cols.map (colEntry info.name fun _ => true) }

/-- `db_`. -/
def catalog (d : Database) : SmMeta.Db where
  name := d.name
  tabs := (d.keys.sort (· ≤ ·)).filterMap fun tab => (d.store.tabs tab).map d.tabEntry

end Database

/-- A column of the catalog that has been read. -/
def SmMeta.Col.toMeta (c : SmMeta.Col) : ColMeta := ⟨c.name, c.type, c.len, c.offset⟩

/-- A table of the catalog that has been read. -/
def SmMeta.Tab.toMeta (t : SmMeta.Tab) : TabMeta where
  name := t.name
  cols := t.cols.map (·.toMeta)
  indexes := t.indexes.map fun i => { colTotLen := i.colTotLen, cols := i.cols.map (·.toMeta) }

/-! ### The end of a process, and the next one -/

/-- What is on the disk: the text in `db.meta`, and the files of tables and indexes. -/
structure DiskImage where
  text : List Char
  files : String → Option DiskFile

namespace Database

/-- `close_db`; `ps` are the cached pages. -/
def closeDb (d : Database) (ps : List PageId) : DiskImage where
  text := d.catalog.write
  files := (d.store.flushAllPage ps).files

/-- The header in a header page. -/
def hdrOf (hdr : List UInt8) : RmFileHdr := RmFileHdr.ofBytes fun i => hdr.getD i 0

/-- `fhs_.emplace(tab_name, rm_manager_->open_file(tab_name))` for the tables; `none` if one of the
    calls throws. -/
def openTables : List String → Database → Option Database
  | [], d => some d
  | tab :: tabs, d =>
    match d.store.openFile tab with
    | none => none
    | some (h, s) =>
      let hdr := ((s.files tab).map fun file => (file.pages 0).bytes).getD []
      openTables tabs { d with
        store := { s.setFd2pageno h.fd (hdrOf hdr).numPages with
          fhs := Function.update s.fhs tab (some h) }
        hdrs := Function.update d.hdrs tab hdr }

/-- `ihs_.emplace(tab_name, ix_manager_->open_index(tab_name, tab.cols))`, once for every index of the
    tables. -/
def openIndexes : List SmMeta.Tab → Database → Option Database
  | [], d => some d
  | t :: ts, d =>
    let path := getIndexName t.name (t.cols.map (·.name))
    match d.store.openFile path with
    | none => none
    | some (h, s) =>
      let hdr := ((s.files path).map fun file => (file.pages 0).bytes).getD []
      -- `emplace` keeps the first handle
      if (s.ihs t.name).isSome then openIndexes ts { d with store := s }
      else
        openIndexes ts { d with
          store := { s with ihs := Function.update s.ihs t.name (some h) }
          ixHdrs := Function.update d.ixHdrs t.name hdr }

/-- The state of `open_db` before the loops. -/
def loaded (proc : SmStore) (disk : DiskImage) (db : SmMeta.Db) : Database where
  store := { proc with
    files := disk.files
    tabs := fun tab => (db.tabs.find? (·.name = tab)).map (·.toMeta) }
  name := db.name
  keys := (db.tabs.map (·.name)).toFinset
  indexed := fun tab col => (db.tabs.find? (·.name = tab)).any fun t =>
    t.cols.any fun c => c.name = col && c.index
  hdrs := fun _ => []
  ixHdrs := fun _ => []

/-- `open_db` in the new process `proc`. -/
def openDb (proc : SmStore) (disk : DiskImage) : Option Database :=
  match SmMeta.Db.read disk.text with
  | none => none
  | some db =>
    match openTables (db.tabs.map (·.name)) (loaded proc disk db) with
    | none => none
    | some d => openIndexes (db.tabs.flatMap fun t => t.indexes.map fun _ => t) d

end Database

/-- A process that has opened nothing yet: the pool is empty, and the descriptors it has are not those
    of tables. -/
structure NewProcess (proc : SmStore) : Prop where
  pool : ∀ p, proc.pageTable p = none
  fhs : ∀ name, proc.fhs name = none
  ihs : ∀ name, proc.ihs name = none
  descriptors : ∀ e ∈ proc.descriptors, isIdent e.2 = false

/-! ### The same database -/

namespace SmStore

/-- The bytes of a page of the file open under `fd`: in its frame, else on the disk. -/
def currentPage (s : SmStore) (fd n : Int) : List UInt8 :=
  match s.pageTable ⟨fd, n⟩ with
  | some f => (s.frames f).page.bytes
  | none =>
    match s.fileOf fd with
    | some (_, file) => (file.pages n).bytes
    | none => []

end SmStore

namespace Database

/-- The records of a table, by record id. -/
def records (d : Database) (tab : String) : Option (Rid → Option (List UInt8)) :=
  (d.store.fhs tab).map fun h =>
    contents (hdrOf (d.hdrs tab)) fun n i => (d.store.currentPage h.fd n).getD i 0

/-- What `get_value` finds under an entry of `ihs_`: the header in memory and the pages. -/
def indexView (d : Database) (name : String) : Option (List UInt8 × (Int → List UInt8)) :=
  (d.store.ihs name).map fun h => (d.ixHdrs name, d.store.currentPage h.fd)

end Database

/-- **The same database.** `getValue` is what an index handle answers, a function of what it finds and
    of the key. -/
structure SameDatabase {γ : Type} (getValue : List UInt8 × (Int → List UInt8) → List UInt8 → γ)
    (d d' : Database) : Prop where
  catalog : d'.catalog = d.catalog
  records : ∀ tab, d'.records tab = d.records tab
  indexes : ∀ t ∈ d.catalog.tabs, ∀ i ∈ t.indexes,
    let name := getIndexName t.name (i.cols.map (·.name))
    ∃ x x', d.indexView name = some x ∧ d'.indexView name = some x' ∧
      ∀ key, getValue x' key = getValue x key

end Rmdb
