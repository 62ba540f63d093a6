import Rmdb.Execution.Values
import Rmdb.Lib.Transition
import Rmdb.Storage.DiskManager
import Rmdb.Storage.LruReplacer

namespace Rmdb

open Lib

/-!
# Tables, indexes and their files (`system/sm_manager.{h,cpp}`, `index/ix_manager.h`,
# `record/rm_manager.h`)

What `SmManager` does with files, descriptors and cached pages: the DDL statements as it runs them,
and the page accesses of every other statement, which go through the handles in `fhs_` and `ihs_`.

* `PageImage` — the bytes of a page, with the file and the number they were written for; the code
  has the bytes only;
* `SmStore` — the pool, the files, the descriptors and the catalog;
* `createTable`, `dropTable`, `createIndex`, `dropIndex` — the DDL statements;
* `smManager` — the system.

The pool takes any unpinned frame.  A call that throws before it has changed anything leaves the
state as it is.
-/

/-- `RM_MAX_RECORD_SIZE`, `IX_MAX_COL_LEN`. -/
def maxColLen : Nat := 512

/-- The bytes of a page. -/
structure PageImage where
  /-- The file they belong to. -/
  file : Nat
  pageNo : Int
  bytes : List UInt8
  deriving DecidableEq, Repr

/-- A file on the disk; `ident` tells it from every other file that ever had its name. -/
structure DiskFile where
  ident : Nat
  pages : Int → PageImage

/-- A frame of the pool. -/
structure SmFrame where
  id : PageId
  page : PageImage
  isDirty : Bool
  pinCount : Int

/-- `RmFileHandle` or `IxIndexHandle`: the descriptor, and the file it was opened on. -/
structure FileHandle where
  fd : Int
  file : Nat
  deriving DecidableEq, Repr

/-- `struct TabMeta`. -/
structure TabMeta where
  name : String
  cols : List ColMeta
  indexes : List IndexMeta
  deriving DecidableEq, Repr

/-- `SmManager` with the pool and the disk behind it. -/
structure SmStore where
  frames : FrameId → SmFrame
  pageTable : PageId → Option FrameId
  files : String → Option DiskFile
  descriptors : List (Int × String)
  fd2pageno : Int → Int
  /-- The number of the next file that is created. -/
  nextFile : Nat
  /-- `db_.tabs_`. -/
  tabs : String → Option TabMeta
  fhs : String → Option FileHandle
  ihs : String → Option FileHandle

/-- `IxManager::get_index_name`. -/
def getIndexName (tab : String) (cols : List String) : String :=
  (cols.foldl (fun name col => name ++ "_" ++ col) tab) ++ ".idx"

namespace SmStore

/-! ### The disk -/

/-- The file behind a descriptor. -/
def fileOf (s : SmStore) (fd : Int) : Option (String × DiskFile) :=
  match s.descriptors.lookup fd with
  | none => none
  | some path =>
    match s.files path with
    | none => none
    | some file => some (path, file)

/-- `write_page`. -/
def writePage (s : SmStore) (p : PageId) (image : PageImage) : SmStore :=
  match s.fileOf p.fd with
  | none => s
  | some (path, file) =>
    { s with
      files := Function.update s.files path
        (some { file with pages := Function.update file.pages p.pageNo image }) }

/-- Write bytes past the pool, as the managers do with header pages. -/
def writeBytes (s : SmStore) (p : PageId) (bytes : List UInt8) : SmStore :=
  match s.fileOf p.fd with
  | none => s
  | some (_, file) => s.writePage p ⟨file.ident, p.pageNo, bytes⟩

/-- `create_file`. -/
def createFile (s : SmStore) (path : String) : Option SmStore :=
  match s.files path with
  | some _ => none
  | none => some { s with
      files := Function.update s.files path
        (some { ident := s.nextFile, pages := fun n => ⟨s.nextFile, n, []⟩ })
      nextFile := s.nextFile + 1 }

/-- `destroy_file`. -/
def destroyFile (s : SmStore) (path : String) : SmStore :=
  if s.descriptors.any (·.2 = path) then s
  else { s with files := Function.update s.files path none }

/-- `open_file`: the lowest free descriptor. -/
def openFile (s : SmStore) (path : String) : Option (FileHandle × SmStore) :=
  if s.descriptors.any (·.2 = path) then none
  else
    match s.files path, DiskManager.lowestFree s.descriptors with
    | some file, some fd =>
      some (⟨fd, file.ident⟩, { s with descriptors := (fd, path) :: s.descriptors })
    | _, _ => none

/-- `close_file`. -/
def closeFile (s : SmStore) (fd : Int) : SmStore :=
  { s with
    descriptors := s.descriptors.filter (·.1 ≠ fd)
    fd2pageno := Function.update s.fd2pageno fd 0 }

/-- `set_fd2pageno`. -/
def setFd2pageno (s : SmStore) (fd n : Int) : SmStore :=
  { s with fd2pageno := Function.update s.fd2pageno fd n }

/-! ### The pool -/

/-- Write the page in a frame to the disk; the frame is clean then. -/
def writeFrame (s : SmStore) (f : FrameId) (p : PageId) : SmStore :=
  let s := s.writePage p (s.frames f).page
  { s with frames := Function.update s.frames f { s.frames f with isDirty := false } }

/-- `update_page`, up to the new mapping: a dirty page is written, the mapping of the page that was
    in the frame erased. -/
def dropFrame (s : SmStore) (f : FrameId) : SmStore :=
  let s := if (s.frames f).isDirty then s.writeFrame f (s.frames f).id else s
  { s with pageTable := Function.update s.pageTable (s.frames f).id none }

/-- `update_page` with a new page, and what is then read or reset; the frame is pinned. -/
def loadFrame (s : SmStore) (f : FrameId) (p : PageId) (image : PageImage) : SmStore :=
  let s := s.dropFrame f
  { s with
    -- `emplace` keeps a mapping that exists
    pageTable := Function.update s.pageTable p (some ((s.pageTable p).getD f))
    frames := Function.update s.frames f
      { s.frames f with id := p, page := image, pinCount := (s.frames f).pinCount + 1 } }

/-- `fetch_page`; `v` is the frame it takes if the page is not cached. -/
def fetchPage (s : SmStore) (p : PageId) (v : FrameId) : Option (FrameId × SmStore) :=
  match s.pageTable p with
  | some f =>
    some (f, { s with
      frames := Function.update s.frames f
        { s.frames f with pinCount := (s.frames f).pinCount + 1 } })
  | none =>
    if (s.frames v).pinCount = 0 then
      match (s.dropFrame v).fileOf p.fd with
      | none => none
      | some (_, file) => some (v, s.loadFrame v p (file.pages p.pageNo))
    else none

/-- `new_page`: the frame and the id of the new page. -/
def newPage (s : SmStore) (fd : Int) (v : FrameId) : Option (FrameId × PageId × SmStore) :=
  if (s.frames v).pinCount = 0 then
    match s.fileOf fd with
    | none => none
    | some (_, file) =>
      let p : PageId := ⟨fd, s.fd2pageno fd⟩
      some (v, p, (s.setFd2pageno fd (p.pageNo + 1)).loadFrame v p ⟨file.ident, p.pageNo, []⟩)
  else none

section Inversion

variable {s s' : SmStore} {p : PageId} {f v : FrameId} {fd : Int} {path : String}

/-- A file that is created was not there. -/
theorem createFile_eq (hr : s.createFile path = some s') :
    s.files path = none ∧
      s' = { s with
        files := Function.update s.files path
          (some { ident := s.nextFile, pages := fun n => ⟨s.nextFile, n, []⟩ })
        nextFile := s.nextFile + 1 } := by
  unfold SmStore.createFile at hr
  split at hr
  · cases hr
  · next hnone =>
    cases hr
    exact ⟨hnone, rfl⟩

/-- The descriptor under which a file is opened was free. -/
theorem openFile_eq {x : FileHandle} (hr : s.openFile path = some (x, s')) :
    s.descriptors.any (·.2 = path) = false ∧ DiskManager.lowestFree s.descriptors = some x.fd ∧
      s' = { s with descriptors := (x.fd, path) :: s.descriptors } := by
  unfold SmStore.openFile at hr
  split at hr
  · cases hr
  · next hany =>
    split at hr
    · next hfree =>
      cases hr
      exact ⟨Bool.eq_false_iff.mpr hany, hfree, rfl⟩
    · cases hr

/-- A fetched page was cached, or is read from its file. -/
theorem fetchPage_eq (hr : s.fetchPage p v = some (f, s')) :
    (s.pageTable p = some f ∧
      s' = { s with
        frames := Function.update s.frames f
          { s.frames f with pinCount := (s.frames f).pinCount + 1 } }) ∨
    (s.pageTable p = none ∧ f = v ∧ ∃ path file,
      (s.dropFrame f).fileOf p.fd = some (path, file) ∧
      s' = s.loadFrame f p (file.pages p.pageNo)) := by
  unfold SmStore.fetchPage at hr
  split at hr
  · next g hmap =>
    cases hr
    exact .inl ⟨hmap, rfl⟩
  · next hmiss =>
    split at hr
    · split at hr
      · cases hr
      · next path file hfile =>
        cases hr
        exact .inr ⟨hmiss, rfl, path, file, hfile, rfl⟩
    · cases hr

/-- A new page is the next one of its file. -/
theorem newPage_eq_load (hr : s.newPage fd v = some (f, p, s')) :
    f = v ∧ p = ⟨fd, s.fd2pageno fd⟩ ∧ ∃ path file, s.fileOf fd = some (path, file) ∧
      s' = (s.setFd2pageno fd (s.fd2pageno fd + 1)).loadFrame f ⟨fd, s.fd2pageno fd⟩
        ⟨file.ident, s.fd2pageno fd, []⟩ := by
  unfold SmStore.newPage at hr
  split at hr
  · split at hr
    · cases hr
    · next path file hfile =>
      cases hr
      exact ⟨rfl, rfl, path, file, hfile, rfl⟩
  · cases hr

end Inversion

/-- `unpin_page`. -/
def unpinPage (s : SmStore) (p : PageId) (isDirty : Bool) : SmStore :=
  match s.pageTable p with
  | none => s
  | some f =>
    if (s.frames f).pinCount = 0 then s
    else
      { s with
        frames := Function.update s.frames f
          { s.frames f with
            pinCount := (s.frames f).pinCount - 1
            isDirty := (s.frames f).isDirty || isDirty } }

/-- `flush_page`. -/
def flushPage (s : SmStore) (p : PageId) : SmStore :=
  match s.pageTable p with
  | none => s
  | some f => s.writeFrame f p

/-- `delete_page`. -/
def deletePage (s : SmStore) (p : PageId) : SmStore :=
  match s.pageTable p with
  | none => s
  | some f => if (s.frames f).pinCount = 0 then s.dropFrame f else s

/-- `flush_all_pages`: the loop over the cached pages `ps` of a file. -/
def flushAllPages (s : SmStore) (ps : List PageId) : SmStore := ps.foldl flushPage s

/-- The loop of `delete_all_page`, over frames that are not pinned. -/
def deleteAllPage (s : SmStore) (ps : List PageId) : SmStore := ps.foldl deletePage s

/-- `ps` lists the cached pages of the file. -/
def CachedPages (s : SmStore) (fd : Int) (ps : List PageId) : Prop :=
  ∀ p, p ∈ ps ↔ p.fd = fd ∧ s.pageTable p ≠ none

/-! ### The statements -/

/-- The end of a table or index file: header page, cached pages, descriptor, name. -/
def closeAndDestroy (s : SmStore) (fd : Int) (path : String) (hdr : List UInt8) (ps : List PageId) :
    SmStore :=
  (((s.writeBytes ⟨fd, 0⟩ hdr).flushAllPages ps).closeFile fd).destroyFile path

/-- The file is created, opened to write the pages `pages`, closed, and opened again. -/
def createAndOpen (s : SmStore) (path : String) (pages : List (Int × List UInt8)) (numPages : Int) :
    Option (FileHandle × SmStore) :=
  match s.createFile path with
  | none => none
  | some s =>
    match s.openFile path with
    | none => none
    | some (h, s) =>
      let s := (pages.foldl (fun s e => s.writeBytes ⟨h.fd, e.1⟩ e.2) s).closeFile h.fd
      match s.openFile path with
      | none => none
      | some (h, s) => some (h, s.setFd2pageno h.fd numPages)

/-- A file that is created and opened was opened twice. -/
theorem createAndOpen_eq {s s' : SmStore} {path : String} {pages : List (Int × List UInt8)}
    {numPages : Int} {x : FileHandle} (hr : s.createAndOpen path pages numPages = some (x, s')) :
    ∃ s₁ y s₂ s₃, s.createFile path = some s₁ ∧ s₁.openFile path = some (y, s₂) ∧
      ((pages.foldl (fun s e => s.writeBytes ⟨y.fd, e.1⟩ e.2) s₂).closeFile y.fd).openFile path =
        some (x, s₃) ∧
      s' = s₃.setFd2pageno x.fd numPages := by
  unfold SmStore.createAndOpen at hr
  split at hr
  · cases hr
  · next s₁ hcreate =>
    split at hr
    · cases hr
    · next y s₂ hopen =>
      dsimp only at hr
      split at hr
      · cases hr
      · next z s₃ hreopen =>
        cases hr
        exact ⟨s₁, y, s₂, s₃, hcreate, hopen, hreopen, rfl⟩

/-- `SmManager::create_table`; `hdr` are the bytes of the header. -/
def createTable (s : SmStore) (tab : String) (cols : List ColMeta) (hdr : List UInt8) : SmStore :=
  if (s.tabs tab).isSome then s
  else if (cols.map (·.len)).sum < 1 ∨ (cols.map (·.len)).sum > maxColLen then s
  else
    match s.createAndOpen tab [(0, hdr)] 1 with
    | none => s
    | some (h, s) =>
      { s with
        tabs := Function.update s.tabs tab (some { name := tab, cols := cols, indexes := [] })
        fhs := Function.update s.fhs tab (some h) }

/-- The columns `create_index` finds for the names. -/
def indexCols (cols : List ColMeta) (colNames : List String) : List ColMeta :=
  colNames.flatMap fun y => cols.filter fun x => x.name = y

/-- The index file that `IxManager::create_index` leaves open when it throws
    `InvalidColLengthError`. -/
def leakIndexFile (s : SmStore) (path : String) : SmStore :=
  match s.createFile path with
  | none => s
  | some s =>
    match s.openFile path with
    | none => s
    | some (_, s) => s

/-- `SmManager::create_index`, up to the insertion of the records that exist; `hdr`, `leafHdr` and
    `root` are the bytes of the first three pages. -/
def createIndex (s : SmStore) (tab : String) (colNames : List String)
    (hdr leafHdr root : List UInt8) : SmStore :=
  let path := getIndexName tab colNames
  if (s.files path).isSome then s
  else
    match s.tabs tab with
    | none => s
    | some info =>
      let cols := indexCols info.cols colNames
      if cols.length ≠ colNames.length then s
      else if (cols.map (·.len)).sum > maxColLen then s.leakIndexFile path
      else
        match s.createAndOpen path [(0, hdr), (1, leafHdr), (2, root)] 3 with
        | none => s
        | some (h, s) =>
          { s with
            tabs := Function.update s.tabs tab
              (some { info with indexes := info.indexes ++ [IndexMeta.create cols] })
            ihs := Function.update s.ihs path (some h) }

/-- The column names of an index. -/
def colNames (index : IndexMeta) : List String := index.cols.map (·.name)

/-- `SmManager::drop_index`: `close_index` flushes the cached pages `ps` and leaves them in the
    pool.  `ihs_.at` throws if there is no handle. -/
def dropIndex (s : SmStore) (tab : String) (names : List String) (hdr : List UInt8)
    (ps : List PageId) : SmStore :=
  match s.tabs tab with
  | none => s
  | some info =>
    match info.indexes.find? (colNames · = names) with
    | none => s
    | some index =>
      let path := getIndexName tab names
      let s := { s with
        tabs := Function.update s.tabs tab
          (some { info with indexes := info.indexes.erase index }) }
      match s.ihs path with
      | none => s
      | some h =>
        let s := s.closeAndDestroy h.fd path hdr ps
        { s with ihs := Function.update s.ihs path none }

/-- A cached page is pinned. -/
def isPinned (s : SmStore) (p : PageId) : Bool :=
  match s.pageTable p with
  | none => false
  | some f => (s.frames f).pinCount ≠ 0

/-- `SmManager::drop_table` after the loop over the indexes: `close_all_page` takes the cached
    pages `ps` out of the pool, so that none is left when `close_file` flushes.  The assertion fails
    if one of them is pinned. -/
def dropTable (s : SmStore) (tab : String) (hdr : List UInt8) (ps : List PageId) : Option SmStore :=
  match s.tabs tab, s.fhs tab with
  | some info, some h =>
    if info.indexes ≠ [] ∨ ps.any s.isPinned then none
    else
      let s := (s.deleteAllPage ps).closeAndDestroy h.fd tab hdr []
      some { s with
        fhs := Function.update s.fhs tab none
        tabs := Function.update s.tabs tab none }
  | _, _ => none

end SmStore

/-! ### The system -/

/-- A statement, or a page access of one. -/
inductive SmStep where
  | createTable (tab : String) (cols : List ColMeta) (hdr : List UInt8)
  /-- `drop_table` runs `drop_index` for the indexes of the table first, a step for each. -/
  | dropTable (tab : String) (hdr : List UInt8) (ps : List PageId)
  | createIndex (tab : String) (names : List String) (hdr leafHdr root : List UInt8)
  | dropIndex (tab : String) (names : List String) (hdr : List UInt8) (ps : List PageId)
  | fetchPage (h : FileHandle) (pageNo : Int) (v : FrameId)
  | newPage (h : FileHandle) (v : FrameId)
  /-- The bytes of a page change under a pin. -/
  | change (f : FrameId) (bytes : List UInt8)
  | unpinPage (p : PageId) (isDirty : Bool)
  | flushPage (p : PageId)
  | deletePage (p : PageId)
  /-- A handle writes the header page of its file. -/
  | writeHdr (h : FileHandle) (hdr : List UInt8)

namespace SmStore

/-- A handle in `fhs_` or `ihs_`, under the name of its file. -/
def IsOpen (s : SmStore) (name : String) (h : FileHandle) : Prop :=
  s.fhs name = some h ∨ s.ihs name = some h

/-- One step. -/
def Step (s : SmStore) : SmStep → SmStore → Prop
  | .createTable tab cols hdr, s' => s' = s.createTable tab cols hdr
  | .dropTable tab hdr ps, s' =>
    (∀ h, s.fhs tab = some h → s.CachedPages h.fd ps) ∧ s.dropTable tab hdr ps = some s'
  | .createIndex tab names hdr leafHdr root, s' => s' = s.createIndex tab names hdr leafHdr root
  | .dropIndex tab names hdr ps, s' =>
    (∀ h, s.ihs (getIndexName tab names) = some h → s.CachedPages h.fd ps) ∧
      s' = s.dropIndex tab names hdr ps
  | .fetchPage h n v, s' =>
    (∃ name, s.IsOpen name h) ∧ ∃ f, s.fetchPage ⟨h.fd, n⟩ v = some (f, s')
  | .newPage h v, s' => (∃ name, s.IsOpen name h) ∧ ∃ f p, s.newPage h.fd v = some (f, p, s')
  | .change f bytes, s' =>
    0 < (s.frames f).pinCount ∧ s' = { s with
      frames := Function.update s.frames f
        { s.frames f with page := { (s.frames f).page with bytes := bytes } } }
  | .unpinPage p isDirty, s' => s' = s.unpinPage p isDirty
  | .flushPage p, s' => s' = s.flushPage p
  | .deletePage p, s' => s' = s.deletePage p
  | .writeHdr h hdr, s' => (∃ name, s.IsOpen name h) ∧ s' = s.writeBytes ⟨h.fd, 0⟩ hdr

/-- A new database: no table, an empty pool.  The files that are there, and the descriptors, are not
    those of tables. -/
structure Initial (s : SmStore) : Prop where
  pool : ∀ p, s.pageTable p = none
  clean : ∀ f, (s.frames f).isDirty = false
  tabs : ∀ tab, s.tabs tab = none
  fhs : ∀ tab, s.fhs tab = none
  ihs : ∀ name, s.ihs name = none
  descriptors : ∀ e ∈ s.descriptors, s.files e.2 ≠ none
  files : ∀ path file, s.files path = some file → file.ident < s.nextFile ∧
    ∀ n, (file.pages n).file = file.ident ∧ (file.pages n).pageNo = n

end SmStore

/-- **`SmManager` in use.** -/
def smManager : TransitionSystem SmStore SmStep where
  init := SmStore.Initial
  step s a s' := s.Step a s'

end Rmdb
