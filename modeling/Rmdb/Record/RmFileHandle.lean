import Rmdb.Record.PageLayout
import Rmdb.Storage.DiskManager
import Rmdb.Storage.PageAccess

namespace Rmdb

/-!
# The record file (`record/rm_file_handle.{h,cpp}`, `record/rm_manager.h`)

The operations of `RmFileHandle` and `RmManager` over the buffer pool and the disk manager.  An
operation is a program in `RmM`: it changes the handle, the pool and the disk behind it, and may
throw; what it changed before it threw stays.

The record locks are not part of the model: a request is granted.
-/

/-- What the record layer can throw.  `nullPage` stands for the use of a null `Page *`. -/
inductive RmError where
  | disk (e : DiskError)
  | internalError (msg : String)
  | invalidRecordSizeError (recordSize : Int)
  | pageNotExistError (pageNo : Int)
  | nullPage
  deriving DecidableEq, Repr

/-- `class RmFileHandle`, with the pool (and the disk) it points to. -/
structure RmFileHandle where
  fd : Int
  fileHdr : RmFileHdr
  pool : BufferPoolManager DiskManager

/-- The programs of the record layer. -/
abbrev RmM := ExceptT RmError (StateM RmFileHandle)

namespace RmM

variable {α β : Type} {s s' : RmFileHandle}

/-- A program that succeeds goes on with its result. -/
theorem bind_ok {m : RmM α} {k : α → RmM β} {a : α} (h : m s = (.ok a, s')) :
    (m >>= k) s = k a s' := by
  show ExceptT.bindCont k (m s).1 (m s).2 = k a s'
  rw [h]
  rfl

/-- A program that throws ends. -/
theorem bind_error {m : RmM α} {k : α → RmM β} {e : RmError} (h : m s = (.error e, s')) :
    (m >>= k) s = (.error e, s') := by
  show ExceptT.bindCont k (m s).1 (m s).2 = (.error e, s')
  rw [h]
  rfl

end RmM

namespace RmFileHandle

/-- Call an operation of the pool. -/
def onPool {α : Type}
    (op : BufferPoolManager DiskManager → Except DiskError α × BufferPoolManager DiskManager) :
    RmM α := fun s =>
  match op s.pool with
  | (.ok a, b) => (.ok a, { s with pool := b })
  | (.error e, b) => (.error (.disk e), { s with pool := b })

/-- Write the file header to page 0, past the pool. -/
def writeFileHdr : RmM Unit := fun s =>
  match s.pool.disk.writePage s.fd rmFileHdrPage sizeofRmFileHdr s.fileHdr.bytes with
  | (.ok _, d) => (.ok (), { s with pool := { s.pool with disk := d } })
  | (.error e, d) => (.error (.disk e), { s with pool := { s.pool with disk := d } })

/-- The bytes in a frame. -/
def readFrame (f : FrameId) : RmM PageData := fun s => (.ok (s.pool.pages f).data, s)

/-- Change the bytes in a frame. -/
def modifyFrame (f : FrameId) (g : PageData → PageData) : RmM Unit := fun s =>
  (.ok (), { s with
    pool := s.pool.setPage f { s.pool.pages f with data := g (s.pool.pages f).data } })

/-- `page->get_page_id().page_no`. -/
def framePageNo (f : FrameId) : RmM Int := fun s => (.ok (s.pool.pages f).id.pageNo, s)

/-- `file_hdr_`. -/
def getFileHdr : RmM RmFileHdr := fun s => (.ok s.fileHdr, s)

/-- Change `file_hdr_`. -/
def modifyFileHdr (g : RmFileHdr → RmFileHdr) : RmM Unit := fun s =>
  (.ok (), { s with fileHdr := g s.fileHdr })

theorem getFileHdr_bind {β : Type} (k : RmFileHdr → RmM β) (s : RmFileHandle) :
    (getFileHdr >>= k) s = k s.fileHdr s := rfl

theorem modifyFileHdr_bind {β : Type} (g : RmFileHdr → RmFileHdr) (k : Unit → RmM β)
    (s : RmFileHandle) :
    (modifyFileHdr g >>= k) s = k () { s with fileHdr := g s.fileHdr } := rfl

/-- `buffer_pool_manager_->unpin_page`; the result is ignored everywhere. -/
def unpin (pageNo : Int) (isDirty : Bool) : RmM Unit := fun s =>
  (.ok (), { s with pool := (s.pool.unpinPage ⟨s.fd, pageNo⟩ isDirty).2 })

/-- `RmFileHandle::fetch_page_handle`: the frame of the page. -/
def fetchPageHandle (pageNo : Int) : RmM FrameId := fun s =>
  if pageNo = invalidPageId then (.error (.pageNotExistError pageNo), s)
  else
    (do
      match ← onPool (·.fetchPage DiskManager.ops ⟨s.fd, pageNo⟩) with
      | none => throw .nullPage
      | some f => return f : RmM FrameId) s

/-- The page `new_page` returned, initialised and written to the disk. -/
def initNewPage (f : FrameId) (p : PageId) : RmM FrameId := do
  let hdr ← getFileHdr
  modifyFrame f (PageData.initPage hdr)
  let _ ← onPool (·.flushPage DiskManager.ops p)
  modifyFileHdr fun h => { h with numPages := h.numPages + 1, firstFreePageNo := p.pageNo }
  writeFileHdr
  return f

/-- `RmFileHandle::create_new_page_handle`. -/
def createNewPageHandle : RmM FrameId := fun s =>
  (do
    match ← onPool (·.newPage DiskManager.ops s.fd) with
    | none => throw (.internalError "Create new page handle failed.")
    | some (f, p) => initNewPage f p : RmM FrameId) s

/-- `RmFileHandle::create_page_handle`. -/
def createPageHandle : RmM FrameId := do
  let hdr ← getFileHdr
  if hdr.firstFreePageNo = rmNoPage then createNewPageHandle
  else fetchPageHandle hdr.firstFreePageNo

/-- A page that `insert_record` has filled leaves the chain of free pages. -/
def unlinkIfFull (f : FrameId) : RmM Unit := do
  let hdr ← getFileHdr
  let x ← readFrame f
  if x.numRecords = hdr.numRecordsPerPage then do
    modifyFileHdr fun h => { h with firstFreePageNo := x.nextFreePageNo }
    writeFileHdr
  else return ()

/-- `RmFileHandle::insert_record(buf, context)`; `lsn` is the `prev_lsn` of the transaction. -/
def insertRecord (buf : List UInt8) (lsn : Lsn) : RmM Rid := do
  let f ← createPageHandle
  let hdr ← getFileHdr
  let x ← readFrame f
  let slot := Bitmap.nextBit false x hdr.numRecordsPerPage (-1)
  modifyFrame f fun x => PageData.insertInto hdr x slot buf
  unlinkIfFull f
  let pageNo ← framePageNo f
  modifyFrame f (·.setPageLsn lsn)
  unpin pageNo true
  return ⟨pageNo, slot⟩

/-- `RmFileHandle::release_page_handle`. -/
def releasePageHandle (f : FrameId) : RmM Unit := do
  let hdr ← getFileHdr
  let pageNo ← framePageNo f
  modifyFrame f (·.setNextFreePageNo hdr.firstFreePageNo)
  modifyFileHdr fun h => { h with firstFreePageNo := pageNo }
  writeFileHdr

/-- A full page that `delete_record` is about to change joins the chain of free pages. -/
def linkIfFull (f : FrameId) : RmM Unit := do
  let hdr ← getFileHdr
  let x ← readFrame f
  if x.numRecords = hdr.numRecordsPerPage then releasePageHandle f else return ()

/-- `RmFileHandle::delete_record`. -/
def deleteRecord (rid : Rid) (lsn : Lsn) : RmM Unit := do
  let f ← fetchPageHandle rid.pageNo
  linkIfFull f
  modifyFrame f (PageData.deleteFrom · rid.slotNo.toNat)
  modifyFrame f (·.setPageLsn lsn)
  let pageNo ← framePageNo f
  unpin pageNo true

/-- `RmFileHandle::update_record`: the LSN is set after the page has been unpinned. -/
def updateRecord (rid : Rid) (buf : List UInt8) (lsn : Lsn) : RmM Unit := do
  let f ← fetchPageHandle rid.pageNo
  let hdr ← getFileHdr
  modifyFrame f fun x => PageData.setSlot hdr x rid.slotNo.toNat buf
  unpin rid.pageNo true
  modifyFrame f (·.setPageLsn lsn)

/-- `RmFileHandle::get_record`. -/
def getRecord (rid : Rid) : RmM (List UInt8) := do
  let f ← fetchPageHandle rid.pageNo
  let hdr ← getFileHdr
  let x ← readFrame f
  unpin rid.pageNo true
  return PageData.getSlot hdr x rid.slotNo.toNat

end RmFileHandle

/-! ### `RmManager` -/

namespace RmManager

/-- `RmManager::create_file`. -/
def createFile (d : DiskManager) (path : String) (recordSize : Int) :
    Except RmError Unit × DiskManager :=
  if recordSize < 1 ∨ recordSize > rmMaxRecordSize then
    (.error (.invalidRecordSizeError recordSize), d)
  else
    match d.createFile path with
    | (.error e, d) => (.error (.disk e), d)
    | (.ok _, d) =>
      match d.openFile path with
      | (.error e, d) => (.error (.disk e), d)
      | (.ok fd, d) =>
        match d.writePage fd rmFileHdrPage sizeofRmFileHdr
            (RmFileHdr.create recordSize.toNat).bytes with
        | (.error e, d) => (.error (.disk e), d)
        | (.ok _, d) =>
          match d.closeFile fd with
          | (.error e, d) => (.error (.disk e), d)
          | (.ok _, d) => (.ok (), d)

/-- `RmManager::open_file`, with the constructor of `RmFileHandle`. -/
def openFile (b : BufferPoolManager DiskManager) (path : String) :
    Except RmError RmFileHandle × BufferPoolManager DiskManager :=
  match b.disk.openFile path with
  | (.error e, d) => (.error (.disk e), { b with disk := d })
  | (.ok fd, d) =>
    match d.readPage fd rmFileHdrPage sizeofRmFileHdr (fun _ => 0) with
    | (.error e, _) => (.error (.disk e), { b with disk := d })
    | (.ok _, m) =>
      let hdr := RmFileHdr.ofBytes m
      let b := { b with disk := d.setFd2pageno fd hdr.numPages }
      (.ok ⟨fd, hdr, b⟩, b)

/-- `RmManager::close_file`. -/
def closeFile : RmM Unit := do
  RmFileHandle.writeFileHdr
  let fd ← (fun s => (.ok s.fd, s) : RmM Int)
  RmFileHandle.onPool (·.flushAllPages DiskManager.ops fd)
  RmFileHandle.onPool fun b =>
    let r := b.disk.closeFile fd
    (r.1, { b with disk := r.2 })

end RmManager

end Rmdb
