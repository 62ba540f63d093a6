import Rmdb.Lib.PinLedger
import Rmdb.Lib.Program
import Rmdb.Record.NullContext

namespace Rmdb

open Lib

/-!
# The operations of a record file as programs (`record/rm_file_handle.cpp`, `record/rm_scan.cpp`)

The operations of `RmFileHandle` and `RmScan::next` give commands to the lock manager, the buffer pool and
the disk, and between two commands other threads may do anything.  A lock may be refused, a page may not
be had, and the page table may have lost a page when it is unpinned.

* `RmCmd`, `RmProgram` — the commands, and the operations as programs;
* `agrees_insertRecord`, … — without other threads they are the operations of `RmFileHandle`.
-/

/-- `struct RmPageHandle`: the frame, and the number of the page that was fetched into it. -/
structure RmPageHandle where
  frame : FrameId
  pageNo : Int

/-- What an operation asks of others. -/
inductive RmCmd where
  /-- `lock_shared_on_record`, `lock_exclusive_on_record`. -/
  | lock (exclusive : Bool) (rid : Rid)
  | fetchPage (pageNo : Int)
  | newPage
  | unpinPage (pageNo : Int) (isDirty : Bool)
  | flushPage (p : PageId)
  /-- Read the bytes of a page. -/
  | read (page : RmPageHandle)
  /-- Change them. -/
  | write (page : RmPageHandle) (g : PageData → PageData)
  /-- `page->get_page_id().page_no`. -/
  | pageNo (page : RmPageHandle)
  | fileHdr
  | setFileHdr (g : RmFileHdr → RmFileHdr)
  /-- `write_page` of the file header. -/
  | writeFileHdr

/-- What the others answer.  A lock is granted or refused.  For `unpin_page` it is the frame that loses a
    pin, none if it returns false; the operations do not look at it. -/
def RmCmd.Answer : RmCmd → Type
  | .lock _ _ => Bool
  | .fetchPage _ => Except DiskError (Option FrameId)
  | .newPage => Except DiskError (Option (FrameId × PageId))
  | .unpinPage _ _ => Option FrameId
  | .flushPage _ => Except DiskError Bool
  | .read _ => PageData
  | .pageNo _ => Int
  | .fileHdr => RmFileHdr
  | .writeFileHdr => Except DiskError Unit
  | .write _ _ | .setFileHdr _ => Unit

/-- The components around a record file.  They may answer anything. -/
abbrev rmInterface : Interface where
  Cmd := RmCmd
  Answer := RmCmd.Answer
  Allowed _ _ := True

/-- The programs of the record layer. -/
abbrev RmProgram := ExceptT ContextError (Program rmInterface)

namespace RmProgram

/-- Give one command. -/
def ask (c : RmCmd) : RmProgram c.Answer := ExceptT.lift (Program.command (I := rmInterface) c)

/-- An exception of the disk. -/
def orThrow {α : Type} : Except DiskError α → RmProgram α
  | .ok a => return a
  | .error e => throw (.rm (.disk e))

/-- `lock_shared_on_record` and `lock_exclusive_on_record`. -/
def lock (exclusive : Bool) (rid : Rid) : RmProgram Unit := do
  let granted : Bool ← ask (.lock exclusive rid)
  if granted then return () else throw .abort

/-- `fetch_page`. -/
def fetchPage (pageNo : Int) : RmProgram (Option FrameId) := do orThrow (← ask (.fetchPage pageNo))

/-- `new_page`. -/
def newPage : RmProgram (Option (FrameId × PageId)) := do orThrow (← ask .newPage)

/-- `flush_page`. -/
def flushPage (p : PageId) : RmProgram Bool := do orThrow (← ask (.flushPage p))

/-- `unpin_page`, whatever it returns. -/
def unpinPage (pageNo : Int) (isDirty : Bool) : RmProgram Unit := do
  let _ ← ask (.unpinPage pageNo isDirty)

/-- Write the file header. -/
def writeFileHdr : RmProgram Unit := do orThrow (← ask .writeFileHdr)

/-- `RmFileHandle::fetch_page_handle`. -/
def fetchPageHandle (pageNo : Int) : RmProgram RmPageHandle := do
  if pageNo = invalidPageId then throw (.rm (.pageNotExistError pageNo))
  else
    match ← fetchPage pageNo with
    | none => throw (.rm .nullPage)
    | some f => return ⟨f, pageNo⟩

/-- `RmFileHandle::create_new_page_handle`. -/
def createNewPageHandle : RmProgram RmPageHandle := do
  match ← newPage with
  | none => throw (.rm (.internalError "Create new page handle failed."))
  | some (f, p) =>
    let page : RmPageHandle := ⟨f, p.pageNo⟩
    let hdr ← ask .fileHdr
    ask (.write page (PageData.initPage hdr))
    let _ ← flushPage p
    ask (.setFileHdr fun h => { h with numPages := h.numPages + 1, firstFreePageNo := p.pageNo })
    writeFileHdr
    return page

/-- `RmFileHandle::create_page_handle`. -/
def createPageHandle : RmProgram RmPageHandle := do
  let hdr : RmFileHdr ← ask .fileHdr
  if hdr.firstFreePageNo = rmNoPage then createNewPageHandle
  else fetchPageHandle hdr.firstFreePageNo

/-- A page that `insert_record` has filled leaves the chain of free pages. -/
def unlinkIfFull (page : RmPageHandle) : RmProgram Unit := do
  let hdr : RmFileHdr ← ask .fileHdr
  let x : PageData ← ask (.read page)
  if x.numRecords = hdr.numRecordsPerPage then do
    ask (.setFileHdr fun h => { h with firstFreePageNo := x.nextFreePageNo })
    writeFileHdr
  else return ()

/-- `RmFileHandle::insert_record(buf, context)`; `lsn` is the `prev_lsn` of the transaction. -/
def insertRecord (buf : List UInt8) (lsn : Lsn) : RmProgram Rid := do
  let page ← createPageHandle
  let hdr : RmFileHdr ← ask .fileHdr
  let x : PageData ← ask (.read page)
  let slot := Bitmap.nextBit false x hdr.numRecordsPerPage (-1)
  let pageNo : Int ← ask (.pageNo page)
  lock true ⟨pageNo, slot⟩
  ask (.write page fun x => PageData.insertInto hdr x slot buf)
  unlinkIfFull page
  let pageNo : Int ← ask (.pageNo page)
  ask (.write page (·.setPageLsn lsn))
  unpinPage pageNo true
  return ⟨pageNo, slot⟩

/-- `RmFileHandle::release_page_handle`. -/
def releasePageHandle (page : RmPageHandle) : RmProgram Unit := do
  let hdr : RmFileHdr ← ask .fileHdr
  let pageNo : Int ← ask (.pageNo page)
  ask (.write page (·.setNextFreePageNo hdr.firstFreePageNo))
  ask (.setFileHdr fun h => { h with firstFreePageNo := pageNo })
  writeFileHdr

/-- A full page that `delete_record` is about to change joins the chain of free pages. -/
def linkIfFull (page : RmPageHandle) : RmProgram Unit := do
  let hdr : RmFileHdr ← ask .fileHdr
  let x : PageData ← ask (.read page)
  if x.numRecords = hdr.numRecordsPerPage then releasePageHandle page else return ()

/-- `RmFileHandle::delete_record`. -/
def deleteRecord (rid : Rid) (lsn : Lsn) : RmProgram Unit := do
  lock true rid
  let page ← fetchPageHandle rid.pageNo
  linkIfFull page
  ask (.write page (PageData.deleteFrom · rid.slotNo.toNat))
  ask (.write page (·.setPageLsn lsn))
  let pageNo : Int ← ask (.pageNo page)
  unpinPage pageNo true

/-- `RmFileHandle::update_record`: the LSN is set after the page has been unpinned. -/
def updateRecord (rid : Rid) (buf : List UInt8) (lsn : Lsn) : RmProgram Unit := do
  lock true rid
  let page ← fetchPageHandle rid.pageNo
  let hdr ← ask .fileHdr
  ask (.write page fun x => PageData.setSlot hdr x rid.slotNo.toNat buf)
  unpinPage rid.pageNo true
  ask (.write page (·.setPageLsn lsn))

/-- `RmFileHandle::get_record`. -/
def getRecord (rid : Rid) : RmProgram (List UInt8) := do
  lock false rid
  let page ← fetchPageHandle rid.pageNo
  let hdr : RmFileHdr ← ask .fileHdr
  let x : PageData ← ask (.read page)
  unpinPage rid.pageNo true
  return PageData.getSlot hdr x rid.slotNo.toNat

/-- `RmFileHandle::is_record`: the page is not unpinned. -/
def isRecord (rid : Rid) : RmProgram Bool := do
  let page ← fetchPageHandle rid.pageNo
  let x : PageData ← ask (.read page)
  return Bitmap.isSet x rid.slotNo.toNat

/-- `RmFileHandle::insert_record(rid, buf)`. -/
def insertRecordAt (rid : Rid) (buf : List UInt8) : RmProgram Unit := do
  let page ← fetchPageHandle rid.pageNo
  if !(← isRecord rid) then
    ask (.write page fun x =>
      (Bitmap.set x rid.slotNo.toNat).setNumRecords ((Bitmap.set x rid.slotNo.toNat).numRecords + 1))
  let hdr ← ask .fileHdr
  ask (.write page fun x => PageData.setSlot hdr x rid.slotNo.toNat buf)
  unpinPage rid.pageNo true

/-- `RmFileHandle::get_page_lsn`. -/
def getPageLsn (pageNo : Int) : RmProgram Lsn := do
  let page ← fetchPageHandle pageNo
  let x : PageData ← ask (.read page)
  unpinPage pageNo false
  return x.int 0

/-- `RmScan::next`, for at most `pages` rounds of its loop; `none` if it would go on. -/
def scanNext : Nat → Rid → RmProgram (Option Rid)
  | 0, _ => return none
  | pages + 1, rid => do
    let hdr : RmFileHdr ← ask .fileHdr
    if rid.pageNo < hdr.numPages then
      let page ← fetchPageHandle rid.pageNo
      let x : PageData ← ask (.read page)
      let slot := Bitmap.nextBit true x hdr.numRecordsPerPage rid.slotNo
      let pageNo : Int ← ask (.pageNo page)
      unpinPage pageNo false
      if slot < hdr.numRecordsPerPage then return some ⟨rid.pageNo, slot⟩
      else scanNext pages ⟨rid.pageNo + 1, -1⟩
    else return some ⟨rmNoPage, -1⟩

/-! ### Without other threads -/

/-- What a record file answers that nobody else uses, with a context for the locks. -/
def answer (context : RmContext) : (c : RmCmd) → RmFileHandle → c.Answer × RmFileHandle
  | .lock exclusive rid, s => (!exclusive || context.grants rid, s)
  | .fetchPage pageNo, s =>
    let r := s.pool.fetchPage DiskManager.ops ⟨s.fd, pageNo⟩
    (r.1, { s with pool := r.2 })
  | .newPage, s =>
    let r := s.pool.newPage DiskManager.ops s.fd
    (r.1, { s with pool := r.2 })
  | .unpinPage pageNo isDirty, s =>
    let r := s.pool.unpinPage ⟨s.fd, pageNo⟩ isDirty
    (if r.1 then s.pool.pageTable.lookup ⟨s.fd, pageNo⟩ else none, { s with pool := r.2 })
  | .flushPage p, s =>
    let r := s.pool.flushPage DiskManager.ops p
    (r.1, { s with pool := r.2 })
  | .read page, s => ((s.pool.pages page.frame).data, s)
  | .write page g, s => ((), { s with
      pool := s.pool.setPage page.frame
        { s.pool.pages page.frame with data := g (s.pool.pages page.frame).data } })
  | .pageNo page, s => ((s.pool.pages page.frame).id.pageNo, s)
  | .fileHdr, s => (s.fileHdr, s)
  | .setFileHdr g, s => ((), { s with fileHdr := g s.fileHdr })
  | .writeFileHdr, s =>
    let r := s.pool.disk.writePage s.fd rmFileHdrPage sizeofRmFileHdr s.fileHdr.bytes
    (r.1, { s with pool := { s.pool with disk := r.2 } })

/-- A program without other threads. -/
def alone {α : Type} (context : RmContext) (x : RmProgram α) : ContextM α :=
  fun s => x.run.exec (answer context) s

section Alone

open ContextCall

variable {context : RmContext} {α β : Type}

/-- Without other threads a sequence runs its parts one after the other. -/
theorem alone_bind (x : RmProgram α) (k : α → RmProgram β) :
    alone context (x >>= k) = alone context x >>= fun a => alone context (k a) := by
  funext s
  refine (Program.exec_bindE (I := rmInterface) (x := x) (k := k) (answer context) s).trans ?_
  show _ = ExceptT.bindCont (fun a => alone context (k a)) (alone context x s).1 (alone context x s).2
  unfold alone
  split
  · rename_i h
    rw [h]
    rfl
  · rename_i h
    rw [h]
    rfl

/-- A result without an exchange. -/
@[simp] theorem alone_pure (a : α) : alone context (pure a) = pure a := rfl

/-- An error without an exchange. -/
@[simp] theorem alone_throw (e : ContextError) :
    alone context (throw e : RmProgram α) = throw e := rfl

/-- The operation does what the program does, and returns `f` of its result. -/
def Agrees (context : RmContext) (x : RmProgram α) (m : RmM β) (f : α → β) : Prop :=
  ∀ s, lift m s = match alone context x s with
    | (.ok a, s') => (.ok (f a), s')
    | (.error e, s') => (.error e, s')

/-- Sequences agree if their parts do. -/
theorem Agrees.bind {x : RmProgram α} {m : RmM β} {f : α → β} (h : Agrees context x m f) {γ δ : Type}
    {k : α → RmProgram γ} {l : β → RmM δ} {g : γ → δ}
    (hk : ∀ a, Agrees context (k a) (l (f a)) g) : Agrees context (x >>= k) (m >>= l) g := by
  intro s
  have hm := h s
  rw [lift_bind, alone_bind]
  rcases hx : alone context x s with ⟨e | a, s'⟩
  · rw [hx] at hm
    rw [ContextCall.bind_error hm, ContextCall.bind_error hx]
  · rw [hx] at hm
    rw [ContextCall.bind_ok hm, ContextCall.bind_ok hx]
    exact hk a s'

/-- Results agree. -/
theorem Agrees.pure (a : α) (f : α → β) : Agrees context (Pure.pure a) (Pure.pure (f a)) f := fun _ => rfl

/-- Errors agree. -/
theorem Agrees.throw (e : RmError) (f : α → β) :
    Agrees context (throw (.rm e)) (throw e) f := fun _ => rfl

/-- What one command does. -/
theorem Agrees.ask {c : RmCmd} {m : RmM β} {f : c.Answer → β}
    (h : ∀ s, m s = (.ok (f (answer context c s).1), (answer context c s).2)) :
    Agrees context (ask c) m f := by
  intro s
  unfold lift
  rw [h s]
  rfl

/-- Reading a page of a frame. -/
theorem agrees_read (page : RmPageHandle) :
    Agrees context (ask (.read page)) (RmFileHandle.readFrame page.frame) id :=
  Agrees.ask fun _ => rfl

/-- Changing a page in its frame. -/
theorem agrees_write (page : RmPageHandle) (g : PageData → PageData) :
    Agrees context (ask (.write page g)) (RmFileHandle.modifyFrame page.frame g) id :=
  Agrees.ask fun _ => rfl

/-- The number of the page in a frame. -/
theorem agrees_pageNo (page : RmPageHandle) :
    Agrees context (ask (.pageNo page)) (RmFileHandle.framePageNo page.frame) id :=
  Agrees.ask fun _ => rfl

/-- Reading the file header. -/
theorem agrees_fileHdr : Agrees context (ask .fileHdr) RmFileHandle.getFileHdr id :=
  Agrees.ask fun _ => rfl

/-- Changing the file header in memory. -/
theorem agrees_setFileHdr (g : RmFileHdr → RmFileHdr) :
    Agrees context (ask (.setFileHdr g)) (RmFileHandle.modifyFileHdr g) id :=
  Agrees.ask fun _ => rfl

/-- `unpin_page`, whose result nobody looks at. -/
theorem agrees_unpinPage (pageNo : Int) (isDirty : Bool) :
    Agrees context (unpinPage pageNo isDirty) (RmFileHandle.unpin pageNo isDirty) id :=
  fun _ => rfl

/-- What a command does that may throw. -/
theorem Agrees.orThrow {γ : Type} {x : RmProgram γ} {m : RmM γ}
    (op : RmFileHandle → Except DiskError γ × RmFileHandle)
    (hx : ∀ s, alone context x s = alone context (orThrow (op s).1) (op s).2)
    (hm : ∀ s, m s = ((op s).1.mapError .disk, (op s).2)) : Agrees context x m id := by
  intro s
  unfold lift
  rw [hx, hm]
  cases (op s).1 with
  | error e => rfl
  | ok a => rfl

/-- Writing the file header to disk. -/
theorem agrees_writeFileHdr : Agrees context writeFileHdr RmFileHandle.writeFileHdr id := by
  refine Agrees.orThrow (fun s => answer context .writeFileHdr s) (fun _ => rfl) fun s => ?_
  unfold RmFileHandle.writeFileHdr
  show _ = ((s.pool.disk.writePage s.fd rmFileHdrPage sizeofRmFileHdr s.fileHdr.bytes).1.mapError _, _)
  rcases hw : s.pool.disk.writePage s.fd rmFileHdrPage sizeofRmFileHdr s.fileHdr.bytes with ⟨e | a, d⟩
  · simp [answer, hw, Except.mapError]
  · simp [answer, hw, Except.mapError]

/-- The operations of the pool. -/
theorem onPool_eq {γ : Type} (op : BufferPoolManager DiskManager →
    Except DiskError γ × BufferPoolManager DiskManager) (s : RmFileHandle) :
    RmFileHandle.onPool op s = ((op s.pool).1.mapError .disk, { s with pool := (op s.pool).2 }) := by
  unfold RmFileHandle.onPool
  rcases op s.pool with ⟨e | a, b⟩
  · rfl
  · rfl

/-- `fetch_page` of the pool. -/
theorem agrees_fetchPage (pageNo : Int) : Agrees context (fetchPage pageNo)
    (fun s => RmFileHandle.onPool (·.fetchPage DiskManager.ops ⟨s.fd, pageNo⟩) s) id :=
  Agrees.orThrow (fun s => answer context (.fetchPage pageNo) s) (fun _ => rfl) fun s => onPool_eq _ s

/-- `new_page` of the pool. -/
theorem agrees_newPage : Agrees context newPage
    (fun s => RmFileHandle.onPool (·.newPage DiskManager.ops s.fd) s) id :=
  Agrees.orThrow (fun s => answer context .newPage s) (fun _ => rfl) fun s => onPool_eq _ s

/-- `flush_page` of the pool. -/
theorem agrees_flushPage (p : PageId) : Agrees context (flushPage p)
    (RmFileHandle.onPool (·.flushPage DiskManager.ops p)) id :=
  Agrees.orThrow (fun s => answer context (.flushPage p) s) (fun _ => rfl) fun s => onPool_eq _ s

/-- `fetch_page_handle` with its error. -/
theorem agrees_fetchPageHandle (pageNo : Int) : Agrees context (fetchPageHandle pageNo)
    (RmFileHandle.fetchPageHandle pageNo) RmPageHandle.frame := by
  intro s
  unfold fetchPageHandle lift RmFileHandle.fetchPageHandle
  by_cases hp : pageNo = invalidPageId
  · rw [if_pos hp]
    simp only [if_pos hp]
    rfl
  · have hpool : Agrees context (fetchPage pageNo) _ id := agrees_fetchPage pageNo
    have hfetch := hpool.bind
      (k := fun o => match o with
        | none => throw (.rm .nullPage)
        | some f => Pure.pure (⟨f, pageNo⟩ : RmPageHandle))
      (l := fun o => match o with
        | none => throw RmError.nullPage
        | some f => Pure.pure f)
      (g := RmPageHandle.frame) fun o => by
        cases o with
        | none => exact .throw _ _
        | some f => exact .pure (⟨f, pageNo⟩ : RmPageHandle) RmPageHandle.frame
    rw [if_neg hp]
    simp only [if_neg hp]
    exact hfetch s

/-- `create_new_page_handle` with its error. -/
theorem agrees_createNewPageHandle : Agrees context createNewPageHandle
    RmFileHandle.createNewPageHandle RmPageHandle.frame := by
  intro s
  refine (agrees_newPage.bind (g := RmPageHandle.frame) (l := fun o => match o with
    | none => throw (RmError.internalError "Create new page handle failed.")
    | some (f, p) => RmFileHandle.initNewPage f p) fun o => ?_) s
  rcases o with _ | ⟨f, p⟩
  · exact .throw _ _
  · exact agrees_fileHdr.bind fun hdr => (agrees_write ⟨f, p.pageNo⟩ _).bind fun _ =>
      (agrees_flushPage p).bind fun _ => (agrees_setFileHdr _).bind fun _ =>
        agrees_writeFileHdr.bind fun _ =>
          .pure (⟨f, p.pageNo⟩ : RmPageHandle) RmPageHandle.frame

/-- `create_page_handle` on both branches. -/
theorem agrees_createPageHandle : Agrees context createPageHandle
    RmFileHandle.createPageHandle RmPageHandle.frame := by
  refine agrees_fileHdr.bind fun hdr => ?_
  dsimp only [id]
  split
  · exact agrees_createNewPageHandle
  · exact agrees_fetchPageHandle _

/-- The end of `insert_record`. -/
theorem agrees_unlinkIfFull (page : RmPageHandle) :
    Agrees context (unlinkIfFull page) (RmFileHandle.unlinkIfFull page.frame) id := by
  refine agrees_fileHdr.bind fun hdr => (agrees_read page).bind fun x => ?_
  dsimp only [id]
  split
  · exact (agrees_setFileHdr _).bind fun _ => agrees_writeFileHdr
  · exact .pure () id

/-- The beginning of `delete_record`. -/
theorem agrees_linkIfFull (page : RmPageHandle) :
    Agrees context (linkIfFull page) (RmFileHandle.linkIfFull page.frame) id := by
  refine agrees_fileHdr.bind fun hdr => (agrees_read page).bind fun x => ?_
  dsimp only [id]
  split
  · exact agrees_fileHdr.bind fun _ => (agrees_pageNo page).bind fun _ =>
      (agrees_write page _).bind fun _ => (agrees_setFileHdr _).bind fun _ => agrees_writeFileHdr
  · exact .pure () id

/-- A program that changes nothing can be left out. -/
theorem Agrees.skip {x : RmProgram α} (hx : ∀ s, ∃ a, alone context x s = (.ok a, s)) {γ δ : Type}
    {k : α → RmProgram γ} {m : RmM δ} {g : γ → δ} (hk : ∀ a, Agrees context (k a) m g) :
    Agrees context (x >>= k) m g := by
  intro s
  obtain ⟨a, ha⟩ := hx s
  rw [hk a s, alone_bind, ContextCall.bind_ok ha]

/-- A lock that is granted changes nothing here. -/
theorem lock_granted (h : ∀ rid, context.grants rid = true) (exclusive : Bool) (rid : Rid)
    (s : RmFileHandle) : ∃ a, alone context (lock exclusive rid) s = (.ok a, s) := by
  have hlock : (!exclusive || context.grants rid) = true := by rw [h, Bool.or_true]
  refine ⟨(), ?_⟩
  show alone context (if (!exclusive || context.grants rid) = true then _ else _) s = _
  rw [if_pos hlock]
  rfl

section Granted

variable (h : ∀ rid, context.grants rid = true)
include h

/-- `insert_record` as a program and as a member function. -/
theorem agrees_insertRecord (buf : List UInt8) (lsn : Lsn) :
    Agrees context (insertRecord buf lsn) (RmFileHandle.insertRecord buf lsn) id :=
  agrees_createPageHandle.bind fun page => agrees_fileHdr.bind fun _ => (agrees_read page).bind fun _ =>
    .skip (fun _ => ⟨_, rfl⟩) fun _ => .skip (lock_granted h true _) fun _ =>
      (agrees_write page _).bind fun _ => (agrees_unlinkIfFull page).bind fun _ =>
        (agrees_pageNo page).bind fun _ => (agrees_write page _).bind fun _ =>
          (agrees_unpinPage _ true).bind fun _ => .pure _ id

/-- `delete_record` as a program and as a member function. -/
theorem agrees_deleteRecord (rid : Rid) (lsn : Lsn) :
    Agrees context (deleteRecord rid lsn) (RmFileHandle.deleteRecord rid lsn) id :=
  .skip (lock_granted h true rid) fun _ => (agrees_fetchPageHandle rid.pageNo).bind fun page =>
    (agrees_linkIfFull page).bind fun _ => (agrees_write page _).bind fun _ =>
      (agrees_write page _).bind fun _ => (agrees_pageNo page).bind fun _ => agrees_unpinPage _ true

/-- `update_record` as a program and as a member function. -/
theorem agrees_updateRecord (rid : Rid) (buf : List UInt8) (lsn : Lsn) :
    Agrees context (updateRecord rid buf lsn) (RmFileHandle.updateRecord rid buf lsn) id :=
  .skip (lock_granted h true rid) fun _ => (agrees_fetchPageHandle rid.pageNo).bind fun page =>
    agrees_fileHdr.bind fun _ => (agrees_write page _).bind fun _ =>
      (agrees_unpinPage rid.pageNo true).bind fun _ => agrees_write page _

/-- `get_record` as a program and as a member function. -/
theorem agrees_getRecord (rid : Rid) :
    Agrees context (getRecord rid) (RmFileHandle.getRecord rid) id :=
  .skip (lock_granted h false rid) fun _ => (agrees_fetchPageHandle rid.pageNo).bind fun page =>
    agrees_fileHdr.bind fun _ => (agrees_read page).bind fun _ =>
      (agrees_unpinPage rid.pageNo true).bind fun _ => .pure _ id

/-- **The operations without other threads**, if the locks are granted, are those of `RmFileHandle`. -/
theorem operations_agree :
    (∀ buf lsn, Agrees context (insertRecord buf lsn) (RmFileHandle.insertRecord buf lsn) id) ∧
    (∀ rid lsn, Agrees context (deleteRecord rid lsn) (RmFileHandle.deleteRecord rid lsn) id) ∧
    (∀ rid buf lsn, Agrees context (updateRecord rid buf lsn) (RmFileHandle.updateRecord rid buf lsn) id) ∧
    ∀ rid, Agrees context (getRecord rid) (RmFileHandle.getRecord rid) id :=
  ⟨agrees_insertRecord h, agrees_deleteRecord h, agrees_updateRecord h, agrees_getRecord h⟩

end Granted

/-- A delete whose locks are granted. -/
theorem operations_agree_delete :
    Agrees ⟨fun _ => true, 0⟩ (deleteRecord ⟨1, 0⟩ 0) (RmFileHandle.deleteRecord ⟨1, 0⟩ 0) id :=
  (operations_agree fun _ => rfl).2.1 ⟨1, 0⟩ 0

end Alone

end RmProgram

end Rmdb
