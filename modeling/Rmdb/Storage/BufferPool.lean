import Mathlib.Data.List.AList
import Rmdb.Storage.Disk
import Rmdb.Storage.LruReplacer

namespace Rmdb

/-!
# The buffer pool (`storage/buffer_pool_manager.{h,cpp}`, `storage/page.h`)

Every operation of `BufferPoolManager`, over an arbitrary disk: `DiskOps` names the three operations
of `DiskManager` that the pool calls.  A call that throws returns the exception together with the
state it leaves behind, so the failure paths of the source are all here.

`page_table_` is an unordered map.  Its entries are kept in some order (`AList.entries`), which the
loops over the map follow; a system that uses the pool may reorder them at any time.
-/

/-- `class Page`: a frame of the pool. -/
structure Page where
  id : PageId
  data : PageData
  isDirty : Bool
  pinCount : Int

/-- `class BufferPoolManager`. -/
structure BufferPoolManager (δ : Type) where
  poolSize : Nat
  pages : FrameId → Page
  pageTable : AList (fun _ : PageId => FrameId)
  freeList : List FrameId
  disk : δ
  replacer : LRUReplacer

namespace BufferPoolManager

variable {δ : Type}

/-- The constructor.  `garbage` is what `new Page[pool_size_]` leaves in the descriptors of the
    frames: the constructor of `PageId` sets `page_no` only. -/
def new (poolSize : Nat) (garbage : FrameId → Int) (disk : δ) : BufferPoolManager δ where
  poolSize := poolSize
  pages f := { id := ⟨garbage f, invalidPageId⟩, data := .zero, isDirty := false, pinCount := 0 }
  pageTable := ∅
  freeList := List.range poolSize
  disk := disk
  replacer := .new

/-- Store a frame. -/
def setPage (b : BufferPoolManager δ) (f : FrameId) (page : Page) : BufferPoolManager δ :=
  { b with pages := Function.update b.pages f page }

/-- `page_table_.emplace`: an entry that exists is left alone. -/
def emplace (t : AList (fun _ : PageId => FrameId)) (p : PageId) (f : FrameId) :
    AList (fun _ : PageId => FrameId) :=
  match t.lookup p with
  | some _ => t
  | none => t.insert p f

/-- `BufferPoolManager::find_victim_page`. -/
def findVictimPage (b : BufferPoolManager δ) : Option FrameId × BufferPoolManager δ :=
  match b.freeList with
  | f :: rest => (some f, { b with freeList := rest })
  | [] =>
    let r := b.replacer.victim
    (r.1, { b with replacer := r.2 })

/-- `replacer_->pin(f); pages_[f].pin_count_ += 1`. -/
def pinFrame (b : BufferPoolManager δ) (f : FrameId) : BufferPoolManager δ :=
  { b with replacer := b.replacer.pin f }.setPage f
    { b.pages f with pinCount := (b.pages f).pinCount + 1 }

section Ops

variable (D : DiskOps δ)

/-- `BufferPoolManager::update_page` on the frame `f`; `newFrame` is `none` for
    `INVALID_FRAME_ID`. -/
def updatePage (b : BufferPoolManager δ) (f : FrameId) (newPageId : PageId)
    (newFrame : Option FrameId) : Except DiskError Unit × BufferPoolManager δ :=
  let page := b.pages f
  let w := if page.isDirty then D.writePage b.disk page.id page.data else (.ok (), b.disk)
  match w.1 with
  | .error e => (.error e, { b with disk := w.2 })
  | .ok _ =>
    let page := { page with isDirty := false }
    let table := b.pageTable.erase page.id
    match newFrame with
    | none => (.ok (), { b with disk := w.2, pageTable := table }.setPage f page)
    | some g =>
      (.ok (), { b with disk := w.2, pageTable := emplace table newPageId g }.setPage f
        { page with id := newPageId })

/-- `BufferPoolManager::fetch_page`; `none` for `nullptr`. -/
def fetchPage (b : BufferPoolManager δ) (p : PageId) :
    Except DiskError (Option FrameId) × BufferPoolManager δ :=
  match b.pageTable.lookup p with
  | some f => (.ok (some f), b.pinFrame f)
  | none =>
    match b.findVictimPage with
    | (none, b) => (.ok none, b)
    | (some f, b) =>
      match b.updatePage D f p (some f) with
      | (.error e, b) => (.error e, b)
      | (.ok _, b) =>
        let r := D.readPage b.disk p (b.pages f).data
        let b := b.setPage f { b.pages f with data := r.2 }
        match r.1 with
        | .error e => (.error e, b)
        | .ok _ => (.ok (some f), b.pinFrame f)

/-- `BufferPoolManager::unpin_page`. -/
def unpinPage (b : BufferPoolManager δ) (p : PageId) (isDirty : Bool) :
    Bool × BufferPoolManager δ :=
  match b.pageTable.lookup p with
  | none => (false, b)
  | some f =>
    let page := b.pages f
    if page.pinCount = 0 then (false, b)
    else
      let count := page.pinCount - 1
      let replacer := if count = 0 then b.replacer.unpin f else b.replacer
      (true, { b with replacer := replacer }.setPage f
        { page with pinCount := count, isDirty := page.isDirty || isDirty })

/-- `BufferPoolManager::flush_page`. -/
def flushPage (b : BufferPoolManager δ) (p : PageId) :
    Except DiskError Bool × BufferPoolManager δ :=
  match b.pageTable.lookup p with
  | none => (.ok false, b)
  | some f =>
    let w := D.writePage b.disk p (b.pages f).data
    match w.1 with
    | .error e => (.error e, { b with disk := w.2 })
    | .ok _ => (.ok true, { b with disk := w.2 }.setPage f { b.pages f with isDirty := false })

/-- `BufferPoolManager::new_page`: the frame and the id of the new page. -/
def newPage (b : BufferPoolManager δ) (fd : Int) :
    Except DiskError (Option (FrameId × PageId)) × BufferPoolManager δ :=
  match b.findVictimPage with
  | (none, b) => (.ok none, b)
  | (some f, b) =>
    let a := D.allocatePage b.disk fd
    let p : PageId := ⟨fd, a.1⟩
    match { b with disk := a.2 }.updatePage D f p (some f) with
    | (.error e, b) => (.error e, b)
    | (.ok _, b) =>
      (.ok (some (f, p)), (b.setPage f { b.pages f with data := .zero }).pinFrame f)

/-- `BufferPoolManager::delete_page`. -/
def deletePage (b : BufferPoolManager δ) (p : PageId) :
    Except DiskError Bool × BufferPoolManager δ :=
  match b.pageTable.lookup p with
  | none => (.ok true, b)
  | some f =>
    if (b.pages f).pinCount ≠ 0 then (.ok false, b)
    else
      match b.updatePage D f p none with
      | (.error e, b) => (.error e, b)
      | (.ok _, b) => (.ok true, { b with freeList := b.freeList ++ [f] })

/-- The second loop of `delete_all_page`. -/
def deleteFrames (b : BufferPoolManager δ) :
    List FrameId → Except DiskError Unit × BufferPoolManager δ
  | [] => (.ok (), b)
  | f :: rest =>
    match b.updatePage D f (b.pages f).id none with
    | (.error e, b) => (.error e, b)
    | (.ok _, b) => deleteFrames { b with freeList := b.freeList ++ [f] } rest

/-- `BufferPoolManager::delete_all_page`. -/
def deleteAllPage (b : BufferPoolManager δ) (fd : Int) :
    Except DiskError Bool × BufferPoolManager δ :=
  let targets := (b.pageTable.entries.filter (fun e => e.1.fd = fd)).map Sigma.snd
  if targets.any (fun f => (b.pages f).pinCount ≠ 0) then (.ok false, b)
  else
    match b.deleteFrames D targets with
    | (.error e, b) => (.error e, b)
    | (.ok _, b) => (.ok true, b)

/-- The loop of the two functions below: skip an entry, or write its frame back and mark it
    clean. -/
def flushEntries (skip : PageId → Page → Bool) (b : BufferPoolManager δ) :
    List (Σ _ : PageId, FrameId) → Except DiskError Unit × BufferPoolManager δ
  | [] => (.ok (), b)
  | ⟨p, f⟩ :: rest =>
    if skip p (b.pages f) then flushEntries skip b rest
    else
      let w := D.writePage b.disk p (b.pages f).data
      match w.1 with
      | .error e => (.error e, { b with disk := w.2 })
      | .ok _ =>
        flushEntries skip
          ({ b with disk := w.2 }.setPage f { b.pages f with isDirty := false }) rest

/-- `BufferPoolManager::flush_all_pages`: the pages of one file. -/
def flushAllPages (b : BufferPoolManager δ) (fd : Int) :
    Except DiskError Unit × BufferPoolManager δ :=
  flushEntries D (fun p _ => p.fd ≠ fd) b b.pageTable.entries

/-- `BufferPoolManager::flush_all_page`: the dirty pages of every file. -/
def flushAllPage (b : BufferPoolManager δ) : Except DiskError Unit × BufferPoolManager δ :=
  flushEntries D (fun _ page => !page.isDirty) b b.pageTable.entries

end Ops

end BufferPoolManager

end Rmdb
