import Mathlib.Logic.Function.Basic
import Rmdb.Lib.Transition
import Rmdb.Recovery.LogManager
import Rmdb.Storage.LruReplacer

namespace Rmdb

open Lib

/-!
# Tables, their cached pages and the log

`InsertExecutor`, `DeleteExecutor` and `UpdateExecutor` of any number of transactions, over the
pages of the table files, the frames of the buffer pool and the log file.  A thread may be
interrupted between any two calls of the pool and of the log, and whatever else runs may fetch,
unpin, flush or drop any page in between.

* `TablePage`, `TableHdr` — a page of a table file and its header page.  Each carries, beside the
  data, the numbers of the executor operations that have changed it (`effects`); the code has no
  such field;
* `TableStore` — the frames, the disk, the open headers, the log and the threads;
* `TableStore.runThread` — the next step of one thread;
* `tableStore` — the system.

A frame that the pool takes is any unpinned one: the replacer's choice is left open.  The loops of
`flush_all_pages` and `delete_all_page` are runs of `flush_page` and `delete_page`.  A lock request
is granted or throws.
-/

/-! ### The pages -/

/-- A page of a table file: its LSN, `RmPageHdr`, the bitmap and the slots. -/
structure TablePage where
  lsn : Lsn
  nextFreePageNo : Int
  numRecords : Int
  bitmap : Nat → Bool
  slots : Nat → List UInt8
  effects : List Nat

/-- The header page of a table file, `RmFileHdr`. -/
structure TableHdr where
  numPages : Int
  numRecordsPerPage : Nat
  firstFreePageNo : Int
  effects : List Nat

namespace TablePage

/-- The page after `reset_memory`. -/
def zero : TablePage where
  lsn := 0
  nextFreePageNo := 0
  numRecords := 0
  bitmap := fun _ => false
  slots := fun _ => []
  effects := []

/-- The page that operation `n` creates (`create_new_page_handle`). -/
def create (n : Nat) : TablePage :=
  { zero with nextFreePageNo := -1, effects := [n] }

/-- `Bitmap::next_bit(false, …, -1)`. -/
def nextFree (x : TablePage) (max : Nat) : Nat :=
  ((List.range max).find? fun i => !x.bitmap i).getD max

/-- `insert_record`: the copy, the bit and the count. -/
def insertInto (x : TablePage) (n slot : Nat) (rec : List UInt8) : TablePage :=
  { x with
    slots := Function.update x.slots slot rec
    bitmap := Function.update x.bitmap slot true
    numRecords := x.numRecords + 1
    effects := x.effects ++ [n] }

/-- `delete_record`: the count and the bit. -/
def deleteFrom (x : TablePage) (n slot : Nat) : TablePage :=
  { x with
    bitmap := Function.update x.bitmap slot false
    numRecords := x.numRecords - 1
    effects := x.effects ++ [n] }

/-- `update_record`: the copy. -/
def updateIn (x : TablePage) (n slot : Nat) (rec : List UInt8) : TablePage :=
  { x with slots := Function.update x.slots slot rec, effects := x.effects ++ [n] }

/-- `release_page_handle`: the page becomes the first free one. -/
def setNextFree (x : TablePage) (n : Nat) (next : Int) : TablePage :=
  { x with nextFreePageNo := next, effects := x.effects ++ [n] }

/-- `set_page_lsn`. -/
def setLsn (x : TablePage) (n : Nat) (lsn : Lsn) : TablePage :=
  { x with lsn := lsn, effects := x.effects ++ [n] }

end TablePage

/-! ### The threads -/

/-- What `DeleteExecutor` and `UpdateExecutor` do with each record. -/
inductive RecordChange where
  | delete
  /-- The set clauses, as a function of the old record. -/
  | update (set : List UInt8 → List UInt8)

/-- What is logged for a change. -/
def RecordChange.logged (c : RecordChange) (old : List UInt8) (rid : Rid) (tab : String) :
    LoggedChange :=
  match c with
  | .delete => .delete old rid tab
  | .update set => .update old (set old) rid tab

/-- Where a thread stands in `Next`.  `n` is the number of the operation. -/
inductive ExecutorPc where
  | idle
  /-- `insert_record` is about to get its page. -/
  | insertCreate (n : Nat) (rec : List UInt8)
  /-- The page is pinned in `f` and the slot is found. -/
  | insertChange (n : Nat) (rec : List UInt8) (f : FrameId) (slot : Nat)
  /-- The record is in the page; the page LSN and the unpin follow. -/
  | insertUnpin (n : Nat) (rec : List UInt8) (f : FrameId) (rid : Rid)
  /-- `insert_record` has returned; the log record follows. -/
  | insertLog (n : Nat) (rec : List UInt8) (f : FrameId) (rid : Rid)
  /-- In the loop over the records, before `get_record` of the first of them. -/
  | readFetch (c : RecordChange) (todo : List Rid)
  | readUnpin (c : RecordChange) (rid : Rid) (todo : List Rid) (f : FrameId)
  /-- The old record is read; the log record follows. -/
  | changeLog (c : RecordChange) (rid : Rid) (todo : List Rid) (old : List UInt8)
  /-- `delete_record` or `update_record` is about to fetch the page. -/
  | changeFetch (n : Nat) (c : RecordChange) (rid : Rid) (todo : List Rid) (old : List UInt8)
  | change (n : Nat) (c : RecordChange) (rid : Rid) (todo : List Rid) (old : List UInt8)
      (f : FrameId)
  | changeUnpin (n : Nat) (c : RecordChange) (rid : Rid) (todo : List Rid) (f : FrameId)
  /-- `update_record` sets the page LSN after the unpin. -/
  | changeLsn (n : Nat) (c : RecordChange) (todo : List Rid) (f : FrameId)

/-- A thread in an executor: its transaction, the table and the place in the code. -/
structure Executor where
  txnId : TxnId
  prevLsn : Lsn
  fd : Int
  tabName : String
  pc : ExecutorPc

/-! ### The store -/

/-- A frame of the pool. -/
structure TableFrame where
  id : PageId
  page : TablePage
  isDirty : Bool
  pinCount : Int

/-- The pool, the files, the log and the threads. -/
structure TableStore where
  frames : FrameId → TableFrame
  pageTable : PageId → Option FrameId
  /-- `fd2pageno_`. -/
  fd2pageno : Int → Int
  /-- The pages on the disk. -/
  disk : PageId → TablePage
  /-- `file_hdr_` of the open files. -/
  hdr : Int → TableHdr
  /-- The header pages on the disk. -/
  diskHdr : Int → TableHdr
  log : LogManager
  /-- The operations whose record is in the log, each with its record. -/
  logged : List (Nat × LogRecord)
  /-- The number of the next operation. -/
  nextOp : Nat
  threads : Nat → Executor

namespace TableStore

/-- Move thread `t`. -/
def goto (s : TableStore) (t : Nat) (pc : ExecutorPc) : TableStore :=
  { s with threads := Function.update s.threads t { s.threads t with pc := pc } }

/-- Change the page in a frame. -/
def modifyFrame (s : TableStore) (f : FrameId) (g : TablePage → TablePage) : TableStore :=
  { s with frames := Function.update s.frames f { s.frames f with page := g (s.frames f).page } }

/-- `disk_manager_->write_page(fd_, RM_FILE_HDR_PAGE, …)`. -/
def writeHdr (s : TableStore) (fd : Int) : TableStore :=
  { s with diskHdr := Function.update s.diskHdr fd (s.hdr fd) }

/-- Change `file_hdr_` by operation `n` and write it. -/
def updateHdr (s : TableStore) (fd : Int) (n : Nat) (g : TableHdr → TableHdr) : TableStore :=
  { s with
    hdr := Function.update s.hdr fd
      { g (s.hdr fd) with effects := (s.hdr fd).effects ++ [n] } }.writeHdr fd

/-! #### The pool -/

/-- Write the page in frame `f` to its place `p` on the disk; the frame is clean then. -/
def writeFrame (s : TableStore) (f : FrameId) (p : PageId) : TableStore :=
  { s with
    disk := Function.update s.disk p (s.frames f).page
    frames := Function.update s.frames f { s.frames f with isDirty := false } }

/-- `update_page`, up to the new mapping: a dirty page is written, the old mapping erased. -/
def dropFrame (s : TableStore) (f : FrameId) : TableStore :=
  let s := if (s.frames f).isDirty then s.writeFrame f (s.frames f).id else s
  { s with pageTable := Function.update s.pageTable (s.frames f).id none }

/-- `update_page` with a new page, and what is then read or reset; the frame is pinned. -/
def loadFrame (s : TableStore) (f : FrameId) (p : PageId) (page : TableStore → TablePage) :
    TableStore :=
  let s := s.dropFrame f
  { s with
    -- `emplace` keeps a mapping that exists
    pageTable := Function.update s.pageTable p (some ((s.pageTable p).getD f))
    frames := Function.update s.frames f
      { s.frames f with id := p, page := page s, pinCount := (s.frames f).pinCount + 1 } }

/-- `fetch_page`; `v` is the frame it takes if the page is not cached. -/
def fetchPage (s : TableStore) (p : PageId) (v : FrameId) : Option (FrameId × TableStore) :=
  match s.pageTable p with
  | some f =>
    some (f, { s with
      frames := Function.update s.frames f
        { s.frames f with pinCount := (s.frames f).pinCount + 1 } })
  | none =>
    if (s.frames v).pinCount = 0 then some (v, s.loadFrame v p fun s => s.disk p) else none

/-- `new_page`; `v` is the frame it takes. -/
def newPage (s : TableStore) (fd : Int) (v : FrameId) : Option (PageId × TableStore) :=
  if (s.frames v).pinCount = 0 then
    let p : PageId := ⟨fd, s.fd2pageno fd⟩
    some (p, { s with
      fd2pageno := Function.update s.fd2pageno fd (p.pageNo + 1) }.loadFrame v p fun _ => .zero)
  else none

/-- `unpin_page`. -/
def unpinPage (s : TableStore) (p : PageId) (isDirty : Bool) : TableStore :=
  match s.pageTable p with
  | none => s
  | some f =>
    if (s.frames f).pinCount = 0 then s
    else
      { s with
        frames := Function.update s.frames f
          { s.frames f with
            pinCount := (s.frames f).pinCount - 1
            isDirty := (s.frames f).isDirty || isDirty } }

/-- `flush_page`. -/
def flushPage (s : TableStore) (p : PageId) : TableStore :=
  match s.pageTable p with
  | none => s
  | some f => s.writeFrame f p

/-- `delete_page`. -/
def deletePage (s : TableStore) (p : PageId) : TableStore :=
  match s.pageTable p with
  | none => s
  | some f => if (s.frames f).pinCount = 0 then s.dropFrame f else s

/-! #### The executors -/

/-- `create_page_handle`: the first free page, or a new one. -/
def createPageHandle (s : TableStore) (fd : Int) (n : Nat) (v : FrameId) :
    Option (FrameId × TableStore) :=
  if (s.hdr fd).firstFreePageNo = -1 then
    match s.newPage fd v with
    | none => none
    | some (p, s) =>
      -- the new page and then the header are written to the disk
      some (v, ((s.modifyFrame v fun _ => .create n).flushPage p).updateHdr fd n fun h =>
        { h with numPages := h.numPages + 1, firstFreePageNo := p.pageNo })
  else s.fetchPage ⟨fd, (s.hdr fd).firstFreePageNo⟩ v

/-- The change of `insert_record`; a page that is full now leaves the chain of free pages. -/
def insertRecord (s : TableStore) (fd : Int) (n : Nat) (rec : List UInt8) (f : FrameId)
    (slot : Nat) : TableStore :=
  let s := s.modifyFrame f fun x => x.insertInto n slot rec
  if (s.frames f).page.numRecords = (s.hdr fd).numRecordsPerPage then
    s.updateHdr fd n fun h => { h with firstFreePageNo := (s.frames f).page.nextFreePageNo }
  else s

/-- The change of `delete_record`; a page that was full joins the chain of free pages. -/
def deleteRecord (s : TableStore) (fd : Int) (n : Nat) (rid : Rid) (f : FrameId) (lsn : Lsn) :
    TableStore :=
  let s :=
    if (s.frames f).page.numRecords = (s.hdr fd).numRecordsPerPage then
      (s.modifyFrame f fun x => x.setNextFree n (s.hdr fd).firstFreePageNo).updateHdr fd n
        fun h => { h with firstFreePageNo := (s.frames f).id.pageNo }
    else s
  s.modifyFrame f fun x => (x.deleteFrom n rid.slotNo.toNat).setLsn n lsn

/-- `add_log_to_buffer` of the record of operation `n`, and `set_prev_lsn`. -/
def appendLog (s : TableStore) (t n : Nat) (change : LoggedChange) : TableStore :=
  let th := s.threads t
  let record := LogRecord.new th.txnId th.prevLsn (.change change)
  let r := s.log.addLogToBuffer record
  { s with
    log := r.2
    logged := s.logged ++ [(n, { record with lsn := r.1 })]
    threads := Function.update s.threads t { th with prevLsn := r.1 } }

/-- The next step of thread `t`; `v` is the frame the pool takes if it needs one. -/
def runThread (s : TableStore) (t : Nat) (v : FrameId) : Option TableStore :=
  let th := s.threads t
  match th.pc with
  | .idle => none
  | .insertCreate n rec =>
    match s.createPageHandle th.fd n v with
    | none => none
    | some (f, s) =>
      let slot := (s.frames f).page.nextFree (s.hdr th.fd).numRecordsPerPage
      some (s.goto t (.insertChange n rec f slot))
  | .insertChange n rec f slot =>
    let rid : Rid := ⟨(s.frames f).id.pageNo, slot⟩
    some ((s.insertRecord th.fd n rec f slot).goto t (.insertUnpin n rec f rid))
  | .insertUnpin n rec f rid =>
    some (((s.modifyFrame f fun x => x.setLsn n th.prevLsn).unpinPage
      ⟨th.fd, rid.pageNo⟩ true).goto t (.insertLog n rec f rid))
  | .insertLog n rec _ rid =>
    some ((s.appendLog t n (.insert rec rid th.tabName)).goto t .idle)
  | .readFetch _ [] => some (s.goto t .idle)
  | .readFetch c (rid :: todo) =>
    match s.fetchPage ⟨th.fd, rid.pageNo⟩ v with
    | none => none
    | some (f, s) => some (s.goto t (.readUnpin c rid todo f))
  | .readUnpin c rid todo f =>
    let old := (s.frames f).page.slots rid.slotNo.toNat
    some ((s.unpinPage ⟨th.fd, rid.pageNo⟩ true).goto t (.changeLog c rid todo old))
  | .changeLog c rid todo old =>
    some ({ s.appendLog t s.nextOp (c.logged old rid th.tabName) with
      nextOp := s.nextOp + 1 }.goto t (.changeFetch s.nextOp c rid todo old))
  | .changeFetch n c rid todo old =>
    match s.fetchPage ⟨th.fd, rid.pageNo⟩ v with
    | none => none
    | some (f, s) => some (s.goto t (.change n c rid todo old f))
  | .change n .delete rid todo _ f =>
    some ((s.deleteRecord th.fd n rid f th.prevLsn).goto t (.changeUnpin n .delete rid todo f))
  | .change n (.update set) rid todo old f =>
    some ((s.modifyFrame f fun x => x.updateIn n rid.slotNo.toNat (set old)).goto t
      (.changeUnpin n (.update set) rid todo f))
  | .changeUnpin _ .delete _ todo f =>
    -- `delete_record` unpins the page by the id in its frame
    some ((s.unpinPage (s.frames f).id true).goto t (.readFetch .delete todo))
  | .changeUnpin n (.update set) rid todo f =>
    some ((s.unpinPage ⟨th.fd, rid.pageNo⟩ true).goto t (.changeLsn n (.update set) todo f))
  | .changeLsn n c todo f =>
    some ((s.modifyFrame f fun x => x.setLsn n th.prevLsn).goto t (.readFetch c todo))

/-- The calls that can throw: the locks, the type checks and the uniqueness checks.  None of them
    stands between a change of a page and its log record. -/
def throws : ExecutorPc → Bool
  | .insertChange .. | .readFetch .. | .changeLog .. | .changeFetch .. => true
  | _ => false

end TableStore

/-! ### The system -/

/-- A step of a thread, or of whatever else uses the pool. -/
inductive StoreAction where
  /-- A thread begins an `InsertExecutor`. -/
  | beginInsert (t : Nat) (txnId : TxnId) (prevLsn : Lsn) (fd : Int) (tab : String)
      (rec : List UInt8)
  /-- A thread begins a `DeleteExecutor` or an `UpdateExecutor`. -/
  | beginChange (t : Nat) (txnId : TxnId) (prevLsn : Lsn) (fd : Int) (tab : String)
      (c : RecordChange) (rids : List Rid)
  | run (t : Nat) (v : FrameId)
  | throw (t : Nat)
  | fetchPage (p : PageId) (v : FrameId)
  | newPage (fd : Int) (v : FrameId)
  | unpinPage (p : PageId) (isDirty : Bool)
  | flushPage (p : PageId)
  | deletePage (p : PageId)
  /-- The write of the header page by `close_file`. -/
  | writeHdr (fd : Int)
  /-- A change of a page that no executor makes. -/
  | otherChange (f : FrameId) (lsn : Lsn) (next num : Int) (bitmap : Nat → Bool)
      (slots : Nat → List UInt8)
  /-- A log record of no executor. -/
  | otherLog (r : LogRecord)

namespace TableStore

/-- One step, where it is possible. -/
def step (s : TableStore) : StoreAction → Option TableStore
  | .beginInsert t txnId prevLsn fd tab rec =>
    match (s.threads t).pc with
    | .idle => some { s with
        nextOp := s.nextOp + 1
        threads := Function.update s.threads t
          ⟨txnId, prevLsn, fd, tab, .insertCreate s.nextOp rec⟩ }
    | _ => none
  | .beginChange t txnId prevLsn fd tab c rids =>
    match (s.threads t).pc with
    | .idle => some { s with
        threads := Function.update s.threads t ⟨txnId, prevLsn, fd, tab, .readFetch c rids⟩ }
    | _ => none
  | .run t v => s.runThread t v
  | .throw t => if throws (s.threads t).pc then some (s.goto t .idle) else none
  | .fetchPage p v => (s.fetchPage p v).map Prod.snd
  | .newPage fd v => (s.newPage fd v).map Prod.snd
  | .unpinPage p isDirty => some (s.unpinPage p isDirty)
  | .flushPage p => some (s.flushPage p)
  | .deletePage p => some (s.deletePage p)
  | .writeHdr fd => some (s.writeHdr fd)
  | .otherChange f lsn next num bitmap slots =>
    some (s.modifyFrame f fun x => ⟨lsn, next, num, bitmap, slots, x.effects⟩)
  | .otherLog r => some { s with log := (s.log.addLogToBuffer r).2 }

/-- Nothing has happened yet: the files hold what is there, the pool is empty, the threads are
    idle. -/
def Initial (s : TableStore) : Prop :=
  (∀ f, (s.frames f).isDirty = false ∧ (s.frames f).pinCount = 0 ∧
      (s.frames f).page.effects = []) ∧
    (∀ p, s.pageTable p = none) ∧ (∀ p, (s.disk p).effects = []) ∧
    (∀ fd, (s.hdr fd).effects = [] ∧ (s.diskHdr fd).effects = []) ∧
    s.log = .new ∧ s.logged = [] ∧ ∀ t, (s.threads t).pc = .idle

end TableStore

/-- **The executors over the pool and the log.** -/
def tableStore : TransitionSystem TableStore StoreAction where
  init := TableStore.Initial
  step s a s' := s.step a = some s'

end Rmdb
