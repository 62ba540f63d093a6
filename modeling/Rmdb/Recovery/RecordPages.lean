import Rmdb.Lib.Replay
import Rmdb.Record.PageLayout
import Rmdb.Recovery.LogBytes

namespace Rmdb

open Lib

/-!
# The record file, page by page (`record/rm_file_handle.cpp`)

The operations of `RmFileHandle` as the recovery calls them.  The recovery deletes records that are not
there, so the count in the header of a page is kept beside the bitmap, and the chain of free pages is that of
the headers.  A slot has a value if its bit is set.

* `RecordPage`, `RecordFile` — a page, and a file of them;
* `insertRecord`, `deleteRecord`, `updateRecord` — the operations; without a context the page keeps its LSN;
* `nextRid` — where the next insert goes.

The record locks are not part of the model.
-/

/-- A page of a record file: the LSN, `RmPageHdr`, the bitmap and the slots. -/
structure RecordPage where
  lsn : Lsn
  nextFreePageNo : Int
  /-- `num_records`, and the records of the slots whose bit is set. -/
  slots : Slots Int (List UInt8)

/-- A page after `create_new_page_handle`. -/
def RecordPage.new : RecordPage := ⟨0, rmNoPage, ⟨0, fun _ => none⟩⟩

/-- An operation on the slots; `lsn` is the `prev_lsn` of the transaction, if there is a context. -/
def RecordPage.change (x : RecordPage) (op : SlotOp Int (List UInt8)) (lsn : Option Lsn) : RecordPage :=
  { x with lsn := lsn.getD x.lsn, slots := op.apply x.slots }

/-- An open record file: `file_hdr_`, and the pages as the buffer pool has them. -/
structure RecordFile where
  numRecordsPerPage : Nat
  numPages : Int
  firstFreePageNo : Int
  page : Int → Option RecordPage
  numPages_pos : 1 ≤ numPages
  page_isSome : ∀ n, (page n).isSome = true ↔ 1 ≤ n ∧ n < numPages

namespace RecordFile

/-- **The file as a map.** -/
def records (f : RecordFile) (rid : Rid) : Option (List UInt8) :=
  (f.page rid.pageNo).bind (·.slots.value rid.slotNo)

/-- Change a page. -/
def modifyPage (f : RecordFile) (n : Int) (g : RecordPage → RecordPage) : RecordFile :=
  { f with
    page := Function.update f.page n ((f.page n).map g)
    page_isSome := fun k => by
      rw [← f.page_isSome k]
      by_cases hk : k = n
      · subst hk
        rw [Function.update_self, Option.isSome_map]
      · rw [Function.update_of_ne hk] }

/-- `fetch_page_handle`. -/
def fetchPageHandle (f : RecordFile) (n : Int) : Except RecoveryError RecordPage :=
  match f.page n with
  | some x => .ok x
  | none => .error .page

/-- `create_new_page_handle`. -/
def createNewPageHandle (f : RecordFile) : RecordFile :=
  { f with
    numPages := f.numPages + 1
    firstFreePageNo := f.numPages
    page := Function.update f.page f.numPages (some .new)
    numPages_pos := by have hpos := f.numPages_pos; omega
    page_isSome := fun k => by
      have hpos := f.numPages_pos
      by_cases hk : k = f.numPages
      · subst hk
        rw [Function.update_self]
        exact iff_of_true rfl ⟨hpos, by omega⟩
      · rw [Function.update_of_ne hk, f.page_isSome k]
        omega }

/-- `create_page_handle`: the page and the file. -/
def createPageHandle (f : RecordFile) : Int × RecordFile :=
  if f.firstFreePageNo = rmNoPage then (f.numPages, f.createNewPageHandle) else (f.firstFreePageNo, f)

/-- `Bitmap::next_bit(false, …, -1)`. -/
def freeSlot (f : RecordFile) (x : RecordPage) : Nat :=
  ((List.range f.numRecordsPerPage).find? fun s : Nat => (x.slots.value s).isNone).getD f.numRecordsPerPage

/-- The last lines of `insert_record`: page `x`, which is full now, leaves the chain of free pages. -/
def unlinkIfFull (f : RecordFile) (x : RecordPage) : RecordFile :=
  if x.slots.count + 1 = (f.numRecordsPerPage : Int) then { f with firstFreePageNo := x.nextFreePageNo } else f

/-- `insert_record`; without a free slot it would write behind the slots. -/
def insertRecord (f : RecordFile) (buf : List UInt8) (lsn : Option Lsn) :
    Except RecoveryError (Rid × RecordFile) :=
  let p := f.createPageHandle
  (p.2.fetchPageHandle p.1).bind fun x =>
    let slot := p.2.freeSlot x
    if slot < p.2.numRecordsPerPage then
      .ok (⟨p.1, slot⟩, (p.2.modifyPage p.1 (·.change (.insert slot buf) lsn)).unlinkIfFull x)
    else .error .outside

/-- `release_page_handle`. -/
def releasePageHandle (f : RecordFile) (n : Int) : RecordFile :=
  { f.modifyPage n ({ · with nextFreePageNo := f.firstFreePageNo }) with firstFreePageNo := n }

/-- The first lines of `delete_record`: page `n`, which was full, joins the chain of free pages. -/
def linkIfFull (f : RecordFile) (n : Int) (x : RecordPage) : RecordFile :=
  if x.slots.count = (f.numRecordsPerPage : Int) then f.releasePageHandle n else f

/-- `delete_record`. -/
def deleteRecord (f : RecordFile) (rid : Rid) (lsn : Option Lsn) : Except RecoveryError RecordFile :=
  (f.fetchPageHandle rid.pageNo).map fun x =>
    (f.linkIfFull rid.pageNo x).modifyPage rid.pageNo (·.change (.remove rid.slotNo) lsn)

/-- `update_record`: the bytes of a slot whose bit is not set are those of no record. -/
def updateRecord (f : RecordFile) (rid : Rid) (buf : List UInt8) (lsn : Option Lsn) :
    Except RecoveryError RecordFile :=
  (f.fetchPageHandle rid.pageNo).map fun _ =>
    f.modifyPage rid.pageNo (·.change (.overwrite rid.slotNo buf) lsn)

/-- Where the next insert goes, if there is a free slot in its page. -/
def nextRid (f : RecordFile) : Option Rid :=
  let p := f.createPageHandle
  (p.2.page p.1).bind fun x =>
    if p.2.freeSlot x < p.2.numRecordsPerPage then some ⟨p.1, p.2.freeSlot x⟩ else none

/-! ### What the operations do -/

/-- The LSN and the records of a page. -/
def content (f : RecordFile) (n : Int) : Option (Lsn × Slots Int (List UInt8)) :=
  (f.page n).map fun x => (x.lsn, x.slots)

variable {f f' : RecordFile} {rid r : Rid} {n : Int} {x : RecordPage} {buf : List UInt8} {lsn : Option Lsn}
  {op : SlotOp Int (List UInt8)}

theorem isSome_content (f : RecordFile) (n : Int) : (f.content n).isSome = (f.page n).isSome :=
  Option.isSome_map

theorem records_eq (f : RecordFile) (rid : Rid) :
    f.records rid = (f.content rid.pageNo).bind fun c => c.2.value rid.slotNo := by
  unfold records content
  rw [Option.bind_map]
  rfl

/-- **An operation on a record**: this slot of its page, and no other page. -/
structure Changes (f f' : RecordFile) (rid : Rid) (op : SlotOp Int (List UInt8)) (lsn : Option Lsn) :
    Prop where
  key : op.key = rid.slotNo
  exists_page : (f.page rid.pageNo).isSome = true
  content : ∀ n, f'.content n = if n = rid.pageNo then
    (f.content n).map (fun c => (lsn.getD c.1, op.apply c.2)) else f.content n

/-- The pages stay. -/
theorem Changes.isSome_page (h : Changes f f' rid op lsn) (n : Int) :
    (f'.page n).isSome = (f.page n).isSome := by
  rw [← isSome_content, ← isSome_content, h.content]
  split
  · exact Option.isSome_map
  · rfl

theorem rid_eq {r rid : Rid} (hpage : r.pageNo = rid.pageNo) (hslot : r.slotNo = rid.slotNo) : r = rid := by
  cases r
  cases rid
  cases hpage
  cases hslot
  rfl

/-- **The records** after an operation on one of them. -/
theorem Changes.records (h : Changes f f' rid op lsn) :
    f'.records = Function.update f.records rid (op.result (f.records rid)) := by
  have hkey := h.key
  obtain ⟨x, hx⟩ := Option.isSome_iff_exists.mp ((f.isSome_content _).trans h.exists_page)
  have hrecords : ∀ r : Rid, r.pageNo = rid.pageNo → f.records r = x.2.value r.slotNo := by
    intro r hr
    rw [records_eq, hr, hx]
    rfl
  funext r
  rw [records_eq, h.content]
  by_cases hp : r.pageNo = rid.pageNo
  · rw [if_pos hp, hp, hx]
    show (op.apply x.2).value r.slotNo = _
    rw [SlotOp.apply_value, hkey]
    by_cases hr : r = rid
    · rw [hr, Function.update_self, Function.update_self, hrecords rid rfl]
    · have hslot : r.slotNo ≠ rid.slotNo := fun hs => hr (rid_eq hp hs)
      rw [Function.update_of_ne hslot, Function.update_of_ne hr, hrecords r hp]
  · have hr : r ≠ rid := fun heq => hp (congrArg Rid.pageNo heq)
    rw [if_neg hp, Function.update_of_ne hr, records_eq]

theorem modifyPage_content (f : RecordFile) {g : RecordPage → RecordPage}
    {h : Lsn × Slots Int (List UInt8) → Lsn × Slots Int (List UInt8)}
    (hg : ∀ x, ((g x).lsn, (g x).slots) = h (x.lsn, x.slots)) (n k : Int) :
    (f.modifyPage n g).content k = if k = n then (f.content k).map h else f.content k := by
  unfold content modifyPage
  dsimp only
  by_cases hk : k = n
  · subst hk
    rw [Function.update_self, if_pos rfl, Option.map_map, Option.map_map]
    exact congrArg (Option.map · _) (funext hg)
  · rw [Function.update_of_ne hk, if_neg hk]

/-- A page that changes. -/
theorem changes_modifyPage (f : RecordFile) (rid : Rid) (op : SlotOp Int (List UInt8))
    (hkey : op.key = rid.slotNo) (hpage : (f.page rid.pageNo).isSome = true) (lsn : Option Lsn) :
    Changes f (f.modifyPage rid.pageNo (·.change op lsn)) rid op lsn :=
  ⟨hkey, hpage, modifyPage_content f (fun _ => rfl) rid.pageNo⟩

theorem linkIfFull_content (f : RecordFile) (n : Int) (x : RecordPage) (k : Int) :
    (f.linkIfFull n x).content k = f.content k := by
  unfold linkIfFull
  split
  · have hlink := modifyPage_content f (g := ({ · with nextFreePageNo := f.firstFreePageNo }))
      (h := fun c => c) (fun _ => rfl) n k
    rw [Option.map_id', ite_self] at hlink
    exact hlink
  · rfl

/-- **`delete_record`** of a record of a page of the file. -/
theorem deleteRecord_changes (hpage : (f.page rid.pageNo).isSome = true) (lsn : Option Lsn) :
    ∃ f', f.deleteRecord rid lsn = .ok f' ∧ Changes f f' rid (.remove rid.slotNo) lsn := by
  obtain ⟨x, hx⟩ := Option.isSome_iff_exists.mp hpage
  unfold deleteRecord fetchPageHandle
  rw [hx]
  refine ⟨_, rfl, rfl, hpage, fun n => ?_⟩
  rw [modifyPage_content _ (h := fun c => (lsn.getD c.1, (SlotOp.remove rid.slotNo).apply c.2))
    (fun _ => rfl), linkIfFull_content]

/-- **`update_record`** of a record of a page of the file. -/
theorem updateRecord_changes (hpage : (f.page rid.pageNo).isSome = true) (buf : List UInt8)
    (lsn : Option Lsn) : ∃ f', f.updateRecord rid buf lsn = .ok f' ∧
      Changes f f' rid (.overwrite rid.slotNo buf) lsn := by
  obtain ⟨x, hx⟩ := Option.isSome_iff_exists.mp hpage
  unfold updateRecord fetchPageHandle
  rw [hx]
  exact ⟨_, rfl, changes_modifyPage _ _ _ rfl hpage lsn⟩

/-- A new page has no records. -/
theorem createPageHandle_records (f : RecordFile) : f.createPageHandle.2.records = f.records := by
  unfold createPageHandle
  split
  · funext rid
    show (Function.update f.page f.numPages (some .new) rid.pageNo).bind _ = _
    unfold records
    by_cases hp : rid.pageNo = f.numPages
    · have hnone : f.page f.numPages = none := by
        by_contra hsome
        rw [← ne_eq, ← Option.isSome_iff_ne_none, f.page_isSome] at hsome
        omega
      rw [hp, Function.update_self, hnone]
      rfl
    · rw [Function.update_of_ne hp]
  · rfl

/-- The slot that is found is free. -/
theorem freeSlot_none (h : f.freeSlot x < f.numRecordsPerPage) : x.slots.value (f.freeSlot x) = none := by
  unfold freeSlot at h ⊢
  cases hf : (List.range f.numRecordsPerPage).find? fun s : Nat => (x.slots.value s).isNone with
  | some s => simpa using List.find?_some hf
  | none =>
    rw [hf] at h
    exact absurd h (Nat.lt_irrefl _)

/-- **`insert_record`** goes where there is a free slot. -/
theorem insertRecord_changes (h : f.nextRid = some rid) (buf : List UInt8) (lsn : Option Lsn) :
    ∃ f', f.insertRecord buf lsn = .ok (rid, f') ∧
      Changes f.createPageHandle.2 f' rid (.insert rid.slotNo buf) lsn ∧ f.records rid = none := by
  unfold nextRid at h
  unfold insertRecord fetchPageHandle
  rw [← f.createPageHandle_records]
  generalize f.createPageHandle = p at h ⊢
  obtain ⟨x, hx, h⟩ := Option.bind_eq_some_iff.mp h
  dsimp only
  rw [hx]
  dsimp only [Except.bind]
  split at h
  · next hroom =>
    obtain rfl := Option.some.inj h
    rw [if_pos hroom]
    have hpage : (p.2.page p.1).isSome = true := by rw [hx, Option.isSome_some]
    obtain ⟨hkey, hsome, hcontent⟩ := changes_modifyPage p.2 ⟨p.1, p.2.freeSlot x⟩
      (.insert (p.2.freeSlot x) buf) rfl hpage lsn
    refine ⟨_, rfl, ⟨hkey, hsome, fun n => ?_⟩, ?_⟩
    · rw [← hcontent n]
      unfold unlinkIfFull
      split <;> rfl
    · unfold records
      rw [hx]
      exact freeSlot_none hroom
  · cases h

theorem nextRid_of_insertRecord {buf : List UInt8} {lsn : Option Lsn}
    (h : f.insertRecord buf lsn = .ok (rid, f')) : f.nextRid = some rid := by
  unfold insertRecord fetchPageHandle at h
  unfold nextRid
  generalize f.createPageHandle = p at h ⊢
  dsimp only at h ⊢
  cases hx : p.2.page p.1 with
  | none =>
    rw [hx] at h
    cases h
  | some x =>
    rw [hx] at h
    dsimp only [Except.bind, Option.bind_some] at h ⊢
    split at h
    · next hroom =>
      rw [if_pos hroom]
      cases h
      rfl
    · cases h

/-- Within the pages that there are, an insert makes no new page. -/
theorem createPageHandle_of_page (h : f.nextRid = some rid) (hpage : (f.page rid.pageNo).isSome = true) :
    f.createPageHandle.2 = f := by
  unfold nextRid at h
  obtain ⟨x, -, h⟩ := Option.bind_eq_some_iff.mp h
  split at h
  · obtain rfl := Option.some.inj h
    unfold createPageHandle at hpage ⊢
    split
    · next hnew =>
      rw [if_pos hnew, f.page_isSome] at hpage
      exact absurd hpage.2 (Int.lt_irrefl _)
    · rfl
  · cases h

end RecordFile

end Rmdb
