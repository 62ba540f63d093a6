import Rmdb.Record.FileInvariant
import Rmdb.Record.RecordPins

namespace Rmdb

open Lib DiskManager

/-!
# A record file as its pages

The buffer pool gives each page its last bytes, whichever frame they are in.  Seen so, a record file is
its header, its pages and the number of the next page, and the operations are their programs on these.

* `RmProgram.onPages` — a program on the pages;
* `onPages_insertRecord`, `onPages_deleteRecord`, … — what the operations do to them;
* `rmPages` — a file and its operations, in any order.
-/

/-- The header and the pages of a record file; `nextPage` is `fd2pageno`. -/
structure RmPages where
  fd : Int
  hdr : RmFileHdr
  page : Int → PageData
  nextPage : Int

namespace RmProgram

/-- What the pages answer.  A lock is granted, a page that the file has is had, and a page whose offset
    overflows cannot be written. -/
def pagesAnswer : (c : RmCmd) → RmPages → c.Answer × RmPages
  | .lock _ _, s => (true, s)
  | .fetchPage n, s => (if 0 ≤ n ∧ n < s.nextPage then .ok (some 0) else .error .unixError, s)
  | .newPage, s => (.ok (some (0, ⟨s.fd, s.nextPage⟩)),
      { s with page := Function.update s.page s.nextPage .zero, nextPage := s.nextPage + 1 })
  | .unpinPage _ _, s => (none, s)
  | .flushPage p, s => (if p.pageNo < maxPages then .ok true else .error .unixError, s)
  | .read page, s => (s.page page.pageNo, s)
  | .write page g, s =>
    ((), { s with page := Function.update s.page page.pageNo (g (s.page page.pageNo)) })
  | .pageNo page, s => (page.pageNo, s)
  | .fileHdr, s => (s.hdr, s)
  | .setFileHdr g, s => ((), { s with hdr := g s.hdr })
  | .writeFileHdr, s => (.ok (), s)

/-- A program on the pages. -/
def onPages {α : Type} (x : RmProgram α) (s : RmPages) : Except ContextError α × RmPages :=
  x.run.exec pagesAnswer s

section OnPages

variable {α β : Type} {s s' : RmPages} {x : RmProgram α} {k : α → RmProgram β}

/-- The parts of a sequence, one after the other. -/
theorem onPages_bind : onPages (x >>= k) s = match onPages x s with
    | (.ok a, s') => onPages (k a) s'
    | (.error e, s') => (.error e, s') := by
  refine (Program.exec_bindE (I := rmInterface) (x := x) (k := k) pagesAnswer s).trans ?_
  unfold onPages
  split
  · rename_i h
    rw [h]
  · rename_i h
    rw [h]

/-- The first part succeeds. -/
theorem onPages_bind_ok {a : α} (h : onPages x s = (.ok a, s')) :
    onPages (x >>= k) s = onPages (k a) s' := by
  rw [onPages_bind, h]

/-- The first part fails. -/
theorem onPages_bind_error {e : ContextError} (h : onPages x s = (.error e, s')) :
    onPages (x >>= k) s = (.error e, s') := by
  rw [onPages_bind, h]

/-- A result without an exchange. -/
@[simp] theorem onPages_pure (a : α) : onPages (pure a) s = (.ok a, s) := rfl

/-- An error without an exchange. -/
@[simp] theorem onPages_throw (e : ContextError) : onPages (throw e : RmProgram α) s = (.error e, s) := rfl

/-- The pages grant every lock. -/
theorem onPages_lock (exclusive : Bool) (rid : Rid) : onPages (lock exclusive rid) s = (.ok (), s) := rfl

/-- A page that exists can be had. -/
theorem onPages_fetchPageHandle {n : Int} (h0 : 0 ≤ n) (h1 : n < s.nextPage) :
    onPages (fetchPageHandle n) s = (.ok ⟨0, n⟩, s) := by
  have hfetch : onPages (fetchPage n) s = (.ok (some 0), s) := by
    show onPages (orThrow (if 0 ≤ n ∧ n < s.nextPage then _ else _)) s = _
    rw [if_pos ⟨h0, h1⟩]
    rfl
  have hne : n ≠ invalidPageId := by
    simp only [invalidPageId]
    omega
  unfold fetchPageHandle
  rw [if_neg hne, onPages_bind_ok hfetch]
  rfl

/-! ### The operations -/

/-- A full page gives the head of the free list to its successor. -/
theorem onPages_unlinkIfFull (n : Int) : onPages (unlinkIfFull ⟨0, n⟩) s =
    (.ok (), if (s.page n).numRecords = s.hdr.numRecordsPerPage then
      { s with hdr := { s.hdr with firstFreePageNo := (s.page n).nextFreePageNo } } else s) := by
  show onPages (if (s.page n).numRecords = s.hdr.numRecordsPerPage then _ else _) s = _
  split
  · rfl
  · rfl

/-- A full page becomes the head of the free list. -/
theorem onPages_linkIfFull (n : Int) : onPages (linkIfFull ⟨0, n⟩) s =
    (.ok (), if (s.page n).numRecords = s.hdr.numRecordsPerPage then
      { s with
        hdr := { s.hdr with firstFreePageNo := n }
        page := Function.update s.page n ((s.page n).setNextFreePageNo s.hdr.firstFreePageNo) }
      else s) := by
  show onPages (if (s.page n).numRecords = s.hdr.numRecordsPerPage then _ else _) s = _
  split
  · rfl
  · rfl

/-- **`create_page_handle`** without a free page. -/
theorem onPages_createNewPageHandle (hroom : s.nextPage < maxPages) :
    onPages createNewPageHandle s = (.ok ⟨0, s.nextPage⟩,
      { s with
        hdr := { s.hdr with numPages := s.hdr.numPages + 1, firstFreePageNo := s.nextPage }
        page := Function.update s.page s.nextPage (PageData.initPage s.hdr .zero)
        nextPage := s.nextPage + 1 }) := by
  let s₁ : RmPages := { s with
    page := Function.update s.page s.nextPage (PageData.initPage s.hdr .zero)
    nextPage := s.nextPage + 1 }
  have hnew : onPages newPage s = (.ok (some (0, ⟨s.fd, s.nextPage⟩)),
      { s with page := Function.update s.page s.nextPage .zero, nextPage := s.nextPage + 1 }) := rfl
  have hflush : onPages (flushPage ⟨s.fd, s.nextPage⟩) s₁ = (.ok true, s₁) := by
    show onPages (orThrow (if s.nextPage < maxPages then _ else _)) s₁ = _
    rw [if_pos hroom]
    rfl
  have hpage : Function.update (Function.update s.page s.nextPage .zero) s.nextPage
      (PageData.initPage s.hdr (Function.update s.page s.nextPage .zero s.nextPage)) = s₁.page := by
    rw [Function.update_self, Function.update_idem]
  unfold createNewPageHandle
  rw [onPages_bind_ok hnew]
  show onPages (flushPage ⟨s.fd, s.nextPage⟩ >>= _) { s with
    page := Function.update (Function.update s.page s.nextPage .zero) s.nextPage
      (PageData.initPage s.hdr (Function.update s.page s.nextPage .zero s.nextPage))
    nextPage := s.nextPage + 1 } = _
  rw [hpage]
  exact onPages_bind_ok hflush

/-- Where the offset of the new page overflows, it cannot be flushed. -/
theorem onPages_createNewPageHandle_error (hroom : ¬ s.nextPage < maxPages) :
    ∃ s', onPages createNewPageHandle s = (.error (.rm (.disk .unixError)), s') := by
  have hflush : ∀ s₁, onPages (flushPage ⟨s.fd, s.nextPage⟩) s₁ = (.error (.rm (.disk .unixError)), s₁) := by
    intro s₁
    show onPages (orThrow (if s.nextPage < maxPages then _ else _)) s₁ = _
    rw [if_neg hroom]
    rfl
  refine ⟨{ s with
    page := Function.update (Function.update s.page s.nextPage .zero) s.nextPage
      (PageData.initPage s.hdr (Function.update s.page s.nextPage .zero s.nextPage))
    nextPage := s.nextPage + 1 }, ?_⟩
  show onPages (flushPage ⟨s.fd, s.nextPage⟩ >>= _) _ = _
  exact onPages_bind_error (hflush _)

/-- **`insert_record(buf, context)`** once it has its page. -/
theorem onPages_insertRecord {n : Int} (hcreate : onPages createPageHandle s = (.ok ⟨0, n⟩, s'))
    (buf : List UInt8) (lsn : Lsn) :
    onPages (insertRecord buf lsn) s =
      (let slot := freeSlot s'.hdr (s'.page n)
       let x := PageData.insertInto s'.hdr (s'.page n) slot buf
       (.ok ⟨n, slot⟩, { s' with
          hdr := if x.numRecords = s'.hdr.numRecordsPerPage then
            { s'.hdr with firstFreePageNo := x.nextFreePageNo } else s'.hdr
          page := Function.update s'.page n (x.setPageLsn lsn) })) := by
  unfold insertRecord
  rw [onPages_bind_ok hcreate]
  generalize hslot : freeSlot s'.hdr (s'.page n) = slot
  generalize hx : PageData.insertInto s'.hdr (s'.page n) slot buf = x
  have hunlink := onPages_unlinkIfFull (s := { s' with page := Function.update s'.page n x }) n
  simp only [Function.update_self] at hunlink
  show onPages (unlinkIfFull ⟨0, n⟩ >>= _) { s' with
    page := Function.update s'.page n
      (PageData.insertInto s'.hdr (s'.page n) (freeSlot s'.hdr (s'.page n)) buf) } = _
  rw [hslot, hx, onPages_bind_ok hunlink]
  by_cases hfull : x.numRecords = s'.hdr.numRecordsPerPage
  · rw [if_pos hfull]
    show (Except.ok (⟨n, freeSlot s'.hdr (s'.page n)⟩ : Rid),
      RmPages.mk _ _ (Function.update (Function.update _ _ _) _ _) _) = _
    simp [pagesAnswer, hslot, hx, hfull]
  · rw [if_neg hfull]
    show (Except.ok (⟨n, freeSlot s'.hdr (s'.page n)⟩ : Rid),
      RmPages.mk _ _ (Function.update (Function.update _ _ _) _ _) _) = _
    simp [pagesAnswer, hslot, hx, hfull]

/-- **`delete_record`.** -/
theorem onPages_deleteRecord {rid : Rid} (h0 : 0 ≤ rid.pageNo) (h1 : rid.pageNo < s.nextPage) (lsn : Lsn) :
    onPages (deleteRecord rid lsn) s = (.ok (), { s with
      hdr := if (s.page rid.pageNo).numRecords = s.hdr.numRecordsPerPage then
        { s.hdr with firstFreePageNo := rid.pageNo } else s.hdr
      page := Function.update s.page rid.pageNo
        ((PageData.deleteFrom (linked s.hdr (s.page rid.pageNo)) rid.slotNo.toNat).setPageLsn lsn) }) := by
  unfold deleteRecord linked
  rw [onPages_bind_ok (onPages_lock _ _), onPages_bind_ok (onPages_fetchPageHandle h0 h1),
    onPages_bind_ok (onPages_linkIfFull _)]
  by_cases hfull : (s.page rid.pageNo).numRecords = s.hdr.numRecordsPerPage
  · simp only [if_pos hfull]
    refine Prod.ext rfl ?_
    show RmPages.mk _ _ (Function.update (Function.update (Function.update _ _ _) _ _) _ _) _ = _
    simp [pagesAnswer]
  · simp only [if_neg hfull]
    refine Prod.ext rfl ?_
    show RmPages.mk _ _ (Function.update (Function.update _ _ _) _ _) _ = _
    simp [pagesAnswer]

/-- **`update_record`.** -/
theorem onPages_updateRecord {rid : Rid} (h0 : 0 ≤ rid.pageNo) (h1 : rid.pageNo < s.nextPage)
    (buf : List UInt8) (lsn : Lsn) :
    onPages (updateRecord rid buf lsn) s = (.ok (), { s with
      page := Function.update s.page rid.pageNo
        ((PageData.setSlot s.hdr (s.page rid.pageNo) rid.slotNo.toNat buf).setPageLsn lsn) }) := by
  unfold updateRecord
  refine (onPages_bind_ok (onPages_lock _ _)).trans
    ((onPages_bind_ok (onPages_fetchPageHandle h0 h1)).trans (Prod.ext rfl ?_))
  show RmPages.mk _ _ (Function.update (Function.update _ _ _) _ _) _ = _
  simp [pagesAnswer]

/-- The changes `insert_record` makes to a page when it is told the slot. -/
def placeInto (h : RmFileHdr) (x : PageData) (slot : Nat) (buf : List UInt8) : PageData :=
  PageData.setSlot h (if Bitmap.isSet x slot = true then x else
    (Bitmap.set x slot).setNumRecords ((Bitmap.set x slot).numRecords + 1)) slot buf

/-- `is_record` reads the bit of the slot. -/
theorem onPages_isRecord {rid : Rid} (h0 : 0 ≤ rid.pageNo) (h1 : rid.pageNo < s.nextPage) :
    onPages (isRecord rid) s = (.ok (Bitmap.isSet (s.page rid.pageNo) rid.slotNo.toNat), s) := by
  unfold isRecord
  rw [onPages_bind_ok (onPages_fetchPageHandle h0 h1)]
  rfl

/-- **`insert_record(rid, buf)`.** -/
theorem onPages_insertRecordAt {rid : Rid} (h0 : 0 ≤ rid.pageNo) (h1 : rid.pageNo < s.nextPage)
    (buf : List UInt8) : onPages (insertRecordAt rid buf) s = (.ok (), { s with
      page := Function.update s.page rid.pageNo
        (placeInto s.hdr (s.page rid.pageNo) rid.slotNo.toNat buf) }) := by
  refine ((onPages_bind_ok (onPages_fetchPageHandle h0 h1)).trans
    (onPages_bind_ok (onPages_isRecord h0 h1))).trans ?_
  cases hbit : Bitmap.isSet (s.page rid.pageNo) rid.slotNo.toNat with
  | true =>
    refine Prod.ext rfl ?_
    show RmPages.mk _ _ (Function.update _ _ _) _ = _
    simp [pagesAnswer, placeInto, hbit]
  | false =>
    refine Prod.ext rfl ?_
    show RmPages.mk _ _ (Function.update (Function.update _ _ _) _ _) _ = _
    simp [pagesAnswer, placeInto, hbit]

/-! ### Programs that only read -/

/-- The program leaves the pages as they are. -/
def ReadsOnly (x : RmProgram α) : Prop := ∀ s, (onPages x s).2 = s

/-- A result changes nothing. -/
theorem ReadsOnly.pure (a : α) : ReadsOnly (Pure.pure a) := fun _ => rfl

/-- An error changes nothing. -/
theorem ReadsOnly.throw (e : ContextError) : ReadsOnly (throw e : RmProgram α) := fun _ => rfl

/-- A command that only reads. -/
theorem ReadsOnly.ask (c : RmCmd) (hc : ∀ s, (pagesAnswer c s).2 = s) : ReadsOnly (RmProgram.ask c) := hc

/-- Parts that only read. -/
theorem ReadsOnly.bind (hx : ReadsOnly x) (hk : ∀ a, ReadsOnly (k a)) : ReadsOnly (x >>= k) := by
  intro s
  have hs := hx s
  rcases hx' : onPages x s with ⟨e | a, s'⟩
  · rw [hx'] at hs
    rw [onPages_bind_error hx']
    exact hs
  · rw [hx'] at hs
    rw [onPages_bind_ok hx', hk a s']
    exact hs

/-- `fetch_page_handle` changes no page. -/
theorem readsOnly_fetchPageHandle (n : Int) : ReadsOnly (fetchPageHandle n) := by
  have horThrow : ∀ o : Except DiskError (Option FrameId), ReadsOnly (orThrow o) := fun o => by
    cases o with
    | error e => exact .throw _
    | ok a => exact .pure _
  unfold fetchPageHandle
  split
  · exact .throw _
  · refine .bind (.bind (.ask _ fun _ => rfl) horThrow) fun o => ?_
    cases o with
    | none => exact .throw _
    | some f => exact .pure _

/-- `is_record` changes no page. -/
theorem readsOnly_isRecord (rid : Rid) : ReadsOnly (isRecord rid) :=
  .bind (readsOnly_fetchPageHandle _) fun _ => .bind (.ask _ fun _ => rfl) fun _ => .pure _

/-- `get_record` changes no page. -/
theorem readsOnly_getRecord (rid : Rid) : ReadsOnly (getRecord rid) :=
  .bind (fun _ => rfl) fun _ => .bind (readsOnly_fetchPageHandle _) fun _ => .bind (.ask _ fun _ => rfl)
    fun _ => .bind (.ask _ fun _ => rfl) fun _ => .bind (.ask _ fun _ => rfl) fun _ => .pure _

/-- `get_page_lsn` changes no page. -/
theorem readsOnly_getPageLsn (n : Int) : ReadsOnly (getPageLsn n) :=
  .bind (readsOnly_fetchPageHandle _) fun _ => .bind (.ask _ fun _ => rfl) fun _ =>
    .bind (.ask _ fun _ => rfl) fun _ => .pure _

/-- `RmScan::next` changes no page. -/
theorem readsOnly_scanNext (rounds : Nat) (rid : Rid) : ReadsOnly (scanNext rounds rid) := by
  induction rounds generalizing rid with
  | zero => exact .pure _
  | succ rounds ih =>
    refine .bind (.ask _ fun _ => rfl) fun hdr => ?_
    split
    · refine .bind (readsOnly_fetchPageHandle _) fun _ => .bind (.ask _ fun _ => rfl) fun x =>
        .bind (.ask _ fun _ => rfl) fun _ => .bind (.ask _ fun _ => rfl) fun _ => ?_
      split
      · exact .pure _
      · exact ih _
    · exact .pure _

end OnPages

end RmProgram

end Rmdb
