import Rmdb.Record.RmFileHandle

namespace Rmdb

/-!
# The context of a change (`RmFileHandle::insert_record`, `delete_record`, `update_record`)

The three operations with their last parameter: they ask `context->lock_mgr_` for the record lock, and
stamp the page if the context is not null.  Recovery and the tests pass a null context.

* `ContextCall.insertRecord` and its siblings, in programs that can also end at a null context;
* `insertRecord_granted`, … — with a context that grants its locks they are the operations of
  `RmFileHandle`;
* `nullContext_iff` — a null context makes no difference just to an insert that throws before it has a
  page to put the record in.
-/

/-- How an operation with a context can end, other than by returning. -/
inductive ContextError where
  | rm (e : RmError)
  /-- A member of `*context` is used, and there is none. -/
  | nullContext
  /-- The lock manager throws `TransactionAbortException`. -/
  | abort
  deriving DecidableEq, Repr

/-- `class Context`, as far as the record layer uses it: the lock manager and the transaction. -/
structure RmContext where
  /-- What `lock_exclusive_on_record` answers. -/
  grants : Rid → Bool
  /-- `txn_->get_prev_lsn()`. -/
  prevLsn : Lsn

/-- The programs of the record layer that have a context. -/
abbrev ContextM := ExceptT ContextError (StateM RmFileHandle)

namespace ContextCall

/-- A program that does not use the context. -/
def lift {α : Type} (m : RmM α) : ContextM α := fun s => ((m s).1.mapError .rm, (m s).2)

/-- `context->lock_mgr_->lock_exclusive_on_record(context->txn_, rid, fd_)`. -/
def lockExclusive (context : Option RmContext) (rid : Rid) : ContextM Unit :=
  match context with
  | none => throw .nullContext
  | some c => if c.grants rid then pure () else throw .abort

/-- `if (context != nullptr) page->set_page_lsn(context->txn_->get_prev_lsn())`. -/
def stamp (context : Option RmContext) (f : FrameId) : ContextM Unit :=
  match context with
  | none => pure ()
  | some c => lift (RmFileHandle.modifyFrame f (·.setPageLsn c.prevLsn))

/-- `RmFileHandle::insert_record(buf, context)`. -/
def insertRecord (buf : List UInt8) (context : Option RmContext) : ContextM Rid := do
  let f ← lift RmFileHandle.createPageHandle
  let hdr ← lift RmFileHandle.getFileHdr
  let x ← lift (RmFileHandle.readFrame f)
  let slot := Bitmap.nextBit false x hdr.numRecordsPerPage (-1)
  let pageNo ← lift (RmFileHandle.framePageNo f)
  lockExclusive context ⟨pageNo, slot⟩
  lift (RmFileHandle.modifyFrame f fun x => PageData.insertInto hdr x slot buf)
  lift (RmFileHandle.unlinkIfFull f)
  let pageNo ← lift (RmFileHandle.framePageNo f)
  stamp context f
  lift (RmFileHandle.unpin pageNo true)
  return ⟨pageNo, slot⟩

/-- `RmFileHandle::delete_record`. -/
def deleteRecord (rid : Rid) (context : Option RmContext) : ContextM Unit := do
  lockExclusive context rid
  let f ← lift (RmFileHandle.fetchPageHandle rid.pageNo)
  lift (RmFileHandle.linkIfFull f)
  lift (RmFileHandle.modifyFrame f (PageData.deleteFrom · rid.slotNo.toNat))
  stamp context f
  let pageNo ← lift (RmFileHandle.framePageNo f)
  lift (RmFileHandle.unpin pageNo true)

/-- `RmFileHandle::update_record`. -/
def updateRecord (rid : Rid) (buf : List UInt8) (context : Option RmContext) : ContextM Unit := do
  lockExclusive context rid
  let f ← lift (RmFileHandle.fetchPageHandle rid.pageNo)
  let hdr ← lift RmFileHandle.getFileHdr
  lift (RmFileHandle.modifyFrame f fun x => PageData.setSlot hdr x rid.slotNo.toNat buf)
  lift (RmFileHandle.unpin rid.pageNo true)
  stamp context f

/-! ### With locks that are granted -/

section Bind

variable {α β : Type} {s s' : RmFileHandle}

/-- A program that ends ends what comes after it. -/
theorem bind_error {m : ContextM α} {e : ContextError} (h : m s = (.error e, s')) (k : α → ContextM β) :
    (m >>= k) s = (.error e, s') := by
  show ExceptT.bindCont k (m s).1 (m s).2 = _
  rw [h]
  rfl

/-- A program that returns goes on with its result. -/
theorem bind_ok {m : ContextM α} {a : α} (h : m s = (.ok a, s')) (k : α → ContextM β) :
    (m >>= k) s = k a s' := by
  show ExceptT.bindCont k (m s).1 (m s).2 = _
  rw [h]
  rfl

/-- A first part that fails. -/
theorem lift_bind_error {m : RmM α} {e : RmError} (h : m s = (.error e, s')) (k : α → ContextM β) :
    (lift m >>= k) s = (.error (.rm e), s') := by
  apply bind_error
  unfold lift
  rw [h]
  rfl

/-- A first part that succeeds. -/
theorem lift_bind_ok {m : RmM α} {a : α} (h : m s = (.ok a, s')) (k : α → ContextM β) :
    (lift m >>= k) s = k a s' := by
  show ExceptT.bindCont k (lift m s).1 (lift m s).2 = _
  unfold lift
  rw [h]
  rfl

end Bind

/-- The member functions under a context, part by part. -/
theorem lift_bind {α β : Type} (m : RmM α) (k : α → RmM β) :
    lift (m >>= k) = lift m >>= fun a => lift (k a) := by
  funext s
  rcases hm : m s with ⟨e | a, s'⟩
  · rw [lift_bind_error hm]
    unfold lift
    rw [RmM.bind_error hm]
    rfl
  · rw [lift_bind_ok hm]
    unfold lift
    rw [RmM.bind_ok hm]

/-- A result. -/
theorem lift_pure {α : Type} (a : α) : lift (pure a) = pure a := rfl

/-- A lock that is granted. -/
@[simp] theorem lockExclusive_granted {c : RmContext} {rid : Rid} (h : c.grants rid = true) :
    lockExclusive (some c) rid = pure () := by
  simp [lockExclusive, h]

section Granted

variable {c : RmContext}

/-- The operation of `RmFileHandle`, if the locks are granted. -/
theorem insertRecord_granted (h : ∀ rid, c.grants rid = true) (buf : List UInt8) :
    insertRecord buf (some c) = lift (RmFileHandle.insertRecord buf c.prevLsn) := by
  have hread : ∀ {α : Type} (f : FrameId) (k : ContextM α),
      (lift (RmFileHandle.framePageNo f) >>= fun _ => k) = k := fun _ _ => rfl
  unfold insertRecord RmFileHandle.insertRecord stamp
  simp only [lift_bind, lift_pure, lockExclusive_granted (h _), pure_bind, hread]

/-- With its locks `delete_record` does what it does alone. -/
theorem deleteRecord_granted (h : ∀ rid, c.grants rid = true) (rid : Rid) :
    deleteRecord rid (some c) = lift (RmFileHandle.deleteRecord rid c.prevLsn) := by
  unfold deleteRecord RmFileHandle.deleteRecord stamp
  simp only [lift_bind, lockExclusive_granted (h _), pure_bind]

/-- So does `update_record`. -/
theorem updateRecord_granted (h : ∀ rid, c.grants rid = true) (rid : Rid) (buf : List UInt8) :
    updateRecord rid buf (some c) = lift (RmFileHandle.updateRecord rid buf c.prevLsn) := by
  unfold updateRecord RmFileHandle.updateRecord stamp
  simp only [lift_bind, lockExclusive_granted (h _), pure_bind]

end Granted

/-! ### With a null context -/

/-- Two states of a record file that differ at most in the page LSNs. -/
structure SameFile (s s' : RmFileHandle) : Prop where
  fd : s'.fd = s.fd
  fileHdr : s'.fileHdr = s.fileHdr
  frames : ∀ f, (s'.pool.pages f).id = (s.pool.pages f).id ∧
    (s'.pool.pages f).data.setPageLsn 0 = (s.pool.pages f).data.setPageLsn 0 ∧
    (s'.pool.pages f).isDirty = (s.pool.pages f).isDirty ∧
    (s'.pool.pages f).pinCount = (s.pool.pages f).pinCount
  table : s'.pool.pageTable = s.pool.pageTable
  free : s'.pool.freeList = s.pool.freeList
  replacer : s'.pool.replacer = s.pool.replacer
  disk : s'.pool.disk = s.pool.disk

theorem SameFile.refl (s : RmFileHandle) : SameFile s s :=
  ⟨rfl, rfl, fun _ => ⟨rfl, rfl, rfl, rfl⟩, rfl, rfl, rfl, rfl⟩

/-- **A null context will do**: it is not used, and the operation ends and changes the file as it does
    with any context that grants its locks. -/
def NullContextOk {α : Type} (op : Option RmContext → ContextM α) (s : RmFileHandle) : Prop :=
  (op none s).1 ≠ .error .nullContext ∧
  ∀ c : RmContext, (∀ rid, c.grants rid = true) →
    (op none s).1 = (op (some c) s).1 ∧ SameFile (op none s).2 (op (some c) s).2

/-- The page for the new record cannot be had. -/
def NoPageForRecord (s : RmFileHandle) : Prop := ∃ e, (RmFileHandle.createPageHandle s).1 = .error e

section Null

variable {s s' : RmFileHandle}

/-- An insert that has a page goes on to use the context. -/
theorem insertRecord_null {f : FrameId} (h : RmFileHandle.createPageHandle s = (.ok f, s'))
    (buf : List UInt8) : insertRecord buf none s = (.error .nullContext, s') := by
  unfold insertRecord
  rw [lift_bind_ok h]
  rfl

/-- A delete and an update use it at once. -/
theorem deleteRecord_null (rid : Rid) : deleteRecord rid none s = (.error .nullContext, s) := rfl

/-- Without a context `update_record` fails before it does anything. -/
theorem updateRecord_null (rid : Rid) (buf : List UInt8) :
    updateRecord rid buf none s = (.error .nullContext, s) := rfl

end Null

/-! ### Recovery -/

/-- A change that `redo` or `undo` makes. -/
inductive RmChange where
  | insert (buf : List UInt8)
  | delete (rid : Rid)
  | update (rid : Rid) (buf : List UInt8)

/-- The change with a null context. -/
def RmChange.recover : RmChange → ContextM Unit
  | .insert buf => do
    let _ ← insertRecord buf none
  | .delete rid => deleteRecord rid none
  | .update rid buf => updateRecord rid buf none

/-- No change is made: the first one ends the recovery, at the null context or because an insert gets no
    page. -/
theorem recover_changes (cs : List RmChange) (hne : cs ≠ []) (s : RmFileHandle) :
    ∃ e, (cs.forM RmChange.recover s).1 = .error e := by
  cases cs with
  | nil => exact absurd rfl hne
  | cons c cs =>
    have hfirst : ∃ e s', c.recover s = (.error e, s') := by
      cases c with
      | delete rid => exact ⟨.nullContext, s, rfl⟩
      | update rid buf => exact ⟨.nullContext, s, rfl⟩
      | insert buf =>
        rcases hp : RmFileHandle.createPageHandle s with ⟨e | f, s'⟩
        · exact ⟨.rm e, s', bind_error (lift_bind_error hp _) _⟩
        · exact ⟨.nullContext, s', bind_error (insertRecord_null hp buf) _⟩
    obtain ⟨e, s', he⟩ := hfirst
    have hall : (c :: cs).forM RmChange.recover s = (.error e, s') := bind_error he _
    exact ⟨e, by rw [hall]⟩

end ContextCall

open ContextCall

/-- **When a null context will do.**  In every state of the file: for an insert exactly if the page for
    the record cannot be had, which it finds out before it uses the context; for a delete or an update
    never. -/
theorem nullContext_iff (s : RmFileHandle) :
    (∀ buf, NullContextOk (insertRecord buf) s ↔ NoPageForRecord s) ∧
    (∀ rid, ¬ NullContextOk (deleteRecord rid) s) ∧
    ∀ rid buf, ¬ NullContextOk (updateRecord rid buf) s := by
  refine ⟨fun buf => ⟨fun h => ?_, ?_⟩, fun rid h => h.1 rfl, fun rid buf h => h.1 rfl⟩
  · rcases hp : RmFileHandle.createPageHandle s with ⟨e | f, s'⟩
    · exact ⟨e, by rw [hp]⟩
    · exact absurd (by rw [insertRecord_null hp]) h.1
  · rintro ⟨e, he⟩
    rcases hp : RmFileHandle.createPageHandle s with ⟨e' | f, s'⟩
    · -- the exception comes before the lock, with any context
      have hend : ∀ context, insertRecord buf context s = (.error (.rm e'), s') :=
        fun context => lift_bind_error hp _
      refine ⟨by rw [hend]; simp, fun c _ => ?_⟩
      rw [hend, hend]
      exact ⟨rfl, .refl s'⟩
    · rw [hp] at he
      cases he

/-- A file of a header page, open as 3. -/
def headerDisk : DiskManager where
  files path := if path = "t" then some ⟨pageSize, (RmFileHdr.create 4).bytes⟩ else none
  descriptors := [(3, "t")]
  path2fd path := if path = "t" then some 3 else none
  fd2path fd := if fd = 3 then some "t" else none
  fd2pageno _ := 1

/-- A record file with a pool of two frames. -/
def emptyRecordFile : RmFileHandle where
  fd := 3
  fileHdr := RmFileHdr.create 4
  pool := .new 2 (fun _ => 0) headerDisk

/-- **An insert of a record with a null context** ends at it. -/
theorem insert_with_null_context :
    (insertRecord [1, 2, 3, 4] none emptyRecordFile).1 = .error .nullContext ∧
      ¬ ∀ s buf, NullContextOk (insertRecord buf) s := by
  have hnull : (insertRecord [1, 2, 3, 4] none emptyRecordFile).1 = .error .nullContext := rfl
  exact ⟨hnull, fun hall => (hall emptyRecordFile [1, 2, 3, 4]).1 hnull⟩

end Rmdb
