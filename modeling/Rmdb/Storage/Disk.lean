import Mathlib.Logic.Function.Basic
import Rmdb.Defs

namespace Rmdb

/-!
# The disk below the buffer pool

The pool calls three operations of `DiskManager`.  `DiskOps` is their interface, so that the pool can
be read, and proved about, over any disk:

* `DiskOps.Lawful` — on the pages the disk can address a write succeeds and is read back, and no
  write disturbs another page;
* `IdealDisk` — a disk on which everything succeeds.
-/

/-- The `PAGE_SIZE` bytes of a page. -/
abbrev PageData := Fin pageSize → UInt8

/-- The bytes after `reset_memory`. -/
def PageData.zero : PageData := fun _ => 0

/-- A byte of the page by its offset. -/
def PageData.get (x : PageData) (i : Nat) : UInt8 :=
  if h : i < pageSize then x ⟨i, h⟩ else 0

/-- What a disk operation can throw. -/
inductive DiskError where
  | unixError
  | internalError (msg : String)
  | fileExistsError (path : String)
  | fileNotFoundError (path : String)
  | fileNotClosedError (path : String)
  | fileNotOpenError (fd : Int)
  deriving DecidableEq, Repr

/-- The operations of `DiskManager` the pool calls.  `readPage` is given the frame's buffer, which a
    failing read may leave half overwritten. -/
structure DiskOps (δ : Type) where
  writePage : δ → PageId → PageData → Except DiskError Unit × δ
  readPage : δ → PageId → PageData → Except DiskError Unit × PageData
  allocatePage : δ → Int → Int × δ
  /-- The pages that have a place of their own on the disk. -/
  Addressable : δ → PageId → Prop

namespace DiskOps

variable {δ : Type}

/-- A read of `p` succeeds and returns `data`. -/
def Holds (D : DiskOps δ) (d : δ) (p : PageId) (data : PageData) : Prop :=
  D.Addressable d p ∧ ∀ buf, D.readPage d p buf = (.ok (), data)

/-- The laws of a disk that works. -/
structure Lawful (D : DiskOps δ) : Prop where
  write_ok : ∀ d p x, D.Addressable d p → (D.writePage d p x).1 = .ok ()
  write_holds : ∀ d p x, D.Addressable d p → D.Holds (D.writePage d p x).2 p x
  write_frame : ∀ d p x q y, D.Addressable d p → q ≠ p → D.Holds d q y →
    D.Holds (D.writePage d p x).2 q y
  write_keeps : ∀ d p x q, D.Addressable d p → D.Addressable d q →
    D.Addressable (D.writePage d p x).2 q
  allocate_holds : ∀ d fd q y, D.Holds d q y → D.Holds (D.allocatePage d fd).2 q y
  allocate_keeps : ∀ d fd q, D.Addressable d q → D.Addressable (D.allocatePage d fd).2 q

end DiskOps

/-- A disk on which every operation succeeds. -/
structure IdealDisk where
  contents : PageId → PageData
  fd2pageno : Int → Int

/-- The operations of the ideal disk; `allocate_page` counts up. -/
def IdealDisk.ops : DiskOps IdealDisk where
  writePage d p x := (.ok (), { d with contents := Function.update d.contents p x })
  readPage d p _ := (.ok (), d.contents p)
  allocatePage d fd :=
    (d.fd2pageno fd, { d with fd2pageno := Function.update d.fd2pageno fd (d.fd2pageno fd + 1) })
  Addressable _ _ := True

theorem IdealDisk.holds_iff (d : IdealDisk) (p : PageId) (x : PageData) :
    IdealDisk.ops.Holds d p x ↔ d.contents p = x := by
  constructor
  · intro h
    exact congrArg Prod.snd (h.2 x)
  · rintro rfl
    exact ⟨trivial, fun _ => rfl⟩

theorem IdealDisk.lawful : IdealDisk.ops.Lawful where
  write_ok _ _ _ _ := rfl
  write_holds d p x _ := by
    rw [IdealDisk.holds_iff]
    exact Function.update_self p x d.contents
  write_frame d p x q y _ hne h := by
    rw [IdealDisk.holds_iff] at h ⊢
    rw [← h]
    exact Function.update_of_ne hne x d.contents
  write_keeps _ _ _ _ _ _ := trivial
  allocate_holds d fd q y h := by
    rw [IdealDisk.holds_iff] at h ⊢
    exact h
  allocate_keeps _ _ _ _ := trivial

end Rmdb
