import Mathlib.Data.List.Lemmas
import Rmdb.Storage.Disk

namespace Rmdb

/-!
# The disk manager (`storage/disk_manager.{h,cpp}`)

`DiskManager` over a small model of the operating system: files are byte arrays, the process has a
table of open descriptors, and `open` hands out the lowest free one.

* `page_no * PAGE_SIZE` is computed in `int`, so it wraps at `2^31`; `lseek` refuses the negative
  offsets that result (`pageOffset`);
* `DiskManager.ops` — the operations the pool calls, on whole pages;
* `DiskManager.lawful` — they obey the laws of a disk on the pages below `2^19` of a file that is open
  under one descriptor only.
-/

/-- A file of the operating system. -/
structure FileData where
  size : Nat
  byte : Nat → UInt8

namespace FileData

/-- `write` at an offset.  What lies between the old end and the offset reads as zero. -/
def write (file : FileData) (pos n : Nat) (data : Nat → UInt8) : FileData where
  size := max file.size (pos + n)
  byte i :=
    if pos ≤ i ∧ i < pos + n then data (i - pos) else if i < file.size then file.byte i else 0

theorem byte_write_inside (file : FileData) (pos n : Nat) (data : Nat → UInt8) {i : Nat}
    (hi : i < n) : (file.write pos n data).byte (pos + i) = data i := by
  show (if pos ≤ pos + i ∧ pos + i < pos + n then data (pos + i - pos) else _) = data i
  rw [if_pos (by omega), Nat.add_sub_cancel_left]

theorem byte_write_outside (file : FileData) (pos n : Nat) (data : Nat → UInt8) {i : Nat}
    (hi : i < file.size) (hout : i < pos ∨ pos + n ≤ i) :
    (file.write pos n data).byte i = file.byte i := by
  show (if pos ≤ i ∧ i < pos + n then data (i - pos) else _) = file.byte i
  rw [if_neg (by omega), if_pos hi]

theorem size_le_write (file : FileData) (pos n : Nat) (data : Nat → UInt8) :
    file.size ≤ (file.write pos n data).size ∧ pos + n ≤ (file.write pos n data).size :=
  ⟨Nat.le_max_left _ _, Nat.le_max_right _ _⟩

end FileData

/-- `page_no * PAGE_SIZE` in `int` arithmetic. -/
def pageOffset (pageNo : Int) : Int := (pageNo * pageSize).bmod 4294967296

/-- The number of pages an `int` offset can reach. -/
def maxPages : Int := 524288

theorem pageOffset_eq {n : Int} (h0 : 0 ≤ n) (h1 : n < maxPages) :
    pageOffset n = n * pageSize := by
  unfold pageOffset
  rw [Int.bmod_eq_of_le] <;> simp only [maxPages, pageSize] at * <;> omega

/-- The first page out of reach. -/
theorem pageOffset_maxPages : pageOffset maxPages = -2147483648 := by decide

/-- `class DiskManager`, with the files and the descriptors of the process. -/
structure DiskManager where
  files : String → Option FileData
  descriptors : List (Int × String)
  path2fd : String → Option Int
  fd2path : Int → Option String
  fd2pageno : Int → Int

namespace DiskManager

/-- The file behind a descriptor. -/
def fileOf (d : DiskManager) (fd : Int) : Option (String × FileData) := do
  let path ← d.descriptors.lookup fd
  let file ← d.files path
  return (path, file)

/-- `DiskManager::write_page`. -/
def writePage (d : DiskManager) (fd pageNo : Int) (n : Nat) (data : Nat → UInt8) :
    Except DiskError Unit × DiskManager :=
  match d.fileOf fd with
  | none => (.error .unixError, d)
  | some (path, file) =>
    if pageOffset pageNo < 0 then (.error .unixError, d)
    else
      (.ok (), { d with
        files := Function.update d.files path
          (some (file.write (pageOffset pageNo).toNat n data)) })

/-- `DiskManager::read_page` into a buffer.  A read past the end of the file fills part of it. -/
def readPage (d : DiskManager) (fd pageNo : Int) (n : Nat) (buf : Nat → UInt8) :
    Except DiskError Unit × (Nat → UInt8) :=
  match d.fileOf fd with
  | none => (.error .unixError, buf)
  | some (_, file) =>
    if pageOffset pageNo < 0 then (.error .unixError, buf)
    else
      let pos := (pageOffset pageNo).toNat
      let buf' := fun i => if i < n ∧ pos + i < file.size then file.byte (pos + i) else buf i
      if pos + n ≤ file.size then (.ok (), buf')
      else (.error (.internalError "DiskManager::read_page Error"), buf')

/-- `DiskManager::allocate_page`. -/
def allocatePage (d : DiskManager) (fd : Int) : Int × DiskManager :=
  (d.fd2pageno fd, { d with fd2pageno := Function.update d.fd2pageno fd (d.fd2pageno fd + 1) })

/-- `DiskManager::set_fd2pageno`. -/
def setFd2pageno (d : DiskManager) (fd startPageNo : Int) : DiskManager :=
  { d with fd2pageno := Function.update d.fd2pageno fd startPageNo }

/-- `DiskManager::create_file`: the descriptor that creates the file is closed again. -/
def createFile (d : DiskManager) (path : String) : Except DiskError Unit × DiskManager :=
  match d.files path with
  | some _ => (.error (.fileExistsError path), d)
  | none =>
    (.ok (), { d with files := Function.update d.files path (some ⟨0, fun _ => 0⟩) })

/-- `DiskManager::destroy_file`. -/
def destroyFile (d : DiskManager) (path : String) : Except DiskError Unit × DiskManager :=
  match d.path2fd path with
  | some _ => (.error (.fileNotClosedError path), d)
  | none =>
    match d.files path with
    | none => (.error (.fileNotFoundError path), d)
    | some _ => (.ok (), { d with files := Function.update d.files path none })

/-- The lowest descriptor that is not in use. -/
def lowestFree (descriptors : List (Int × String)) : Option Int :=
  ((List.range (descriptors.length + 1)).map Int.ofNat).find? fun fd =>
    (descriptors.lookup fd).isNone

/-- `DiskManager::open_file`. -/
def openFile (d : DiskManager) (path : String) : Except DiskError Int × DiskManager :=
  match d.path2fd path with
  | some _ => (.error (.fileNotClosedError path), d)
  | none =>
    match d.files path with
    | none => (.error (.fileNotFoundError path), d)
    | some _ =>
      match lowestFree d.descriptors with
      | none => (.error .unixError, d)
      | some fd =>
        (.ok fd, { d with
          descriptors := (fd, path) :: d.descriptors
          path2fd := Function.update d.path2fd path (some fd)
          fd2path := Function.update d.fd2path fd (some path) })

/-- `DiskManager::close_file`. -/
def closeFile (d : DiskManager) (fd : Int) : Except DiskError Unit × DiskManager :=
  match d.fd2path fd with
  | none => (.error (.fileNotOpenError fd), d)
  | some path =>
    (.ok (), { d with
      descriptors := d.descriptors.filter (fun e => e.1 ≠ fd)
      path2fd := Function.update d.path2fd path none
      fd2path := Function.update d.fd2path fd none
      fd2pageno := Function.update d.fd2pageno fd 0 })

/-! ### Pages -/

/-- The pages whose place in the file is theirs alone: the file is open under one descriptor, and the
    offset does not wrap. -/
def Addressable (d : DiskManager) (p : PageId) : Prop :=
  ∃ path file, d.descriptors.lookup p.fd = some path ∧ d.files path = some file ∧
    (∀ fd, d.descriptors.lookup fd = some path → fd = p.fd) ∧ 0 ≤ p.pageNo ∧ p.pageNo < maxPages

/-- What the pool calls. -/
def ops : DiskOps DiskManager where
  writePage d p x := d.writePage p.fd p.pageNo pageSize x.get
  readPage d p buf :=
    let r := d.readPage p.fd p.pageNo pageSize buf.get
    (r.1, fun i => r.2 i)
  allocatePage := allocatePage
  Addressable := Addressable

section Lawful

variable {d : DiskManager} {p : PageId}

/-- The file of a page and the place of the page in it. -/
theorem fileOf_eq {fd : Int} {path : String} {file : FileData}
    (hd : d.descriptors.lookup fd = some path) (hf : d.files path = some file) :
    d.fileOf fd = some (path, file) := by
  simp [fileOf, hd, hf]

theorem writePage_eq {fd pageNo : Int} {path : String} {file : FileData}
    (hd : d.descriptors.lookup fd = some path) (hf : d.files path = some file) (h0 : 0 ≤ pageNo)
    (h1 : pageNo < maxPages) (n : Nat) (data : Nat → UInt8) :
    d.writePage fd pageNo n data = (.ok (), { d with
      files := Function.update d.files path
        (some (file.write (pageNo * pageSize).toNat n data)) }) := by
  unfold writePage
  rw [fileOf_eq hd hf]
  dsimp only
  rw [pageOffset_eq h0 h1, if_neg (by simp only [pageSize]; omega)]

/-- The first page out of reach cannot be written. -/
theorem writePage_maxPages (fd : Int) (n : Nat) (data : Nat → UInt8) :
    d.writePage fd maxPages n data = (.error .unixError, d) := by
  unfold writePage
  split
  · rfl
  · rw [if_pos (by rw [pageOffset_maxPages]; decide)]

theorem readPage_eq {fd pageNo : Int} {path : String} {file : FileData}
    (hd : d.descriptors.lookup fd = some path) (hf : d.files path = some file) (h0 : 0 ≤ pageNo)
    (h1 : pageNo < maxPages) (n : Nat) (hsize : (pageNo * pageSize).toNat + n ≤ file.size)
    (buf : Nat → UInt8) :
    d.readPage fd pageNo n buf = (.ok (), fun i =>
      if i < n then file.byte ((pageNo * pageSize).toNat + i) else buf i) := by
  unfold readPage
  rw [fileOf_eq hd hf]
  dsimp only
  rw [pageOffset_eq h0 h1, if_neg (by simp only [pageSize]; omega), if_pos hsize]
  refine Prod.ext rfl (funext fun i => ?_)
  dsimp only
  by_cases hi : i < n
  · rw [if_pos ⟨hi, by omega⟩, if_pos hi]
  · rw [if_neg (fun h => hi h.1), if_neg hi]

/-- A page is on the disk when its bytes are in the file. -/
theorem holds_iff {path : String} {file : FileData} {x : PageData}
    (hp : Addressable d p) (hd : d.descriptors.lookup p.fd = some path)
    (hf : d.files path = some file) :
    ops.Holds d p x ↔ (p.pageNo * pageSize).toNat + pageSize ≤ file.size ∧
      ∀ i (h : i < pageSize), file.byte ((p.pageNo * pageSize).toNat + i) = x ⟨i, h⟩ := by
  obtain ⟨_, _, -, -, -, h0, h1⟩ := id hp
  constructor
  · intro h
    have hr := h.2 PageData.zero
    have hsize : (p.pageNo * pageSize).toNat + pageSize ≤ file.size := by
      by_contra hlt
      have hfail : (d.readPage p.fd p.pageNo pageSize PageData.zero.get).1 ≠ .ok () := by
        unfold readPage
        rw [fileOf_eq hd hf]
        dsimp only
        rw [pageOffset_eq h0 h1, if_neg (by simp only [pageSize]; omega), if_neg hlt]
        intro heq
        cases heq
      exact hfail (congrArg Prod.fst hr)
    refine ⟨hsize, fun i hi => ?_⟩
    have hbyte := congrFun (congrArg Prod.snd hr) ⟨i, hi⟩
    simp only [ops, readPage_eq hd hf h0 h1 _ hsize, if_pos hi] at hbyte
    exact hbyte
  · rintro ⟨hsize, hx⟩
    refine ⟨hp, fun buf => ?_⟩
    simp only [ops, readPage_eq hd hf h0 h1 _ hsize]
    refine Prod.ext rfl (funext fun i => ?_)
    show (if (i : Nat) < pageSize then _ else _) = x i
    rw [if_pos i.isLt]
    exact hx i i.isLt

/-- Writing bytes of a file leaves the descriptors and the existence of files alone. -/
theorem Addressable.write {q : PageId} (hq : Addressable d q) (path : String) (file : FileData) :
    Addressable { d with files := Function.update d.files path (some file) } q := by
  obtain ⟨path', file', h1, h2, h3⟩ := hq
  by_cases hpath : path' = path
  · subst hpath
    exact ⟨path', file, h1, Function.update_self _ _ _, h3⟩
  · exact ⟨path', file', h1, (Function.update_of_ne hpath _ _).trans h2, h3⟩

/-- A write at the place of one page leaves every other page alone, whatever its length. -/
theorem holds_writePage_of_ne {fd pageNo : Int} {n : Nat} (hn : n ≤ pageSize)
    (data : Nat → UInt8) (hp : Addressable d ⟨fd, pageNo⟩) {q : PageId} {y : PageData}
    (hne : q ≠ ⟨fd, pageNo⟩) (hq : ops.Holds d q y) :
    ops.Holds (d.writePage fd pageNo n data).2 q y := by
  obtain ⟨path, file, hd, hf, hinj, h0, h1⟩ := id hp
  rw [writePage_eq hd hf h0 h1]
  have hq' := hq.1.write path (file.write (pageNo * pageSize).toNat n data)
  obtain ⟨qpath, qfile, hqd, hqf, -, hq0, hq1⟩ := id hq.1
  by_cases hfd : q.fd = fd
  · -- the same file at another offset
    have hpath : qpath = path := by
      rw [hfd] at hqd
      exact Option.some.inj (hqd.symm.trans hd)
    subst hpath
    have hfile : qfile = file := Option.some.inj (hqf.symm.trans hf)
    subst hfile
    obtain ⟨hsize, hy⟩ := (holds_iff hq.1 hqd hqf).mp hq
    have hno : q.pageNo ≠ pageNo := by
      intro heq
      apply hne
      rw [← hfd, ← heq]
    refine (holds_iff hq' hqd (Function.update_self _ _ _)).mpr ⟨?_, fun i hi => ?_⟩
    · exact Nat.le_trans hsize (FileData.size_le_write _ _ _ _).1
    · rw [FileData.byte_write_outside, hy i hi]
      · omega
      · simp only [pageSize] at *
        omega
  · -- another file
    have hpath : qpath ≠ path := by
      rintro rfl
      exact hfd (hinj _ hqd)
    refine (holds_iff hq' hqd ((Function.update_of_ne hpath _ _).trans hqf)).mpr ?_
    exact (holds_iff hq.1 hqd hqf).mp hq

/-- **The disk manager is a lawful disk.** -/
theorem lawful : ops.Lawful where
  write_ok d p x hp := by
    obtain ⟨path, file, hd, hf, -, h0, h1⟩ := hp
    show (d.writePage p.fd p.pageNo pageSize x.get).1 = _
    rw [writePage_eq hd hf h0 h1]
  write_holds d p x hp := by
    obtain ⟨path, file, hd, hf, -, h0, h1⟩ := id hp
    show ops.Holds (d.writePage p.fd p.pageNo pageSize x.get).2 p x
    rw [writePage_eq hd hf h0 h1]
    refine (holds_iff (hp.write _ _) hd (Function.update_self _ _ _)).mpr ⟨?_, fun i hi => ?_⟩
    · exact (FileData.size_le_write _ _ _ _).2
    · rw [FileData.byte_write_inside _ _ _ _ hi]
      exact dif_pos hi
  write_frame d p x q y hp hne hq := holds_writePage_of_ne (Nat.le_refl _) x.get hp hne hq
  write_keeps d p x q hp hq := by
    obtain ⟨path, file, hd, hf, -, h0, h1⟩ := id hp
    show Addressable (d.writePage p.fd p.pageNo pageSize x.get).2 q
    rw [writePage_eq hd hf h0 h1]
    exact Addressable.write hq _ _
  allocate_holds d fd q y h := h
  allocate_keeps d fd q h := h

end Lawful

end DiskManager

end Rmdb
