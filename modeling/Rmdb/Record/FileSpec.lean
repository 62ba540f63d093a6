import Rmdb.Record.FileInvariant
import Rmdb.Record.RmFileHandle

namespace Rmdb

open Lib BufferPoolManager DiskManager

/-!
# What the operations of a record file do

The invariant of the pages (`FileInv`) joined with the state of the pool and of the disk:

* `OpenFile` — the file is open under the lowest free descriptor, and the page counter is known;
* `Ready` — the handle between two operations, `Holding` — with one page pinned;
* `insertRecord_spec`, `deleteRecord_spec`, `updateRecord_spec`, `getRecord_spec`, `closeFile_spec`,
  `openFile_spec` — every operation succeeds, keeps `Ready` and changes the map as it should.
-/

/-! ### The disk under an open file -/

/-- The file is open under `fd`, which was the lowest free descriptor beside `others`. -/
structure OpenFile (d : DiskManager) (fd : Int) (path : String) (others : List (Int × String))
    (n : Int) : Prop where
  descriptors : d.descriptors = (fd, path) :: others
  lowest : lowestFree others = some fd
  alone : ∀ fd', others.lookup fd' ≠ some path
  file : ∃ file, d.files path = some file
  path2fd : d.path2fd path = some fd
  fd2path : d.fd2path fd = some path
  counter : d.fd2pageno fd = n

/-- The file header is on the disk. -/
def HdrStored (d : DiskManager) (path : String) (h : RmFileHdr) : Prop :=
  ∃ file, d.files path = some file ∧ sizeofRmFileHdr ≤ file.size ∧
    ∀ i < sizeofRmFileHdr, file.byte i = h.bytes i

section OpenFile

variable {d : DiskManager} {fd : Int} {path : String} {others : List (Int × String)} {n : Int}

/-- The next descriptor is not open. -/
theorem lowestFree_lookup {fds : List (Int × String)} (h : lowestFree fds = some fd) :
    fds.lookup fd = none := by
  have hp := List.find?_some h
  simpa using hp

/-- The descriptor of the file. -/
theorem OpenFile.lookup (h : OpenFile d fd path others n) : d.descriptors.lookup fd = some path := by
  rw [h.descriptors]
  exact List.lookup_cons_self

/-- The pages of the file have a place of their own, as far as an offset can reach. -/
theorem OpenFile.addressable (h : OpenFile d fd path others n) {k : Int} (h0 : 0 ≤ k)
    (h1 : k < maxPages) : Addressable d ⟨fd, k⟩ := by
  obtain ⟨file, hfile⟩ := h.file
  refine ⟨path, file, h.lookup, hfile, fun fd' hfd' => ?_, h0, h1⟩
  by_contra hne
  rw [h.descriptors, List.lookup_cons, beq_false_of_ne hne] at hfd'
  exact h.alone fd' hfd'

/-- A write changes bytes of a file and nothing else. -/
theorem OpenFile.writePage (h : OpenFile d fd path others n) (fd' k : Int) (len : Nat)
    (data : Nat → UInt8) : OpenFile (d.writePage fd' k len data).2 fd path others n := by
  unfold DiskManager.writePage
  split
  · exact h
  · rename_i path' file' _
    split
    · exact h
    · refine ⟨h.descriptors, h.lowest, h.alone, ?_, h.path2fd, h.fd2path, h.counter⟩
      by_cases hp : path = path'
      · subst hp
        exact ⟨_, Function.update_self _ _ _⟩
      · obtain ⟨file, hfile⟩ := h.file
        exact ⟨file, (Function.update_of_ne hp _ _).trans hfile⟩

/-- **Writing the header** leaves the pages alone. -/
theorem OpenFile.writeHdr (h : OpenFile d fd path others n) (hdr : RmFileHdr) :
    ∃ d', d.writePage fd rmFileHdrPage sizeofRmFileHdr hdr.bytes = (.ok (), d') ∧
      OpenFile d' fd path others n ∧ HdrStored d' path hdr ∧
      (∀ k, 1 ≤ k → Addressable d ⟨fd, k⟩ → Addressable d' ⟨fd, k⟩) ∧
      ∀ k y, 1 ≤ k → ops.Holds d ⟨fd, k⟩ y → ops.Holds d' ⟨fd, k⟩ y := by
  obtain ⟨file, hfile⟩ := h.file
  have hw := writePage_eq h.lookup hfile (Int.le_refl 0) (by decide : (0 : Int) < maxPages)
    sizeofRmFileHdr hdr.bytes
  have hopen := h.writePage fd rmFileHdrPage sizeofRmFileHdr hdr.bytes
  refine ⟨_, hw, by rw [rmFileHdrPage, hw] at hopen; exact hopen, ?_, fun k _ hk => ?_,
    fun k y hk hy => ?_⟩
  · refine ⟨_, Function.update_self _ _ _, ?_, fun i hi => ?_⟩
    · exact Nat.le_trans (by omega) (FileData.size_le_write _ _ _ _).2
    · have hb := FileData.byte_write_inside file ((0 : Int) * pageSize).toNat _ hdr.bytes hi
      simpa using hb
  · exact hk.write _ _
  · have hkeep := holds_writePage_of_ne (n := sizeofRmFileHdr) (by decide) hdr.bytes
      (h.addressable (Int.le_refl 0) (by decide)) (q := ⟨fd, k⟩) (y := y) (fun heq => by
        have := (PageId.mk.inj heq).2
        omega) hy
    rw [hw] at hkeep
    exact hkeep

/-- The header survives the writes of the pages behind it. -/
theorem HdrStored.writePage (h : OpenFile d fd path others n) {hdr : RmFileHdr}
    (hs : HdrStored d path hdr) {k : Int} (h0 : 1 ≤ k) (h1 : k < maxPages) (len : Nat)
    (data : Nat → UInt8) : HdrStored (d.writePage fd k len data).2 path hdr := by
  obtain ⟨file, hfile, hsize, hbytes⟩ := hs
  rw [writePage_eq h.lookup hfile (by omega) h1]
  have hle := FileData.size_le_write file (k * pageSize).toNat len data
  refine ⟨_, Function.update_self _ _ _, Nat.le_trans hsize hle.1, fun i hi => ?_⟩
  rw [FileData.byte_write_outside _ _ _ _ (by omega), hbytes i hi]
  left
  simp only [sizeofRmFileHdr, pageSize] at *
  omega

/-- What the pool's writes keep. -/
theorem keptByWrites_open :
    KeptByWrites ops (fun _ => True) (OpenFile · fd path others n) :=
  fun _ p x _ h => h.writePage p.fd p.pageNo pageSize x.get

/-- Writes to the record pages keep the header page. -/
theorem keptByWrites_hdr (hdr : RmFileHdr) :
    KeptByWrites ops (fun p => p.fd = fd ∧ 1 ≤ p.pageNo ∧ p.pageNo < maxPages)
      (fun d => OpenFile d fd path others n ∧ HdrStored d path hdr) := by
  rintro d p x ⟨rfl, h0, h1⟩ ⟨hopen, hs⟩
  exact ⟨hopen.writePage p.fd p.pageNo pageSize x.get,
    hs.writePage hopen h0 h1 pageSize x.get⟩

/-- Closing and reopening the file leaves the disk as it was. -/
theorem OpenFile.reopen (h : OpenFile d fd path others n) :
    ∃ d₁ d₂, d.closeFile fd = (.ok (), d₁) ∧ d₁.openFile path = (.ok fd, d₂) ∧
      d₂.setFd2pageno fd n = d ∧ d₂.files = d.files ∧ d₂.descriptors = d.descriptors := by
  obtain ⟨file, hfile⟩ := h.file
  have hfilter : d.descriptors.filter (fun e => decide (e.1 ≠ fd)) = others := by
    rw [h.descriptors, List.filter_cons_of_neg (by simp), List.filter_eq_self]
    intro e he
    have hne := List.lookup_eq_none_iff.mp (lowestFree_lookup h.lowest) e he
    simp only [bne_iff_ne, ne_eq, decide_eq_true_eq] at hne ⊢
    exact fun heq => hne heq.symm
  refine ⟨_, { d with fd2pageno := Function.update d.fd2pageno fd 0 }, by
    simp only [closeFile, h.fd2path]; rfl, ?_, ?_, rfl, rfl⟩
  · simp only [openFile, Function.update_self, hfile, hfilter, h.lowest]
    have h1 : Function.update (Function.update d.path2fd path none) path (some fd) = d.path2fd := by
      rw [Function.update_idem, ← h.path2fd, Function.update_eq_self]
    have h2 : Function.update (Function.update d.fd2path fd none) fd (some path) = d.fd2path := by
      rw [Function.update_idem, ← h.fd2path, Function.update_eq_self]
    rw [h1, h2, ← h.descriptors]
  · simp only [setFd2pageno]
    rw [Function.update_idem, ← h.counter, Function.update_eq_self]

end OpenFile

/-! ### The handle -/

namespace RmFileHandle

/-- The handle between two operations. -/
structure Ready (s : RmFileHandle) (path : String) (others : List (Int × String))
    (V : Int → PageData) (chain : List Int) : Prop where
  inv : FileInv s.fileHdr V chain
  idle : Idle ops s.pool s.fd s.fileHdr.numPages V
  disk : OpenFile s.pool.disk s.fd path others s.fileHdr.numPages
  le : s.fileHdr.numPages ≤ maxPages

/-- The handle while an operation has page `n` pinned in the frame `f`, with the bytes `x`. -/
structure Holding (s : RmFileHandle) (path : String) (others : List (Int × String))
    (V : Int → PageData) (n : Int) (f : FrameId) (x : PageData) : Prop where
  held : Held ops s.pool s.fd s.fileHdr.numPages V n f x
  disk : OpenFile s.pool.disk s.fd path others s.fileHdr.numPages
  le : s.fileHdr.numPages ≤ maxPages

variable {s : RmFileHandle} {path : String} {others : List (Int × String)} {V : Int → PageData}
  {chain : List Int} {n : Int} {f : FrameId} {x : PageData}

/-- A call of the pool that succeeds. -/
theorem onPool_ok {α : Type}
    {op : BufferPoolManager DiskManager → Except DiskError α × BufferPoolManager DiskManager} {a : α}
    {b : BufferPoolManager DiskManager} (h : op s.pool = (.ok a, b)) :
    onPool op s = (.ok a, { s with pool := b }) := by
  unfold onPool
  rw [h]

/-- A call of the pool that fails. -/
theorem onPool_error {α : Type}
    {op : BufferPoolManager DiskManager → Except DiskError α × BufferPoolManager DiskManager}
    {e : DiskError} {b : BufferPoolManager DiskManager} (h : op s.pool = (.error e, b)) :
    onPool op s = (.error (.disk e), { s with pool := b }) := by
  unfold onPool
  rw [h]

/-- The page number in the descriptor of the frame. -/
theorem Holding.pageNo (h : Holding s path others V n f x) :
    framePageNo f s = (.ok n, s) := by
  unfold framePageNo
  rw [(h.held.others.ok.inv.mapped _ f h.held.look).2]

/-- The page that is held is read. -/
theorem Holding.readFrame (h : Holding s path others V n f x) :
    readFrame f s = (.ok x, s) := by
  unfold RmFileHandle.readFrame
  rw [h.held.data]

/-- The page that is held is changed. -/
theorem Holding.modifyFrame (h : Holding s path others V n f x) (g : PageData → PageData) :
    ∃ s', modifyFrame f g s = (.ok (), s') ∧ s'.fileHdr = s.fileHdr ∧ s'.fd = s.fd ∧
      Holding s' path others V n f (g x) := by
  refine ⟨_, rfl, rfl, rfl, ?_, h.disk, h.le⟩
  rw [h.held.data]
  exact h.held.write (g x)

/-- The header is written to page 0. -/
theorem writeFileHdr_ok {c : Int} (h : OpenFile s.pool.disk s.fd path others c) :
    ∃ d, writeFileHdr s = (.ok (), { s with pool := { s.pool with disk := d } }) ∧
      OpenFile d s.fd path others c ∧ HdrStored d path s.fileHdr ∧
      (∀ k, 1 ≤ k → Addressable s.pool.disk ⟨s.fd, k⟩ → Addressable d ⟨s.fd, k⟩) ∧
      ∀ k y, 1 ≤ k → ops.Holds s.pool.disk ⟨s.fd, k⟩ y → ops.Holds d ⟨s.fd, k⟩ y := by
  obtain ⟨d, hw, hrest⟩ := h.writeHdr s.fileHdr
  refine ⟨d, ?_, hrest⟩
  unfold writeFileHdr
  rw [hw]

/-- Writing the header keeps the page that is held. -/
theorem Holding.writeFileHdr (h : Holding s path others V n f x) :
    ∃ s', writeFileHdr s = (.ok (), s') ∧ s'.fileHdr = s.fileHdr ∧ s'.fd = s.fd ∧
      Holding s' path others V n f x := by
  obtain ⟨d, hw, hopen, -, ha, hd⟩ := writeFileHdr_ok h.disk
  exact ⟨_, hw, rfl, rfl, h.held.set_disk ha hd, hopen, h.le⟩

/-- **Fetching a page.** -/
theorem fetchPageHandle_ok (h : Ready s path others V chain) (h1 : 1 ≤ n)
    (h2 : n < s.fileHdr.numPages) :
    ∃ f s', fetchPageHandle n s = (.ok f, s') ∧ s'.fileHdr = s.fileHdr ∧ s'.fd = s.fd ∧
      Holding s' path others V n f (V n) := by
  have hle := h.le
  obtain ⟨f, b', hfetch, hheld⟩ := h.idle.fetch lawful h1 h2
    (h.disk.addressable (by omega) (by omega))
  have hdisk := fetchPage_disk keptByWrites_open h.idle.ok.inv (fun _ _ _ => trivial) h.disk
    ⟨s.fd, n⟩
  rw [hfetch] at hdisk
  refine ⟨f, { s with pool := b' }, ?_, rfl, rfl, hheld, hdisk, h.le⟩
  unfold fetchPageHandle
  rw [if_neg (by simp only [invalidPageId]; omega), RmM.bind_ok (onPool_ok hfetch)]
  rfl

/-- **Creating a page**, where its number has an offset. -/
theorem createNewPageHandle_ok (h : Ready s path others V chain)
    (hfirst : s.fileHdr.firstFreePageNo = rmNoPage) (hroom : s.fileHdr.numPages < maxPages) :
    ∃ f s' V', createNewPageHandle s = (.ok f, s') ∧ s'.fd = s.fd ∧
      s'.fileHdr = { s.fileHdr with
        numPages := s.fileHdr.numPages + 1, firstFreePageNo := s.fileHdr.numPages } ∧
      FileInv s'.fileHdr V' [s.fileHdr.numPages] ∧
      contents s'.fileHdr V' = contents s.fileHdr V ∧
      Holding s' path others V' s.fileHdr.numPages f (V' s.fileHdr.numPages) := by
  have h1 := h.inv.one_le
  have halloc : (ops.allocatePage s.pool.disk s.fd).1 = s.fileHdr.numPages := h.disk.counter
  have hcount : OpenFile (ops.allocatePage s.pool.disk s.fd).2 s.fd path others
      (s.fileHdr.numPages + 1) := by
    refine ⟨h.disk.descriptors, h.disk.lowest, h.disk.alone, h.disk.file, h.disk.path2fd,
      h.disk.fd2path, ?_⟩
    show Function.update _ s.fd _ s.fd = _
    rw [Function.update_self, h.disk.counter]
  obtain ⟨f, b₁, hnew, hheld₁⟩ := h.idle.new lawful h1 halloc
    (hcount.addressable (by omega) hroom)
  have hdisk₁ := newPage_disk keptByWrites_open h.idle.ok.inv (fun _ _ _ => trivial) hcount
    h.idle.exists_victim
  rw [hnew] at hdisk₁
  -- the page is initialised and flushed
  have hheld₂ := hheld₁.write (PageData.initPage s.fileHdr .zero)
  obtain ⟨b₃, hflush, hheld₃⟩ := hheld₂.flush lawful
  have hdisk₃ := flushPage_disk (p := ⟨s.fd, s.fileHdr.numPages⟩) keptByWrites_open trivial
    (b := b₁.setPage f { b₁.pages f with data := PageData.initPage s.fileHdr .zero }) hdisk₁
  rw [hflush] at hdisk₃
  -- the header follows
  let s₄ : RmFileHandle := ⟨s.fd, { s.fileHdr with
    numPages := s.fileHdr.numPages + 1, firstFreePageNo := s.fileHdr.numPages }, b₃⟩
  obtain ⟨d, hw, hopen, -, ha, hd⟩ := writeFileHdr_ok (s := s₄) hdisk₃
  obtain ⟨hinv, hcont⟩ := h.inv.newPage hfirst .zero
  refine ⟨f, { s₄ with pool := { s₄.pool with disk := d } }, _, ?_, rfl, rfl, hinv, hcont, ?_, hopen,
    ?_⟩
  · unfold createNewPageHandle
    rw [RmM.bind_ok (onPool_ok hnew)]
    show initNewPage f _ _ = _
    unfold initNewPage
    have hmod : modifyFrame f (PageData.initPage s.fileHdr) { s with pool := b₁ } =
        (.ok (), ⟨s.fd, s.fileHdr,
          b₁.setPage f { b₁.pages f with data := PageData.initPage s.fileHdr .zero }⟩) := by
      unfold RmFileHandle.modifyFrame
      rw [hheld₁.data]
    rw [getFileHdr_bind, RmM.bind_ok hmod, RmM.bind_ok (onPool_ok hflush), modifyFileHdr_bind,
      RmM.bind_ok hw]
    rfl
  · have hheld₄ := hheld₃.set_disk ha hd
    rw [Function.update_self]
    refine ⟨⟨hheld₄.others.ok, hheld₄.others.size, hheld₄.others.pins, hheld₄.others.free,
      hheld₄.others.cached, fun k hk hk1 hk2 => ?_⟩, hheld₄.look, hheld₄.pin, hheld₄.data⟩
    rw [Function.update_of_ne hk]
    exact hheld₄.others.safe k hk hk1 hk2
  · show s.fileHdr.numPages + 1 ≤ maxPages
    omega

/-- **A page with room**: the first of the chain, or a new one. -/
theorem createPageHandle_ok (h : Ready s path others V chain)
    (hroom : s.fileHdr.firstFreePageNo ≠ rmNoPage ∨ s.fileHdr.numPages < maxPages) :
    ∃ f s' V' n l, createPageHandle s = (.ok f, s') ∧ s'.fd = s.fd ∧
      s'.fileHdr.recordSize = s.fileHdr.recordSize ∧ FileInv s'.fileHdr V' (n :: l) ∧
      recordMap s'.fileHdr V' (n :: l) = (recordMap s.fileHdr V chain).withRoom ∧
      Holding s' path others V' n f (V' n) := by
  unfold createPageHandle
  rw [getFileHdr_bind]
  by_cases hfirst : s.fileHdr.firstFreePageNo = rmNoPage
  · rw [if_pos hfirst]
    obtain ⟨f, s', V', h1, h2, h3, h4, h5, h6⟩ := createNewPageHandle_ok h hfirst
      (hroom.resolve_left fun hne => hne hfirst)
    have hnil : chain = [] := by
      have hc := h.inv.isChain
      rw [hfirst] at hc
      exact hc.eq_nil
    refine ⟨f, s', V', _, [], h1, h2, by rw [h3], h4, ?_, h6⟩
    unfold recordMap
    rw [h5, h3, hnil]
    rfl
  · rw [if_neg hfirst]
    obtain ⟨l, rfl, -⟩ := h.inv.isChain.eq_cons hfirst
    obtain ⟨hn1, hn2, -⟩ := (h.inv.mem _).mp List.mem_cons_self
    obtain ⟨f, s', h1, h2, h3, h4⟩ := fetchPageHandle_ok h hn1 hn2
    refine ⟨f, s', V, _, l, h1, h3, by rw [h2], ?_, by rw [h2]; rfl, h4⟩
    rw [h2]
    exact h.inv

/-- Unpinning ends the operation. -/
theorem Holding.unpin (h : Holding s path others V n f x)
    (hinv : FileInv s.fileHdr (Function.update V n x) chain) :
    ∃ s', unpin n true s = (.ok (), s') ∧ s'.fileHdr = s.fileHdr ∧ s'.fd = s.fd ∧
      Ready s' path others (Function.update V n x) chain := by
  refine ⟨_, rfl, rfl, rfl, hinv, h.held.unpin.1, ?_, h.le⟩
  show OpenFile (s.pool.unpinPage _ true).2.disk _ _ _ _
  rw [unpinPage_disk]
  exact h.disk

/-- **`insert_record`** inserts into the map. -/
theorem insertRecord_spec (h : Ready s path others V chain)
    (hroom : s.fileHdr.firstFreePageNo ≠ rmNoPage ∨ s.fileHdr.numPages < maxPages)
    {buf : List UInt8} (hbuf : buf.length = s.fileHdr.recordSize) (lsn : Lsn) :
    ∃ rid s' V' chain', insertRecord buf lsn s = (.ok rid, s') ∧
      s'.fileHdr.recordSize = s.fileHdr.recordSize ∧ Ready s' path others V' chain' ∧
      (rid, recordMap s'.fileHdr V' chain') = (recordMap s.fileHdr V chain).insert buf := by
  obtain ⟨f, s₁, V₁, n, l, hcreate, -, hsize, hinv, hmap, hhold⟩ := createPageHandle_ok h hroom
  obtain ⟨hs, hnext, hfull, hpart, hupd⟩ := hinv.insert (hbuf.trans hsize.symm) lsn
  generalize hslot : freeSlot s₁.fileHdr (V₁ n) = slot at *
  -- the record, its bit and the counter
  obtain ⟨s₂, hmod₂, hhdr₂, hfd₂, hhold₂⟩ :=
    hhold.modifyFrame (fun x => PageData.insertInto s₁.fileHdr x slot buf)
  have hunlink : ∃ s₃ chain', unlinkIfFull f s₂ = (.ok (), s₃) ∧
      s₃.fileHdr.recordSize = s₁.fileHdr.recordSize ∧
      (FileInv s₃.fileHdr (Function.update V₁ n
        ((PageData.insertInto s₁.fileHdr (V₁ n) slot buf).setPageLsn lsn)) chain' ∧
        (s₃.fileHdr = { s₁.fileHdr with firstFreePageNo := s₃.fileHdr.firstFreePageNo } ∧
          chain' = if (PageData.insertInto s₁.fileHdr (V₁ n) slot buf).numRecords =
            s₁.fileHdr.numRecordsPerPage then l else n :: l)) ∧
      Holding s₃ path others V₁ n f (PageData.insertInto s₁.fileHdr (V₁ n) slot buf) := by
    unfold unlinkIfFull
    rw [getFileHdr_bind, RmM.bind_ok hhold₂.readFrame, hhdr₂]
    have hview := PageData.View.setPageLsn hinv.fits
      (PageData.view_self s₁.fileHdr (PageData.insertInto s₁.fileHdr (V₁ n) slot buf)) lsn
    rw [hview.num] at hfull hpart
    rw [hview.next] at hnext
    by_cases hc : (PageData.insertInto s₁.fileHdr (V₁ n) slot buf).numRecords =
        s₁.fileHdr.numRecordsPerPage
    · rw [if_pos hc, modifyFileHdr_bind]
      have hhold₃ : Holding { s₂ with fileHdr := { s₂.fileHdr with
          firstFreePageNo :=
            (PageData.insertInto s₁.fileHdr (V₁ n) slot buf).nextFreePageNo } } path others V₁ n f
          (PageData.insertInto s₁.fileHdr (V₁ n) slot buf) :=
        ⟨hhold₂.held, hhold₂.disk, hhold₂.le⟩
      obtain ⟨s₃, hw, hhdr₃, -, hhold₄⟩ := hhold₃.writeFileHdr
      refine ⟨s₃, l, hw, by rw [hhdr₃, hhdr₂], ?_, hhold₄⟩
      rw [hhdr₃, hhdr₂, hnext, if_pos hc]
      exact ⟨hfull hc, rfl, rfl⟩
    · rw [if_neg hc]
      refine ⟨s₂, n :: l, rfl, by rw [hhdr₂], ?_, hhold₂⟩
      rw [hhdr₂, if_neg hc]
      exact ⟨hpart hc, rfl, rfl⟩
  obtain ⟨s₃, chain', hun, hsize₃, ⟨hinv₃, hcont₃, hchain'⟩, hhold₃⟩ := hunlink
  obtain ⟨s₄, hmod₄, hhdr₄, -, hhold₄⟩ := hhold₃.modifyFrame (·.setPageLsn lsn)
  have hinv₄ := hinv₃
  rw [← hhdr₄] at hinv₃
  obtain ⟨s₅, hpin, hhdr₅, -, hready⟩ := hhold₄.unpin hinv₃
  refine ⟨⟨n, slot⟩, s₅, _, chain', ?_, ?_, hready, ?_⟩
  · unfold insertRecord
    rw [RmM.bind_ok hcreate, getFileHdr_bind, RmM.bind_ok hhold.readFrame]
    show ((modifyFrame f fun x => PageData.insertInto s₁.fileHdr x (freeSlot _ (V₁ n)) buf) >>= _) s₁
      = _
    rw [hslot, RmM.bind_ok hmod₂, RmM.bind_ok hun, RmM.bind_ok hhold₃.pageNo, RmM.bind_ok hmod₄,
      RmM.bind_ok hpin, ← hslot]
    rfl
  · rw [hhdr₅, hhdr₄, hsize₃, hsize]
  · obtain ⟨hn1, hn2, -⟩ := (hinv.mem n).mp List.mem_cons_self
    have hchain : (recordMap s.fileHdr V chain).withRoom.chain = n :: l := by
      rw [← hmap]
      rfl
    rw [RecordMap.insert_eq_insertAt hchain, ← hmap]
    unfold RecordMap.insertAt
    dsimp only
    rw [freeSlot_eq hn1 hn2, hslot, hhdr₅, hhdr₄]
    -- the page leaves the chain when the counter has reached the number of slots
    have hview := PageData.View.setPageLsn hinv.fits
      (PageData.view_self s₁.fileHdr (PageData.insertInto s₁.fileHdr (V₁ n) slot buf)) lsn
    have hcontents : contents s₃.fileHdr (Function.update V₁ n
        ((PageData.insertInto s₁.fileHdr (V₁ n) slot buf).setPageLsn lsn)) =
        Function.update (contents s₁.fileHdr V₁) ⟨n, slot⟩ (some buf) := by
      rw [hcont₃]
      exact hupd
    have hiff := hinv₄.isFull_iff hn1 (by rw [hcont₃]; exact hn2) (n :: l)
    rw [Function.update_self, hview.num] at hiff
    unfold recordMap at hiff ⊢
    rw [hcontents] at hiff ⊢
    rw [hcont₃] at hiff ⊢
    refine Prod.ext rfl ?_
    show RecordMap.mk _ _ chain' _ = RecordMap.mk _ _ _ _
    rw [hchain']
    congr 1
    exact if_congr hiff.symm rfl rfl

/-- The head of the chain is a page number, or none. -/
theorem Ready.firstFree_range (h : Ready s path others V chain) :
    Int32Range s.fileHdr.firstFreePageNo := by
  have hle := h.le
  simp only [maxPages] at hle
  by_cases hfirst : s.fileHdr.firstFreePageNo = rmNoPage
  · rw [hfirst]
    exact ⟨by decide, by decide⟩
  · obtain ⟨l, rfl, -⟩ := h.inv.isChain.eq_cons hfirst
    obtain ⟨h1, h2, -⟩ := (h.inv.mem _).mp List.mem_cons_self
    exact ⟨by omega, by omega⟩

/-- **`delete_record`** of a record of the file. -/
theorem deleteRecord_spec (h : Ready s path others V chain) {rid : Rid} {old : List UInt8}
    (hc : contents s.fileHdr V rid = some old) (lsn : Lsn) :
    ∃ s' V' chain', deleteRecord rid lsn s = (.ok (), s') ∧
      s'.fileHdr.recordSize = s.fileHdr.recordSize ∧ Ready s' path others V' chain' ∧
      recordMap s'.fileHdr V' chain' = (recordMap s.fileHdr V chain).delete rid := by
  obtain ⟨hn1, hn2, -⟩ := contents_eq_some hc
  obtain ⟨f, s₁, hfetch, hhdr₁, -, hhold⟩ := fetchPageHandle_ok h hn1 hn2
  obtain ⟨hfull, hpart, hupd⟩ := h.inv.delete hc h.firstFree_range lsn
  -- a full page joins the chain first
  have hlink : ∃ s₂ chain', linkIfFull f s₁ = (.ok (), s₂) ∧
      s₂.fileHdr.recordSize = s.fileHdr.recordSize ∧
      (FileInv s₂.fileHdr (Function.update V rid.pageNo
        ((PageData.deleteFrom (linked s.fileHdr (V rid.pageNo)) rid.slotNo.toNat).setPageLsn lsn))
        chain' ∧ s₂.fileHdr = { s.fileHdr with firstFreePageNo := s₂.fileHdr.firstFreePageNo } ∧
        chain' = if (V rid.pageNo).numRecords = s.fileHdr.numRecordsPerPage then
          rid.pageNo :: chain else chain) ∧
      Holding s₂ path others V rid.pageNo f (linked s.fileHdr (V rid.pageNo)) := by
    unfold linkIfFull
    rw [getFileHdr_bind, RmM.bind_ok hhold.readFrame, hhdr₁]
    by_cases hcond : (V rid.pageNo).numRecords = s.fileHdr.numRecordsPerPage
    · rw [if_pos hcond]
      have hlinked : linked s.fileHdr (V rid.pageNo) =
          (V rid.pageNo).setNextFreePageNo s.fileHdr.firstFreePageNo := if_pos hcond
      obtain ⟨s₂, hmod₂, hhdr₂, -, hhold₂⟩ :=
        hhold.modifyFrame (·.setNextFreePageNo s.fileHdr.firstFreePageNo)
      have hhold₃ : Holding { s₂ with fileHdr := { s₂.fileHdr with firstFreePageNo := rid.pageNo } }
          path others V rid.pageNo f
          ((V rid.pageNo).setNextFreePageNo s.fileHdr.firstFreePageNo) :=
        ⟨hhold₂.held, hhold₂.disk, hhold₂.le⟩
      obtain ⟨s₃, hw, hhdr₃, -, hhold₄⟩ := hhold₃.writeFileHdr
      rw [hlinked] at hfull ⊢
      refine ⟨s₃, rid.pageNo :: chain, ?_, by rw [hhdr₃, hhdr₂, hhdr₁], ?_, hhold₄⟩
      · unfold releasePageHandle
        rw [getFileHdr_bind, RmM.bind_ok hhold.pageNo, hhdr₁, RmM.bind_ok hmod₂, modifyFileHdr_bind]
        exact hw
      · rw [hhdr₃, hhdr₂, hhdr₁, if_pos hcond]
        exact ⟨hfull hcond, rfl, rfl⟩
    · rw [if_neg hcond]
      have hlinked : linked s.fileHdr (V rid.pageNo) = V rid.pageNo := if_neg hcond
      rw [hlinked] at hpart ⊢
      refine ⟨s₁, chain, rfl, by rw [hhdr₁], ?_, hhold⟩
      rw [hhdr₁, if_neg hcond]
      exact ⟨hpart hcond, rfl, rfl⟩
  obtain ⟨s₂, chain', hlk, hsize₂, ⟨hinv₂, hcont₂, hchain'⟩, hhold₂⟩ := hlink
  obtain ⟨s₃, hmod₃, hhdr₃, -, hhold₃⟩ :=
    hhold₂.modifyFrame (PageData.deleteFrom · rid.slotNo.toNat)
  obtain ⟨s₄, hmod₄, hhdr₄, -, hhold₄⟩ := hhold₃.modifyFrame (·.setPageLsn lsn)
  rw [← hhdr₃, ← hhdr₄] at hinv₂
  obtain ⟨s₅, hpin, hhdr₅, -, hready⟩ := hhold₄.unpin hinv₂
  refine ⟨s₅, _, chain', ?_, ?_, hready, ?_⟩
  · unfold deleteRecord
    rw [RmM.bind_ok hfetch, RmM.bind_ok hlk, RmM.bind_ok hmod₃, RmM.bind_ok hmod₄,
      RmM.bind_ok hhold₄.pageNo]
    exact hpin
  · rw [hhdr₅, hhdr₄, hhdr₃, hsize₂]
  · rw [hhdr₅, hhdr₄, hhdr₃, hcont₂, hchain']
    unfold recordMap RecordMap.delete
    congr 1
    exact if_congr (h.inv.isFull_iff hn1 hn2 chain).symm rfl rfl

/-- **`update_record`** of a record of the file. -/
theorem updateRecord_spec (h : Ready s path others V chain) {rid : Rid} {old buf : List UInt8}
    (hc : contents s.fileHdr V rid = some old) (hbuf : buf.length = s.fileHdr.recordSize)
    (lsn : Lsn) :
    ∃ s' V', updateRecord rid buf lsn s = (.ok (), s') ∧ s'.fileHdr = s.fileHdr ∧
      Ready s' path others V' chain ∧
      recordMap s'.fileHdr V' chain = (recordMap s.fileHdr V chain).update rid buf := by
  obtain ⟨hn1, hn2, -⟩ := contents_eq_some hc
  obtain ⟨f, s₁, hfetch, hhdr₁, -, hhold⟩ := fetchPageHandle_ok h hn1 hn2
  obtain ⟨hinv, hupd⟩ := h.inv.update hc hbuf lsn
  obtain ⟨s₂, hmod₂, hhdr₂, -, hhold₂⟩ :=
    hhold.modifyFrame (fun x => PageData.setSlot s.fileHdr x rid.slotNo.toNat buf)
  -- the page is unpinned dirty, so the LSN written to its frame is not lost
  obtain ⟨hidle, hlook, hdirty⟩ := hhold₂.held.unpin
  have hlate := hidle.write_unpinned hlook hdirty
    ((PageData.setSlot s.fileHdr (V rid.pageNo) rid.slotNo.toNat buf).setPageLsn lsn)
  rw [Function.update_idem] at hlate
  have hdata : ((s₂.pool.unpinPage ⟨s₂.fd, rid.pageNo⟩ true).2.pages f).data =
      PageData.setSlot s.fileHdr (V rid.pageNo) rid.slotNo.toNat buf := by
    have hs := hidle.safe rid.pageNo id hn1 (by rw [hhdr₂, hhdr₁]; exact hn2)
    rw [Function.update_self, safe_of_lookup hlook] at hs
    exact hs.1
  refine ⟨⟨s₂.fd, s₂.fileHdr, (s₂.pool.unpinPage ⟨s₂.fd, rid.pageNo⟩ true).2.setPage f
    { (s₂.pool.unpinPage ⟨s₂.fd, rid.pageNo⟩ true).2.pages f with
      data := (PageData.setSlot s.fileHdr (V rid.pageNo) rid.slotNo.toNat buf).setPageLsn lsn }⟩,
    _, ?_, hhdr₂.trans hhdr₁, ⟨?_, hlate, ?_, hhold₂.le⟩, ?_⟩
  · unfold updateRecord
    rw [RmM.bind_ok hfetch, getFileHdr_bind, hhdr₁, RmM.bind_ok hmod₂]
    show (RmFileHandle.modifyFrame f (·.setPageLsn lsn)) _ = _
    unfold RmFileHandle.modifyFrame
    dsimp only
    rw [hdata]
  · rw [hhdr₂, hhdr₁]
    exact hinv
  · show OpenFile (s₂.pool.unpinPage _ true).2.disk _ _ _ _
    rw [unpinPage_disk]
    exact hhold₂.disk
  · rw [hhdr₂, hhdr₁]
    unfold recordMap RecordMap.update
    rw [hupd]

/-- **`get_record`** returns the record. -/
theorem getRecord_spec (h : Ready s path others V chain) {rid : Rid} {buf : List UInt8}
    (hc : contents s.fileHdr V rid = some buf) :
    ∃ s', getRecord rid s = (.ok buf, s') ∧ s'.fileHdr = s.fileHdr ∧
      Ready s' path others V chain := by
  obtain ⟨hn1, hn2, -, -, -, hslot⟩ := contents_eq_some hc
  obtain ⟨f, s₁, hfetch, hhdr₁, -, hhold⟩ := fetchPageHandle_ok h hn1 hn2
  have hinv : FileInv s₁.fileHdr (Function.update V rid.pageNo (V rid.pageNo)) chain := by
    rw [hhdr₁, Function.update_eq_self]
    exact h.inv
  obtain ⟨s₂, hpin, hhdr₂, -, hready⟩ := hhold.unpin hinv
  rw [Function.update_eq_self] at hready
  refine ⟨s₂, ?_, hhdr₂.trans hhdr₁, hready⟩
  unfold getRecord
  rw [RmM.bind_ok hfetch, getFileHdr_bind, RmM.bind_ok hhold.readFrame, RmM.bind_ok hpin, hhdr₁,
    hslot]
  rfl

/-! ### Closing and opening -/

/-- The fields of the header are numbers the disk can hold. -/
theorem Ready.inRange (h : Ready s path others V chain) : s.fileHdr.InRange := by
  have hle := h.le
  have h1 := h.inv.one_le
  have hf := h.inv.fits
  have hbits := hf.bits
  have hpage := hf.page
  have hmul : 1 * s.fileHdr.recordSize ≤ s.fileHdr.numRecordsPerPage * s.fileHdr.recordSize :=
    Nat.mul_le_mul_right _ hf.slots
  simp only [maxPages, pageSize] at *
  exact ⟨by omega, ⟨by omega, by omega⟩, by omega, h.firstFree_range, by omega⟩

/-- What `close_file` leaves: a disk that only has to be opened again. -/
def Closed (b : BufferPoolManager DiskManager) (path : String)
    (s : RmFileHandle) : Prop :=
  HdrStored s.pool.disk path s.fileHdr ∧
    ∃ d, s.pool.disk.closeFile s.fd = (.ok (), d) ∧ b = { s.pool with disk := d }

/-- **`close_file`** succeeds and leaves the file to be opened as it was. -/
theorem closeFile_spec (h : Ready s path others V chain) :
    ∃ s' s₀, RmManager.closeFile s = (.ok (), s') ∧ s₀.fileHdr = s.fileHdr ∧
      Ready s₀ path others V chain ∧ Closed s'.pool path s₀ := by
  obtain ⟨d, hw, hopen, hstored, ha, hd⟩ := writeFileHdr_ok h.disk
  have hle := h.le
  -- nothing is pinned, so the pages see the header written as in `Held.set_disk`
  have hidle₁ : Idle ops { s.pool with disk := d } s.fd s.fileHdr.numPages V :=
    h.idle.set_disk ha hd
  obtain ⟨b₂, hflush, hidle₂⟩ := hidle₁.flushAllPages lawful
  have hdisk₂ := flushAllPages_disk (keptByWrites_hdr s.fileHdr)
    (b := { s.pool with disk := d }) (fun p g hp => by
      obtain ⟨hfd, hp1, hp2⟩ := hidle₁.cached p g hp
      exact ⟨hfd, hp1, by omega⟩) ⟨hopen, hstored⟩ s.fd
  rw [hflush] at hdisk₂
  obtain ⟨d₃, -, hclose, -⟩ := hdisk₂.1.reopen
  refine ⟨⟨s.fd, s.fileHdr, { b₂ with disk := d₃ }⟩, ⟨s.fd, s.fileHdr, b₂⟩, ?_, rfl,
    ⟨h.inv, hidle₂, hdisk₂.1, h.le⟩, hdisk₂.2, d₃, hclose, rfl⟩
  unfold RmManager.closeFile
  rw [RmM.bind_ok hw]
  show (onPool (·.flushAllPages ops s.fd) >>= _) _ = _
  rw [RmM.bind_ok (onPool_ok hflush)]
  refine onPool_ok ?_
  dsimp only
  rw [hclose]

/-- **`open_file`** after `close_file` gives the handle back. -/
theorem openFile_spec (h : Ready s path others V chain) {b : BufferPoolManager DiskManager}
    (hb : Closed b path s) : RmManager.openFile b path = (.ok s, s.pool) := by
  obtain ⟨⟨file, hfile, hsize, hbytes⟩, d, hclose, rfl⟩ := hb
  obtain ⟨d₁, d₂, hclose', hopen, hset, hfiles, hdesc⟩ := h.disk.reopen
  have hd : d = d₁ := by
    rw [hclose] at hclose'
    exact (Prod.mk.inj hclose').2
  subst hd
  have hread := readPage_eq (d := d₂) (by rw [hdesc]; exact h.disk.lookup)
    (by rw [hfiles]; exact hfile) (Int.le_refl 0) (by decide) sizeofRmFileHdr (by simpa using hsize)
    (fun _ => 0)
  have hhdr : RmFileHdr.ofBytes (fun i => if i < sizeofRmFileHdr then
      file.byte (((0 : Int) * pageSize).toNat + i) else 0) = s.fileHdr := by
    refine RmFileHdr.ofBytes_bytes h.inRange fun i hi => ?_
    rw [if_pos hi]
    simpa using hbytes i hi
  unfold RmManager.openFile
  simp only [hopen, rmFileHdrPage, hread, hhdr, hset]

end RmFileHandle

end Rmdb
