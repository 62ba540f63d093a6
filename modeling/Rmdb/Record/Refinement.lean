import Mathlib.Data.Finset.Prod
import Mathlib.Data.Int.Interval
import Rmdb.Lib.Transition
import Rmdb.Record.FileSpec

namespace Rmdb

open Lib BufferPoolManager DiskManager RmFileHandle

/-!
# A record file is a map

The record file as a transition system: a file is created and opened, then records are inserted,
updated, deleted and read, and the file is closed and opened again, in any order.  Beside the program
the system carries the map `records` the calls describe.

* `tableSystem` — the system; `roomyTableSystem` — the same, where an insert that needs a new page
  finds a page number whose offset does not overflow;
* `recordFile_refines_map` — in the latter every call does what the map says, and the counters, the
  bitmaps and the chain of free pages agree in every state;
* `insertRecord_fails_at_maxPages` — in the former an insert can throw.
-/

/-- The file: a handle, or only the pool when it is closed. -/
inductive TableFile where
  | opened (s : RmFileHandle)
  | closed (b : BufferPoolManager DiskManager)

/-- The file together with the records that should be in it. -/
structure TableState where
  file : TableFile
  records : Rid → Option (List UInt8)

/-- The calls of a client.  `lsn` is the `prev_lsn` of the transaction that calls. -/
inductive TableOp where
  | insert (buf : List UInt8) (lsn : Lsn)
  | update (rid : Rid) (buf : List UInt8) (lsn : Lsn)
  | delete (rid : Rid) (lsn : Lsn)
  | get (rid : Rid)
  | close
  | reopen

/-- A disk manager that has opened nothing yet; the descriptors the process already has are not of
    the file. -/
structure FreshDisk (d : DiskManager) (path : String) : Prop where
  path2fd : d.path2fd path = none
  fd2path : ∀ fd, d.fd2path fd = none
  fd2pageno : ∀ fd, d.fd2pageno fd = 0
  descriptors : ∀ e ∈ d.descriptors, e.2 ≠ path

/-- The steps: calls that return, on records the file has and with buffers of the record size. -/
inductive TableStep (path : String) (r : Int) : TableState → TableOp → TableState → Prop
  | insert {s s' M buf lsn rid} : (buf.length : Int) = r → insertRecord buf lsn s = (.ok rid, s') →
      TableStep path r ⟨.opened s, M⟩ (.insert buf lsn)
        ⟨.opened s', Function.update M rid (some buf)⟩
  | update {s s' M buf lsn rid old} : M rid = some old → (buf.length : Int) = r →
      updateRecord rid buf lsn s = (.ok (), s') →
      TableStep path r ⟨.opened s, M⟩ (.update rid buf lsn)
        ⟨.opened s', Function.update M rid (some buf)⟩
  | delete {s s' M lsn rid old} : M rid = some old → deleteRecord rid lsn s = (.ok (), s') →
      TableStep path r ⟨.opened s, M⟩ (.delete rid lsn) ⟨.opened s', Function.update M rid none⟩
  | get {s s' M rid old out} : M rid = some old → getRecord rid s = (.ok out, s') →
      TableStep path r ⟨.opened s, M⟩ (.get rid) ⟨.opened s', M⟩
  | close {s s' M} : RmManager.closeFile s = (.ok (), s') →
      TableStep path r ⟨.opened s, M⟩ .close ⟨.closed s'.pool, M⟩
  | reopen {b b' s M} : RmManager.openFile b path = (.ok s, b') →
      TableStep path r ⟨.closed b, M⟩ .reopen ⟨.opened s, M⟩

/-- A file just created and opened, with a pool of any size. -/
def TableStart (path : String) (r : Int) (t : TableState) : Prop :=
  ∃ d d' size garbage s b, FreshDisk d path ∧ 0 < size ∧
    RmManager.createFile d path r = (.ok (), d') ∧
    RmManager.openFile (BufferPoolManager.new size garbage d') path = (.ok s, b) ∧
    t = ⟨.opened s, fun _ => none⟩

/-- The record file and its clients. -/
def tableSystem (path : String) (r : Int) : TransitionSystem TableState TableOp where
  init := TableStart path r
  step := TableStep path r

/-- An insert finds a free page, or a page number whose offset fits in an `int`. -/
def HasRoom (s : RmFileHandle) : Prop :=
  s.fileHdr.firstFreePageNo ≠ rmNoPage ∨ s.fileHdr.numPages < maxPages

/-- The step is not an insert without room. -/
def RoomyStep (t : TableState) : TableOp → Prop
  | .insert _ _ => ∀ s, t.file = .opened s → HasRoom s
  | _ => True

/-- The record file whose inserts all have room. -/
def roomyTableSystem (path : String) (r : Int) : TransitionSystem TableState TableOp where
  init := TableStart path r
  step t op t' := RoomyStep t op ∧ TableStep path r t op t'

/-! ### What a state shows -/

/-- The bytes of a page: in its frame, else on the disk. -/
def RmFileHandle.currentPage (s : RmFileHandle) (n : Int) : Option PageData :=
  match s.pool.pageTable.lookup ⟨s.fd, n⟩ with
  | some f => some (s.pool.pages f).data
  | none =>
    match ops.readPage s.pool.disk ⟨s.fd, n⟩ .zero with
    | (.ok _, x) => some x
    | (.error _, _) => none

/-- The pages one meets from page `p` on along `next_free_page_no`, to the end of the chain. -/
def RmFileHandle.ChainFrom (s : RmFileHandle) : Int → List Int → Prop
  | p, [] => p = rmNoPage
  | p, n :: l => p = n ∧ n ≠ rmNoPage ∧
      ∃ x, s.currentPage n = some x ∧ s.ChainFrom x.nextFreePageNo l

/-- The counters count the bitmaps, the next page number is `num_pages`, and the chain of free pages
    lists each page that is not full once and no other page. -/
def RmFileHandle.Consistent (s : RmFileHandle) : Prop :=
  (∀ n, 1 ≤ n → n < s.fileHdr.numPages → ∃ x, s.currentPage n = some x ∧
    x.numRecords = Bitmap.count x s.fileHdr.numRecordsPerPage) ∧
  s.fileHdr.numPages = s.pool.disk.fd2pageno s.fd ∧
  ∃ chain, s.ChainFrom s.fileHdr.firstFreePageNo chain ∧ chain.Nodup ∧
    ∀ n, n ∈ chain ↔ 1 ≤ n ∧ n < s.fileHdr.numPages ∧
      ∃ x, s.currentPage n = some x ∧ x.numRecords < s.fileHdr.numRecordsPerPage

section

variable {s : RmFileHandle} {path : String} {others : List (Int × String)} {V : Int → PageData}
  {chain : List Int}

theorem currentPage_eq (h : Ready s path others V chain) {n : Int} (h1 : 1 ≤ n)
    (h2 : n < s.fileHdr.numPages) : s.currentPage n = some (V n) := by
  have hs := h.idle.safe n id h1 h2
  unfold RmFileHandle.currentPage
  cases hl : s.pool.pageTable.lookup ⟨s.fd, n⟩ with
  | some f =>
    rw [safe_of_lookup hl] at hs
    rw [← hs.1]
  | none =>
    rw [safe_of_uncached hl] at hs
    simp only [hs.2]

theorem chainFrom_of_freeChain {p : Int} {l : List Int} (h : FreeChain V p l)
    (hV : ∀ n ∈ l, s.currentPage n = some (V n)) : s.ChainFrom p l := by
  induction l generalizing p with
  | nil => exact h
  | cons n l ih =>
    obtain ⟨h1, h2, h3⟩ := h
    exact ⟨h1, h2, V n, hV n List.mem_cons_self,
      ih h3 fun k hk => hV k (List.mem_cons_of_mem _ hk)⟩

theorem ready_consistent (h : Ready s path others V chain) : s.Consistent := by
  refine ⟨fun n h1 h2 => ⟨V n, currentPage_eq h h1 h2, h.inv.count n h1 h2⟩, h.disk.counter.symm,
    chain, chainFrom_of_freeChain h.inv.isChain fun n hn => ?_, h.inv.nodup, fun n => ?_⟩
  · obtain ⟨h1, h2, -⟩ := (h.inv.mem n).mp hn
    exact currentPage_eq h h1 h2
  · rw [h.inv.mem n]
    constructor
    · rintro ⟨h1, h2, h3⟩
      exact ⟨h1, h2, V n, currentPage_eq h h1 h2, h3⟩
    · rintro ⟨h1, h2, x, hx, h3⟩
      rw [currentPage_eq h h1 h2] at hx
      rw [← Option.some.inj hx] at h3
      exact ⟨h1, h2, h3⟩

end

/-! ### The start -/

section Start

variable {path : String} {r : Int}

/-- `create_file` leaves a header on the disk and closes the file again. -/
theorem createFile_spec {d d' : DiskManager} (hfresh : FreshDisk d path)
    (hc : RmManager.createFile d path r = (.ok (), d')) :
    1 ≤ r ∧ r ≤ rmMaxRecordSize ∧ ∃ fd d₀, OpenFile d₀ fd path d.descriptors 0 ∧
      HdrStored d₀ path (RmFileHdr.create r.toNat) ∧ d₀.closeFile fd = (.ok (), d') := by
  unfold RmManager.createFile at hc
  split at hc
  · cases hc
  rename_i hr
  refine ⟨by omega, by omega, ?_⟩
  cases hfile : d.files path with
  | some file => simp [DiskManager.createFile, hfile] at hc
  | none =>
    cases hlow : lowestFree d.descriptors with
    | none =>
      simp [DiskManager.createFile, DiskManager.openFile, hfile, hfresh.path2fd, hlow] at hc
    | some fd =>
      -- the file is open and empty
      let d₁ : DiskManager := { d with
        files := Function.update d.files path (some ⟨0, fun _ => 0⟩)
        descriptors := (fd, path) :: d.descriptors
        path2fd := Function.update d.path2fd path (some fd)
        fd2path := Function.update d.fd2path fd (some path) }
      have hopen : OpenFile d₁ fd path d.descriptors 0 := by
        refine ⟨rfl, hlow, fun fd' hfd' => ?_, ⟨_, Function.update_self _ _ _⟩,
          Function.update_self _ _ _, Function.update_self _ _ _, hfresh.fd2pageno fd⟩
        obtain ⟨l₁, l₂, hl, -⟩ := List.lookup_eq_some_iff.mp hfd'
        exact hfresh.descriptors (fd', path) (by rw [hl]; simp) rfl
      obtain ⟨d₂, hw, hopen₂, hstored, -⟩ := hopen.writeHdr (RmFileHdr.create r.toNat)
      refine ⟨fd, d₂, hopen₂, hstored, ?_⟩
      have hcreate : d.createFile path = (.ok (), { d with
          files := Function.update d.files path (some ⟨0, fun _ => 0⟩) }) := by
        simp only [DiskManager.createFile, hfile]
      have hop : { d with files := Function.update d.files path (some ⟨0, fun _ => 0⟩) }.openFile
          path = (.ok fd, d₁) := by
        simp only [DiskManager.openFile, hfresh.path2fd, Function.update_self, hlow, d₁]
      rw [hcreate] at hc
      simp only [hop, hw] at hc
      obtain ⟨d₃, -, hclose, -⟩ := hopen₂.reopen
      rw [hclose] at hc ⊢
      exact Prod.ext rfl (Prod.mk.inj hc).2

/-- **The file starts empty.** -/
theorem TableStart.ready {t : TableState} (h : TableStart path r t) :
    ∃ s others V, t = ⟨.opened s, fun _ => none⟩ ∧ Ready s path others V [] ∧
      s.fileHdr = RmFileHdr.create r.toNat ∧ (s.fileHdr.recordSize : Int) = r ∧
      contents s.fileHdr V = fun _ => none := by
  obtain ⟨d, d', size, garbage, s, b, hfresh, hsize, hc, ho, rfl⟩ := h
  obtain ⟨h1, h2, fd, d₀, hopen, hstored, hclose⟩ := createFile_spec hfresh hc
  -- the handle `open_file` will return
  let s₀ : RmFileHandle := ⟨fd, RmFileHdr.create r.toNat,
    BufferPoolManager.new size garbage (d₀.setFd2pageno fd 1)⟩
  have hready : Ready s₀ path d.descriptors (fun _ => .zero) [] := by
    refine ⟨⟨RmFileHdr.create_fits (by omega) (by omega), Int.le_refl 1, fun n hn1 hn2 => ?_, rfl,
      List.nodup_nil, fun n => ?_⟩, ⟨⟨poolInv_new _ _ _, fun p f hp => ?_⟩, hsize, fun m f _ hm => ?_,
      fun f _ => rfl, fun p f hp => ?_, fun m _ hm1 hm2 => ?_⟩, ?_, (by decide : (1 : Int) ≤ maxPages)⟩
    · have hlt : n < 1 := hn2
      omega
    · refine ⟨fun hn => absurd hn List.not_mem_nil, fun ⟨hn1, hn2, _⟩ => ?_⟩
      have hlt : n < 1 := hn2
      omega
    · simp [s₀, BufferPoolManager.new] at hp
    · simp [s₀, BufferPoolManager.new] at hm
    · simp [s₀, BufferPoolManager.new] at hp
    · have hlt : m < 1 := hm2
      omega
    · exact ⟨hopen.descriptors, hopen.lowest, hopen.alone, hopen.file, hopen.path2fd, hopen.fd2path,
        Function.update_self _ _ _⟩
  have hclosed : Closed (BufferPoolManager.new size garbage d') path s₀ := by
    refine ⟨hstored, d', ?_, rfl⟩
    rw [← hclose]
    simp [s₀, BufferPoolManager.new, DiskManager.setFd2pageno, DiskManager.closeFile, hopen.fd2path]
  rw [openFile_spec hready hclosed] at ho
  have hs : s = s₀ := (Except.ok.inj (Prod.mk.inj ho).1).symm
  subst hs
  refine ⟨s₀, _, _, rfl, hready, rfl, ?_, funext fun rid => ?_⟩
  · show (r.toNat : Int) = r
    omega
  · unfold contents
    rw [if_neg]
    rintro ⟨hp1, hp2, -⟩
    have hlt : rid.pageNo < 1 := hp2
    omega

end Start

/-! ### The runs -/

/-- **The invariant of the runs.** -/
def TableInv (path : String) (r : Int) (t : TableState) : Prop :=
  ∃ s others V chain, Ready s path others V chain ∧ (s.fileHdr.recordSize : Int) = r ∧
    contents s.fileHdr V = t.records ∧
    match t.file with
    | .opened s' => s' = s
    | .closed b => Closed b path s

section Runs

variable {path : String} {r : Int}

theorem TableInv.step {t t' : TableState} {op : TableOp} (h : TableInv path r t)
    (hroom : RoomyStep t op) (hs : TableStep path r t op t') : TableInv path r t' := by
  obtain ⟨s₀, others, V, chain, hready, hsize, hrec, hfile⟩ := h
  cases hs with
  | @insert _ _ M buf lsn _ hbuf hrun =>
    -- each operation has its own specification over the pages
    cases hfile
    obtain ⟨rid, s', V', chain', hrun', hsize', hready', hmap⟩ :=
      insertRecord_spec hready (hroom _ rfl) (by omega : buf.length = _) lsn
    rw [hrun] at hrun'
    cases hrun'
    refine ⟨_, others, V', chain', hready', by rw [hsize', hsize], ?_, rfl⟩
    rw [(hready.inv.of_insert hmap).2, hrec]
  | @update _ _ M buf lsn _ _ hrid hbuf hrun =>
    cases hfile
    rw [← show _ = M from hrec] at hrid
    obtain ⟨s', V', hrun', hhdr, hready', hmap⟩ :=
      updateRecord_spec hready hrid (by omega : buf.length = _) lsn
    rw [hrun] at hrun'
    cases hrun'
    refine ⟨_, others, V', chain, hready', by rw [hhdr, hsize], ?_, rfl⟩
    have hcont := congrArg RecordMap.records hmap
    rw [← show _ = M from hrec]
    exact hcont
  | @delete _ _ M _ _ _ hrid hrun =>
    cases hfile
    rw [← show _ = M from hrec] at hrid
    obtain ⟨s', V', chain', hrun', hsize', hready', hmap⟩ := deleteRecord_spec hready hrid _
    rw [hrun] at hrun'
    cases hrun'
    refine ⟨_, others, V', chain', hready', by rw [hsize', hsize], ?_, rfl⟩
    have hcont := congrArg RecordMap.records hmap
    rw [← show _ = M from hrec]
    exact hcont
  | @get _ _ M _ _ _ hrid hrun =>
    cases hfile
    rw [← show _ = M from hrec] at hrid
    obtain ⟨s', hrun', hhdr, hready'⟩ := getRecord_spec hready hrid
    rw [hrun] at hrun'
    cases hrun'
    exact ⟨_, others, V, chain, hready', by rw [hhdr, hsize], by rw [hhdr]; exact hrec, rfl⟩
  | close hrun =>
    cases hfile
    obtain ⟨s', s₁, hrun', hhdr, hready', hclosed⟩ := closeFile_spec hready
    rw [hrun] at hrun'
    cases hrun'
    exact ⟨s₁, others, V, chain, hready', by rw [hhdr, hsize], by rw [hhdr]; exact hrec, hclosed⟩
  | reopen hrun =>
    rw [openFile_spec hready hfile] at hrun
    cases hrun
    exact ⟨_, others, V, chain, hready, hsize, hrec, rfl⟩

theorem roomyTableSystem_inv {t : TableState} (ht : (roomyTableSystem path r).Reachable t) :
    TableInv path r t := by
  refine ht.invariant (fun t h0 => ?_) (fun t op t' h hs => h.step hs.1 hs.2)
  obtain ⟨s, others, V, rfl, hready, -, hsize, hcont⟩ := TableStart.ready h0
  exact ⟨s, others, V, [], hready, hsize, hcont, rfl⟩

/-- The record ids of `n` pages of `m` slots are finitely many. -/
theorem exists_ridBox (n m : Int) : ∃ B : Finset Rid, ∀ (h : RmFileHdr) (V : Int → PageData)
    (rid : Rid) (buf : List UInt8), contents h V rid = some buf → h.numPages ≤ n →
      (h.numRecordsPerPage : Int) ≤ m → rid ∈ B := by
  refine ⟨((Finset.Ico 1 n) ×ˢ (Finset.Ico 0 m)).image fun p => ⟨p.1, p.2⟩,
    fun h V rid buf hc hn hm => ?_⟩
  obtain ⟨h1, h2, h3, h4, -⟩ := contents_eq_some hc
  refine Finset.mem_image.mpr
    ⟨(rid.pageNo, rid.slotNo), Finset.mem_product.mpr ⟨?_, ?_⟩, rfl⟩
  · exact Finset.mem_Ico.mpr ⟨h1, by omega⟩
  · exact Finset.mem_Ico.mpr ⟨by omega, by omega⟩

/-- An insert that needs page `2^19` throws: the flush of the new page finds no offset for it. -/
theorem insertRecord_without_room {s : RmFileHandle} {others : List (Int × String)}
    {V : Int → PageData} {chain : List Int} (h : Ready s path others V chain) (hno : ¬ HasRoom s)
    (buf : List UInt8) (lsn : Lsn) :
    ∃ s', insertRecord buf lsn s = (.error (.disk .unixError), s') := by
  have hfirst : s.fileHdr.firstFreePageNo = rmNoPage := by
    by_contra hne
    exact hno (Or.inl hne)
  have hpages : s.fileHdr.numPages = maxPages := by
    have hle := h.le
    have hlt : ¬ s.fileHdr.numPages < maxPages := fun hlt => hno (Or.inr hlt)
    omega
  obtain ⟨f, b₁, hv⟩ := h.idle.exists_victim
  have hnew := newPage_install lawful h.idle.ok s.fd hv
  have halloc : (ops.allocatePage s.pool.disk s.fd).1 = maxPages := h.disk.counter.trans hpages
  rw [halloc] at hnew
  have ht := h.idle.ok.inv.taken hv
  generalize hdisk : { s.pool with disk := (ops.allocatePage s.pool.disk s.fd).2 }.writeBack ops f =
    d at hnew
  have hlook := ht.lookup_install (p := ⟨s.fd, maxPages⟩) h.idle.ok.inv (h.idle.safeReuse f)
    (fun g hg => by
      have := (h.idle.cached _ g hg).2.2
      simp only at this
      omega) .zero d ⟨s.fd, maxPages⟩
  rw [if_pos rfl] at hlook
  generalize b₁.install f ⟨s.fd, maxPages⟩ .zero d = b₂ at hnew hlook
  let b₃ := b₂.setPage f
    { b₂.pages f with data := PageData.initPage s.fileHdr (b₂.pages f).data }
  have hflush : ∃ b₄, b₃.flushPage ops ⟨s.fd, maxPages⟩ = (.error .unixError, b₄) := by
    have hlook₃ : b₃.pageTable.lookup ⟨s.fd, maxPages⟩ = some f := hlook
    unfold BufferPoolManager.flushPage
    simp only [hlook₃, ops, DiskManager.writePage_maxPages]
    exact ⟨_, rfl⟩
  obtain ⟨b₄, hflush⟩ := hflush
  have hcreate : createPageHandle s = (.error (.disk .unixError), ⟨s.fd, s.fileHdr, b₄⟩) := by
    unfold createPageHandle
    rw [getFileHdr_bind, if_pos hfirst]
    unfold createNewPageHandle
    rw [RmM.bind_ok (onPool_ok hnew)]
    show initNewPage f _ _ = _
    unfold initNewPage
    rw [getFileHdr_bind]
    have hmod : modifyFrame f (PageData.initPage s.fileHdr) { s with pool := b₂ } =
        (.ok (), ⟨s.fd, s.fileHdr, b₃⟩) := rfl
    rw [RmM.bind_ok hmod, RmM.bind_error (onPool_error hflush)]
  refine ⟨⟨s.fd, s.fileHdr, b₄⟩, ?_⟩
  unfold insertRecord
  rw [RmM.bind_error hcreate]

end Runs

/-- **A record file refines a map from record ids to byte strings.** In every state of a run whose
    inserts all have room: the map is finite and its records have the record size; an insert with room
    returns a record id that is new and in range; `get_record` returns the record; updates, deletes,
    `close_file` and `open_file` succeed; and the pages are consistent.  An insert without room
    throws. -/
theorem recordFile_refines_map {path : String} {r : Int} {t : TableState}
    (ht : (roomyTableSystem path r).Reachable t) :
    {rid | t.records rid ≠ none}.Finite ∧ (∀ rid buf, t.records rid = some buf →
      (buf.length : Int) = r) ∧
    match t.file with
    | .closed b => ∃ s b', RmManager.openFile b path = (.ok s, b')
    | .opened s =>
      (∀ buf lsn, (buf.length : Int) = r → HasRoom s → ∃ rid s',
        insertRecord buf lsn s = (.ok rid, s') ∧ t.records rid = none ∧
        1 ≤ rid.pageNo ∧ rid.pageNo < s'.fileHdr.numPages ∧
        0 ≤ rid.slotNo ∧ rid.slotNo < s'.fileHdr.numRecordsPerPage) ∧
      (∀ buf lsn, ¬ HasRoom s → ∃ s', insertRecord buf lsn s = (.error (.disk .unixError), s')) ∧
      (∀ rid buf, t.records rid = some buf →
        (∃ s', getRecord rid s = (.ok buf, s')) ∧
        (∀ buf' lsn, (buf'.length : Int) = r → ∃ s', updateRecord rid buf' lsn s = (.ok (), s')) ∧
        ∀ lsn, ∃ s', deleteRecord rid lsn s = (.ok (), s')) ∧
      (∃ s', RmManager.closeFile s = (.ok (), s')) ∧ s.Consistent := by
  obtain ⟨s₀, others, V, chain, hready, hsize, hrec, hfile⟩ := roomyTableSystem_inv ht
  -- every record has the size of the header
  have hbuf : ∀ rid buf, t.records rid = some buf → (buf.length : Int) = r := by
    intro rid buf hrid
    rw [← hrec] at hrid
    obtain ⟨-, -, -, -, -, hslot⟩ := contents_eq_some hrid
    rw [← hslot, PageData.getSlot_length, hsize]
  -- the records lie in the slots of finitely many pages
  have hfinite : {rid | t.records rid ≠ none}.Finite := by
    obtain ⟨B, hB⟩ := exists_ridBox s₀.fileHdr.numPages s₀.fileHdr.numRecordsPerPage
    refine Set.Finite.subset B.finite_toSet fun rid hrid => ?_
    obtain ⟨buf, hbuf⟩ := Option.ne_none_iff_exists'.mp hrid
    rw [← hrec] at hbuf
    exact hB _ _ _ _ hbuf (Int.le_refl _) (Int.le_refl _)
  refine ⟨hfinite, hbuf, ?_⟩
  -- closed, the file can be opened again; opened, each operation does what the map does
  cases hf : t.file with
  | closed b =>
    rw [hf] at hfile
    exact ⟨s₀, _, openFile_spec hready hfile⟩
  | opened s =>
    rw [hf] at hfile
    cases hfile
    refine ⟨fun buf lsn hb hroom => ?_, fun buf lsn hno => insertRecord_without_room hready hno buf lsn,
      fun rid buf hrid => ⟨?_, fun buf' lsn hb => ?_, fun lsn => ?_⟩, ?_, ready_consistent hready⟩
    · obtain ⟨rid, s', V', chain', hrun, -, hready', hmap⟩ :=
        insertRecord_spec hready hroom (by omega : buf.length = _) lsn
      obtain ⟨hnone, hcont⟩ := hready.inv.of_insert hmap
      rw [hrec] at hnone
      have hsome : contents s'.fileHdr V' rid = some buf := by
        rw [hcont, Function.update_self]
      obtain ⟨h1, h2, h3, h4, -⟩ := contents_eq_some hsome
      exact ⟨rid, s', hrun, hnone, h1, h2, by omega, by omega⟩
    · rw [← hrec] at hrid
      obtain ⟨s', hrun, -⟩ := getRecord_spec hready hrid
      exact ⟨s', hrun⟩
    · rw [← hrec] at hrid
      obtain ⟨s', -, hrun, -⟩ := updateRecord_spec hready hrid (by omega : buf'.length = _) lsn
      exact ⟨s', hrun⟩
    · rw [← hrec] at hrid
      obtain ⟨s', -, -, hrun, -⟩ := deleteRecord_spec hready hrid lsn
      exact ⟨s', hrun⟩
    · obtain ⟨s', -, hrun, -⟩ := closeFile_spec hready
      exact ⟨s', hrun⟩

/-! ### Runs -/

/-- A disk without files; the process has its three standard descriptors. -/
def DiskManager.blank : DiskManager where
  files _ := none
  descriptors := [(0, "stdin"), (1, "stdout"), (2, "stderr")]
  path2fd _ := none
  fd2path _ := none
  fd2pageno _ := 0

/-- A file of 512-byte records can be created and opened on it. -/
theorem DiskManager.blank_start : ∃ s, TableStart "t" 512 ⟨.opened s, fun _ => none⟩ := by
  have hfresh : FreshDisk DiskManager.blank "t" :=
    ⟨rfl, fun _ => rfl, fun _ => rfl, by decide⟩
  exact ⟨_, DiskManager.blank, _, 1, fun _ => 0, _, _, hfresh, Nat.one_pos, rfl, rfl, rfl⟩

/-- The theorem at the state after the file has been created: the first insert succeeds. -/
theorem recordFile_refines_map_first_insert : ∃ s rid s',
    (roomyTableSystem "t" 512).Reachable ⟨.opened s, fun _ => none⟩ ∧
      insertRecord (List.replicate 512 7) 0 s = (.ok rid, s') ∧ rid.pageNo < s'.fileHdr.numPages := by
  obtain ⟨s, hs⟩ := DiskManager.blank_start
  have ht : (roomyTableSystem "t" 512).Reachable ⟨.opened s, fun _ => none⟩ := .init hs
  obtain ⟨-, -, hinsert, -⟩ := recordFile_refines_map ht
  have hroom : HasRoom s := by
    obtain ⟨_, _, _, heq, -, hhdr, -⟩ := TableStart.ready hs
    cases heq
    right
    rw [hhdr]
    decide
  obtain ⟨rid, s', hrun, -, -, hlt, -⟩ := hinsert (List.replicate 512 7) 0
    (by rw [List.length_replicate]; rfl) hroom
  exact ⟨s, rid, s', ht, hrun, hlt⟩

/-- A run with room is a run. -/
theorem roomyTableSystem_reachable {path : String} {r : Int} {t : TableState}
    (ht : (roomyTableSystem path r).Reachable t) : (tableSystem path r).Reachable t := by
  induction ht with
  | init h => exact .init h
  | step _ hs ih => exact .step ih hs.2

/-- Inserting again and again, one either runs out of room or has as many records as one likes. -/
theorem exists_full_or_many {path : String} {r : Nat} {s₀ : RmFileHandle}
    (hs : TableStart path r ⟨.opened s₀, fun _ => none⟩) (k : Nat) :
    ∃ s M, (roomyTableSystem path r).Reachable ⟨.opened s, M⟩ ∧
      (¬ HasRoom s ∨ ∃ l : List Rid, l.Nodup ∧ l.length = k ∧ ∀ rid ∈ l, M rid ≠ none) := by
  induction k with
  | zero => exact ⟨s₀, _, .init hs, Or.inr ⟨[], List.nodup_nil, rfl, by simp⟩⟩
  | succ k ih =>
    obtain ⟨s, M, ht, hno | ⟨l, hnd, hlen, hl⟩⟩ := ih
    · exact ⟨s, M, ht, Or.inl hno⟩
    · by_cases hroom : HasRoom s
      · obtain ⟨_, others, V, chain, hready, hsize, hrec, rfl⟩ := roomyTableSystem_inv ht
        have hbuf : (List.replicate r (0 : UInt8)).length = s.fileHdr.recordSize := by
          rw [List.length_replicate]
          omega
        obtain ⟨rid, s', _, _, hrun, -, -, hmap⟩ := insertRecord_spec hready hroom hbuf 0
        have hnone' : M rid = none := by
          rw [← show _ = M from hrec]
          exact (hready.inv.of_insert hmap).1
        have hroomy : RoomyStep ⟨.opened s, M⟩ (.insert (List.replicate r 0) 0) := by
          intro s₁ hs₁
          cases hs₁
          exact hroom
        refine ⟨s', _, .step ht ⟨hroomy, .insert (by rw [List.length_replicate]) hrun⟩,
          Or.inr ⟨rid :: l, List.nodup_cons.mpr ⟨fun hin => hl rid hin hnone', hnd⟩,
            by rw [List.length_cons, hlen], fun rid' hrid' => ?_⟩⟩
        by_cases heq : rid' = rid
        · rw [heq, Function.update_self]
          exact Option.some_ne_none _
        · rw [Function.update_of_ne heq]
          exact hl rid' ((List.mem_cons.mp hrid').resolve_left heq)
      · exact ⟨s, M, ht, Or.inl hroom⟩

/-- **A file of 512-byte records reaches a state where `insert_record` throws** instead of returning a
    record id: the file has `2^19` pages, all full, and the offset of the next page overflows. -/
theorem insertRecord_fails_at_maxPages : ∃ s M,
    (tableSystem "t" 512).Reachable ⟨.opened s, M⟩ ∧ s.fileHdr.numPages = maxPages ∧
      ∀ buf lsn, ∃ s', insertRecord buf lsn s = (.error (.disk .unixError), s') := by
  obtain ⟨s₀, hs₀⟩ := DiskManager.blank_start
  obtain ⟨B, hB⟩ := exists_ridBox maxPages 32768
  -- more records than a file with addressable pages can have
  obtain ⟨s, M, ht, hcase⟩ := exists_full_or_many (r := 512) hs₀ (B.card + 1)
  obtain ⟨_, others, V, chain, hready, -, hrec, rfl⟩ := roomyTableSystem_inv ht
  have hno : ¬ HasRoom s := by
    rcases hcase with hno | ⟨l, hnd, hlen, hl⟩
    · exact hno
    · have hsub : l.toFinset ⊆ B := by
        intro rid hrid
        obtain ⟨buf, hbuf⟩ := Option.ne_none_iff_exists'.mp (hl rid (List.mem_toFinset.mp hrid))
        rw [← show _ = M from hrec] at hbuf
        have hslots := hready.inv.fits.slots_lt
        exact hB _ _ _ _ hbuf hready.le (by omega)
      have hcard := Finset.card_le_card hsub
      rw [List.toFinset_card_of_nodup hnd, hlen] at hcard
      omega
  refine ⟨s, M, roomyTableSystem_reachable ht, ?_, fun buf lsn => ?_⟩
  · have hle := hready.le
    have hlt : ¬ s.fileHdr.numPages < maxPages := fun hlt => hno (Or.inr hlt)
    omega
  · exact insertRecord_without_room hready hno buf lsn

end Rmdb
