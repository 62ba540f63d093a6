import Rmdb.System.Database

namespace Rmdb

open Lib

/-!
# What holds while a database is in use

Every table's cached pages, header page and in-memory header agree, over every run of statements, and
the catalog lists the open tables.

* `SmStore.Access` — what a page access of one table does to the others;
* `Database.Inv` — what holds between the statements;
* `Database.SafeStep` — a file is not opened under a descriptor that still has cached pages, and a
  frame is not reused while its old page is cached in another frame;
* `Database.Inv.step`, `safeDatabase_inv` — safe steps keep the invariant.
-/

namespace SmStore

variable {s s' : SmStore} {f v : FrameId} {p : PageId} {n : Int} {path name : String}
  {h : FileHandle} {hdr : List UInt8}

/-! ### What a page access leaves alone -/

/-- The catalog and the handles are the same. -/
structure SameHandles (s s' : SmStore) : Prop where
  tabs : s'.tabs = s.tabs
  fhs : s'.fhs = s.fhs
  ihs : s'.ihs = s.ihs

theorem SameHandles.refl (s : SmStore) : SameHandles s s := ⟨rfl, rfl, rfl⟩

/-- Two steps that keep the handles. -/
theorem SameHandles.trans {s'' : SmStore} (h₁ : SameHandles s s') (h₂ : SameHandles s' s'') :
    SameHandles s s'' :=
  ⟨h₂.tabs.trans h₁.tabs, h₂.fhs.trans h₁.fhs, h₂.ihs.trans h₁.ihs⟩

/-- A page read into a frame leaves the handles alone. -/
theorem loadFrame_handles (s : SmStore) (v : FrameId) (p : PageId) (x : PageImage) :
    SameHandles s (s.loadFrame v p x) := by
  obtain ⟨files, frames, table, heq⟩ := s.dropFrame_frame v
  unfold SmStore.loadFrame
  rw [heq]
  exact ⟨rfl, rfl, rfl⟩

/-- `fetch_page` leaves the handles alone. -/
theorem fetchPage_handles (hr : s.fetchPage p v = some (f, s')) : SameHandles s s' := by
  obtain ⟨-, rfl⟩ | ⟨-, rfl, path, file, -, rfl⟩ := fetchPage_eq hr
  · exact ⟨rfl, rfl, rfl⟩
  · exact s.loadFrame_handles f p _

/-- `new_page` leaves the handles alone. -/
theorem newPage_handles {fd : Int} (hr : s.newPage fd v = some (f, p, s')) : SameHandles s s' := by
  obtain ⟨rfl, rfl, path, file, -, rfl⟩ := newPage_eq_load hr
  have hset : SameHandles s (s.setFd2pageno fd (s.fd2pageno fd + 1)) := ⟨rfl, rfl, rfl⟩
  exact hset.trans (loadFrame_handles _ f _ _)

/-- `unpin_page` leaves the handles alone. -/
theorem unpinPage_handles (s : SmStore) (p : PageId) (d : Bool) : SameHandles s (s.unpinPage p d) := by
  unfold SmStore.unpinPage
  split
  · exact .refl s
  · split
    · exact .refl s
    · exact ⟨rfl, rfl, rfl⟩

/-- So does writing a frame back. -/
theorem writeFrame_handles (s : SmStore) (f : FrameId) (p : PageId) :
    SameHandles s (s.writeFrame f p) := by
  obtain ⟨files, frames, heq⟩ := s.writeFrame_frame f p
  rw [heq]
  exact ⟨rfl, rfl, rfl⟩

/-- `flush_page` leaves the handles alone. -/
theorem flushPage_handles (s : SmStore) (p : PageId) : SameHandles s (s.flushPage p) := by
  unfold SmStore.flushPage
  split
  · exact .refl s
  · exact s.writeFrame_handles _ p

/-- `delete_page` leaves the handles alone. -/
theorem deletePage_handles (s : SmStore) (p : PageId) : SameHandles s (s.deletePage p) := by
  unfold SmStore.deletePage
  split
  · exact .refl s
  · next f _ =>
    split
    · obtain ⟨files, frames, table, heq⟩ := s.dropFrame_frame f
      rw [heq]
      exact ⟨rfl, rfl, rfl⟩
    · exact .refl s

/-- So do writes to the files. -/
theorem writeBytes_handles (s : SmStore) (p : PageId) (bytes : List UInt8) :
    SameHandles s (s.writeBytes p bytes) := by
  obtain ⟨files, heq⟩ := s.writeBytes_frame p bytes
  rw [heq]
  exact ⟨rfl, rfl, rfl⟩

/-- So do changes of a cached page. -/
theorem changePage_handles (s : SmStore) (f : FrameId) (bytes : List UInt8) :
    SameHandles s (s.changePage f bytes) := ⟨rfl, rfl, rfl⟩

/-- What a page access of the table open under `h` does to the rest. -/
structure Access (s s' : SmStore) (h : FileHandle) : Prop where
  inv : s'.Inv
  pins : s'.PinsOk
  handles : SameHandles s s'
  others : ∀ name x hdr, x.fd ≠ h.fd → s.TableOk name x hdr none → s'.TableOk name x hdr none

/-- A change of a page in its frame keeps the invariant of the files. -/
theorem Inv.changePage (hi : s.Inv) (f : FrameId) (bytes : List UInt8) :
    (s.changePage f bytes).Inv :=
  hi.setFrame rfl ⟨rfl, rfl⟩ .inl

/-- It keeps the pins. -/
theorem PinsOk.changePage (hp : s.PinsOk) (f : FrameId) (bytes : List UInt8) :
    (s.changePage f bytes).PinsOk :=
  hp.setFrame (hp f)

/-- Reading a page of the table keeps the table. -/
theorem TableOk.readTablePage (ht : s.TableOk name h hdr none) (hi : s.Inv) (hp : s.PinsOk)
    (hn : 1 ≤ n ∧ n < s.fd2pageno h.fd) (hsafe : s.pageTable ⟨h.fd, n⟩ = none → s.SafeReuse v)
    {isDirty : Bool} (hr : s.readTablePage h n v isDirty = some s') :
    Access s s' h ∧ s'.TableOk name h hdr none := by
  unfold SmStore.readTablePage at hr
  split at hr
  · cases hr
  · next f s₁ hfetch =>
    cases hr
    have hi₁ := (hi.fetchPage hfetch).1
    refine ⟨⟨hi₁.unpinPage _ _, (hp.fetchPage hfetch).1.unpinPage _ _,
      (fetchPage_handles hfetch).trans (s₁.unpinPage_handles _ _), fun name x hdr hx hx' => ?_⟩, ?_⟩
    · exact (hx'.other_fetch hi (Ne.symm hx) hsafe hfetch).unpin hi₁ _ _
    · exact (ht.fetch hi hn hsafe hfetch).1.unpin hi₁ _ _

/-- Writing a page of the table keeps the table. -/
theorem TableOk.writeTablePage (ht : s.TableOk name h hdr none) (hi : s.Inv) (hp : s.PinsOk)
    (hn : 1 ≤ n ∧ n < s.fd2pageno h.fd) (hsafe : s.pageTable ⟨h.fd, n⟩ = none → s.SafeReuse v)
    {bytes : List UInt8} (hr : s.writeTablePage h n v bytes = some s') :
    Access s s' h ∧ s'.TableOk name h hdr none := by
  unfold SmStore.writeTablePage at hr
  split at hr
  · cases hr
  · next f s₁ hfetch =>
    cases hr
    have hi₁ := (hi.fetchPage hfetch).1
    have hi₂ := hi₁.changePage f bytes
    obtain ⟨hp₁, hpin⟩ := hp.fetchPage hfetch
    obtain ⟨ht₁, hmap⟩ := ht.fetch hi hn hsafe hfetch
    refine ⟨⟨hi₂.unpinPage _ _, (hp₁.changePage f bytes).unpinPage _ _, ?_,
      fun name x hdr hx hx' => ?_⟩, ?_⟩
    · exact (fetchPage_handles hfetch).trans
        ((s₁.changePage_handles f bytes).trans (unpinPage_handles _ _ _))
    · have hid : (s₁.frames f).id.fd ≠ x.fd := by
        rw [hi₁.mapped _ _ hmap]
        exact Ne.symm hx
      have h₁ := hx'.other_fetch hi (Ne.symm hx) hsafe hfetch
      exact (h₁.other_change hi₁ hid _).unpin hi₂ _ _
    · have h₂ : (s₁.changePage f bytes).TableOk name h hdr (some n) :=
        ht₁.change hi₁ hmap (fun m hm => by cases hm) _
      refine h₂.unpin_dirty hi₂ hmap ?_
      have heq : ((s₁.changePage f bytes).frames f).pinCount = (s₁.frames f).pinCount := by
        simp [SmStore.changePage]
      omega

/-- Writing a frame back changes neither page table nor pins. -/
theorem writeFrame_pool (s : SmStore) (f : FrameId) (p : PageId) :
    (s.writeFrame f p).pageTable = s.pageTable ∧
      ∀ g, ((s.writeFrame f p).frames g).pinCount = (s.frames g).pinCount := by
  obtain ⟨files, heq⟩ := s.writePage_frame p (s.frames f).page
  unfold SmStore.writeFrame
  rw [heq]
  refine ⟨rfl, fun g => ?_⟩
  by_cases hg : g = f
  · subst hg
    simp
  · simp [hg]

/-- A new page of the table, with the header that counts it. -/
theorem TableOk.newTablePage (ht : s.TableOk name h hdr none) (hi : s.Inv) (hp : s.PinsOk)
    (hsafe : s.SafeReuse v) {init bytes hdr' : List UInt8}
    (hr : s.newTablePage h v init bytes hdr' = some s') :
    Access s s' h ∧ s'.TableOk name h hdr' none := by
  unfold SmStore.newTablePage at hr
  split at hr
  · cases hr
  · next f p s₁ hnew =>
    cases hr
    obtain ⟨rfl, ht₁, hmap⟩ := ht.new hi hsafe hnew
    have hi₁ := (hi.newPage hnew).1
    obtain ⟨hp₁, hpin⟩ := hp.newPage hnew
    -- the page is initialised and written
    have hi₂ := hi₁.changePage f init
    have hflush : (s₁.changePage f init).flushPage ⟨h.fd, s.fd2pageno h.fd⟩ =
        (s₁.changePage f init).writeFrame f ⟨h.fd, s.fd2pageno h.fd⟩ := by
      unfold SmStore.flushPage
      rw [show (s₁.changePage f init).pageTable ⟨h.fd, s.fd2pageno h.fd⟩ = some f from hmap]
    have ht₂ : (s₁.changePage f init).TableOk name h hdr (some (s.fd2pageno h.fd)) :=
      ht₁.change hi₁ hmap (fun m hm => (Option.some.inj hm).symm) _
    have ht₃ := ht₂.flush hi₂ hmap fun m hm => (Option.some.inj hm).symm
    have hi₃ := hi₂.flushPage ⟨h.fd, s.fd2pageno h.fd⟩
    have hp₃ := (hp₁.changePage f init).flushPage ⟨h.fd, s.fd2pageno h.fd⟩
    have hpool := writeFrame_pool (s₁.changePage f init) f ⟨h.fd, s.fd2pageno h.fd⟩
    rw [← hflush] at ht₃ hpool
    generalize hs₃ : (s₁.changePage f init).flushPage ⟨h.fd, s.fd2pageno h.fd⟩ = s₃ at *
    -- the header is written
    have hi₄ := hi₃.writeBytes ⟨h.fd, 0⟩ hdr'
    obtain ⟨files, hbytes⟩ := s₃.writeBytes_frame ⟨h.fd, 0⟩ hdr'
    have ht₄ := ht₃.writeHdr hdr'
    have hmap₄ : (s₃.writeBytes ⟨h.fd, 0⟩ hdr').pageTable ⟨h.fd, s.fd2pageno h.fd⟩ = some f := by
      rw [hbytes]
      exact (congrFun hpool.1 _).trans hmap
    have hpin₄ : 0 < ((s₃.writeBytes ⟨h.fd, 0⟩ hdr').frames f).pinCount := by
      have heq : ((s₃.writeBytes ⟨h.fd, 0⟩ hdr').frames f).pinCount = (s₁.frames f).pinCount := by
        rw [hbytes]
        exact (hpool.2 f).trans (by simp [SmStore.changePage])
      omega
    have hp₄ : (s₃.writeBytes ⟨h.fd, 0⟩ hdr').PinsOk := by
      rw [hbytes]
      exact hp₃
    have hhandles : SameHandles s (s₃.writeBytes ⟨h.fd, 0⟩ hdr') := by
      refine ((newPage_handles hnew).trans (s₁.changePage_handles f init)).trans ?_
      rw [← hs₃]
      exact (flushPage_handles _ _).trans (writeBytes_handles _ _ _)
    have hothers : ∀ name x hdr, x.fd ≠ h.fd → s.TableOk name x hdr none →
        (s₃.writeBytes ⟨h.fd, 0⟩ hdr').TableOk name x hdr none := by
      intro name x hdr hx hx'
      have hid : (s₁.frames f).id.fd ≠ x.fd := by
        rw [hi₁.mapped _ _ hmap]
        exact Ne.symm hx
      have h₁ := (hx'.other_new hi (Ne.symm hx) hsafe hnew).other_change hi₁ hid
        { (s₁.frames f).page with bytes := init }
      have h₂ := TableOk.flushPage h₁ hi₂ ⟨h.fd, s.fd2pageno h.fd⟩
      have h₃ : s₃.TableOk name x hdr none := by
        rw [← hs₃]
        exact h₂
      exact h₃.other_writeBytes (Ne.symm hx) hdr'
    generalize s₃.writeBytes ⟨h.fd, 0⟩ hdr' = s₄ at *
    -- the record is put into the page
    have hi₅ := hi₄.changePage f bytes
    refine ⟨⟨hi₅.unpinPage _ _, (hp₄.changePage f bytes).unpinPage _ _,
      hhandles.trans ((s₄.changePage_handles f bytes).trans (unpinPage_handles _ _ _)),
      fun name x hdr hx hx' => ?_⟩, ?_⟩
    · have hid : (s₄.frames f).id.fd ≠ x.fd := by
        rw [hi₄.mapped _ _ hmap₄]
        exact Ne.symm hx
      exact ((hothers name x hdr hx hx').other_change hi₄ hid _).unpin hi₅ _ _
    · have h₅ : (s₄.changePage f bytes).TableOk name h hdr' (some (s.fd2pageno h.fd)) :=
        ht₄.change hi₄ hmap₄ (fun m hm => by cases hm) _
      refine h₅.unpin_dirty hi₅ hmap₄ ?_
      have heq : ((s₄.changePage f bytes).frames f).pinCount = (s₄.frames f).pinCount := by
        simp [SmStore.changePage]
      omega

/-! ### Statements that create and drop files -/

/-- Creating and opening a file changes no frame. -/
theorem createAndOpen_frame {pages : List (Int × List UInt8)} {x : FileHandle}
    (hr : s.createAndOpen path pages n = some (x, s')) :
    s.files path = none ∧ SameHandles s s' ∧ s'.frames = s.frames := by
  obtain ⟨s₁, y, s₂, s₃, hcreate, hopen, hreopen, rfl⟩ := createAndOpen_eq hr
  obtain ⟨hnone, files, k, rfl⟩ := createFile_frame hcreate
  obtain ⟨-, -, rfl⟩ := openFile_eq hopen
  obtain ⟨-, -, rfl⟩ := openFile_eq hreopen
  obtain ⟨files', heq⟩ := foldl_writeBytes_frame
    { s with
      files := files
      nextFile := k
      descriptors := (y.fd, path) :: s.descriptors } y.fd pages
  rw [heq]
  exact ⟨hnone, ⟨rfl, rfl, rfl⟩, rfl⟩

/-- `create_table` throws and changes nothing, or creates the table. -/
theorem createTable_cases (s : SmStore) (tab : String) (cols : List ColMeta) (hdr : List UInt8) :
    s.createTable tab cols hdr = s ∨
    (s.tabs tab = none ∧ ∃ x s', s.createAndOpen tab [(0, hdr)] 1 = some (x, s') ∧
      s.createTable tab cols hdr = { s' with
        tabs := Function.update s'.tabs tab (some { name := tab, cols := cols, indexes := [] })
        fhs := Function.update s'.fhs tab (some x) }) := by
  unfold SmStore.createTable
  split
  · exact .inl rfl
  · next hno =>
    split
    · exact .inl rfl
    · split
      · exact .inl rfl
      · next x s' hr => exact .inr ⟨by simpa using hno, x, s', hr, rfl⟩

/-- Nor does the file that a failed `create_index` leaves behind. -/
theorem leakIndexFile_frame (s : SmStore) (path : String) :
    SameHandles s (s.leakIndexFile path) ∧ (s.leakIndexFile path).frames = s.frames := by
  unfold SmStore.leakIndexFile
  split
  · exact ⟨.refl s, rfl⟩
  · next s₁ hcreate =>
    obtain ⟨-, files, k, rfl⟩ := createFile_frame hcreate
    split
    · exact ⟨⟨rfl, rfl, rfl⟩, rfl⟩
    · next hopen =>
      obtain ⟨-, -, rfl⟩ := openFile_eq hopen
      exact ⟨⟨rfl, rfl, rfl⟩, rfl⟩

/-- That file is none of the table's. -/
theorem TableOk.leakIndexFile (ht : s.TableOk name h hdr none) (path : String) :
    (s.leakIndexFile path).TableOk name h hdr none := by
  unfold SmStore.leakIndexFile
  split
  · exact ht
  · next hcreate =>
    split
    · exact ht.createFile hcreate
    · next hopen => exact (ht.createFile hcreate).openFile hopen

/-- `create_index` changes nothing, leaves a file behind, or creates the index. -/
theorem createIndex_cases (s : SmStore) (tab : String) (names : List String)
    (hdr leafHdr root : List UInt8) :
    s.createIndex tab names hdr leafHdr root = s ∨
    s.createIndex tab names hdr leafHdr root = s.leakIndexFile (getIndexName tab names) ∨
    ∃ info x s' pages, s.tabs tab = some info ∧
      s.createAndOpen (getIndexName tab names) pages 3 = some (x, s') ∧
      s.createIndex tab names hdr leafHdr root = { s' with
        tabs := Function.update s'.tabs tab (some { info with
          indexes := info.indexes ++ [IndexMeta.create (indexCols info.cols names)] })
        ihs := Function.update s'.ihs (getIndexName tab names) (some x) } := by
  unfold SmStore.createIndex
  simp only
  split
  · exact .inl rfl
  · split
    · exact .inl rfl
    · next info hinfo =>
      split
      · exact .inl rfl
      · split
        · exact .inr (.inl rfl)
        · split
          · exact .inl rfl
          · next x s' hr => exact .inr (.inr ⟨info, x, s', _, hinfo, hr, rfl⟩)

/-- The columns of an index are columns of its table. -/
theorem mem_of_mem_indexCols {cols : List ColMeta} {names : List String} {c : ColMeta}
    (hc : c ∈ indexCols cols names) : c ∈ cols := by
  obtain ⟨y, -, hy⟩ := List.mem_flatMap.mp hc
  exact List.mem_of_mem_filter hy

/-- `drop_index` throws and changes nothing, or takes the index out of the catalog, and closes it if
    there is a handle. -/
theorem dropIndex_cases (s : SmStore) (tab : String) (names : List String) (hdr : List UInt8)
    (ps : List PageId) :
    s.dropIndex tab names hdr ps = s ∨ ∃ info index, s.tabs tab = some info ∧
      (s.dropIndex tab names hdr ps = { s with
        tabs := Function.update s.tabs tab
          (some { info with indexes := info.indexes.erase index }) } ∨
      ∃ x, s.ihs (getIndexName tab names) = some x ∧
        s.dropIndex tab names hdr ps =
          let s₁ := { s with
            tabs := Function.update s.tabs tab
              (some { info with indexes := info.indexes.erase index }) }.closeAndDestroy x.fd
            (getIndexName tab names) hdr ps
          { s₁ with ihs := Function.update s₁.ihs (getIndexName tab names) none }) := by
  unfold SmStore.dropIndex
  split
  · exact .inl rfl
  · next info hinfo =>
    split
    · exact .inl rfl
    · next index _ =>
      refine .inr ⟨info, index, hinfo, ?_⟩
      simp only
      split
      · exact .inl rfl
      · next x hih => exact .inr ⟨x, hih, rfl⟩

/-- Closing a file writes its pages back and keeps handles and pins. -/
theorem closeAndDestroy_frame (s : SmStore) (fd : Int) (path : String) (hdr : List UInt8)
    (ps : List PageId) :
    SameHandles s (s.closeAndDestroy fd path hdr ps) ∧
      (s.PinsOk → (s.closeAndDestroy fd path hdr ps).PinsOk) := by
  obtain ⟨files, hbytes⟩ := s.writeBytes_frame ⟨fd, 0⟩ hdr
  have hpins : ∀ {s : SmStore} (ps : List PageId), s.PinsOk → (s.flushAllPages ps).PinsOk := by
    intro s ps hp
    induction ps generalizing s with
    | nil => exact hp
    | cons p ps ih => exact ih (hp.flushPage p)
  obtain ⟨files', frames', hflush⟩ := (s.writeBytes ⟨fd, 0⟩ hdr).flushAllPages_frame ps
  have hdestroy : ∀ (s : SmStore), SameHandles s (s.destroyFile path) ∧
      (s.destroyFile path).frames = s.frames := by
    intro s
    unfold SmStore.destroyFile
    split
    · exact ⟨.refl s, rfl⟩
    · exact ⟨⟨rfl, rfl, rfl⟩, rfl⟩
  have hend := hdestroy (((s.writeBytes ⟨fd, 0⟩ hdr).flushAllPages ps).closeFile fd)
  refine ⟨?_, fun hp f => ?_⟩
  · refine SameHandles.trans ?_ hend.1
    rw [hflush, hbytes]
    exact ⟨rfl, rfl, rfl⟩
  · show 0 ≤ ((((s.writeBytes ⟨fd, 0⟩ hdr).flushAllPages ps).closeFile fd).destroyFile
      path |>.frames f).pinCount
    rw [hend.2]
    refine hpins ps ?_ f
    rw [hbytes]
    exact hp

/-- Taking pages out of the pool keeps the pins. -/
theorem deleteAllPage_pins (hp : s.PinsOk) (ps : List PageId) : (s.deleteAllPage ps).PinsOk := by
  induction ps generalizing s with
  | nil => exact hp
  | cons p ps ih => exact ih (hp.deletePage p)

/-- It leaves the handles alone. -/
theorem deleteAllPage_handles (s : SmStore) (ps : List PageId) :
    SameHandles s (s.deleteAllPage ps) := by
  induction ps generalizing s with
  | nil => exact .refl s
  | cons p ps ih => exact (s.deletePage_handles p).trans (ih _)

end SmStore

namespace Database

variable {d d' : Database}

/-! ### The invariant -/

/-- The catalog: tables are open, and the names are those of the parser. -/
structure CatalogOk (d : Database) : Prop where
  handles : ∀ tab, d.store.tabs tab ≠ none ↔ d.store.fhs tab ≠ none
  keys : ∀ tab, tab ∈ d.keys ↔ d.store.tabs tab ≠ none
  name : IsToken d.name
  named : ∀ tab info, d.store.tabs tab = some info → info.name = tab ∧ isIdent tab = true ∧
    (∀ c ∈ info.cols, isIdent c.name = true) ∧
    ∀ i ∈ info.indexes, ∀ c ∈ i.cols, isIdent c.name = true

/-- **What holds between the statements.** -/
structure Inv (d : Database) : Prop where
  store : d.store.Inv
  pins : d.store.PinsOk
  tables : ∀ tab h, d.store.fhs tab = some h → d.store.TableOk tab h (d.hdrs tab) none
  catalog : d.CatalogOk

/-- The invariant holds of a new database. -/
theorem Initial.inv (h : d.Initial) : d.Inv where
  store := h.store.inv
  pins := h.pins
  tables tab x hx := by simp [h.store.fhs tab] at hx
  catalog := by
    refine ⟨fun tab => ?_, fun tab => ?_, h.name, fun tab info hinfo => ?_⟩
    · simp [h.store.tabs tab, h.store.fhs tab]
    · simp [h.store.tabs tab, h.keys]
    · simp [h.store.tabs tab] at hinfo

/-- Two tables have two descriptors. -/
theorem Inv.fd_ne (hd : d.Inv) {a b : String} {x y : FileHandle} (hx : d.store.fhs a = some x)
    (hy : d.store.fhs b = some y) (hab : a ≠ b) : x.fd ≠ y.fd := by
  intro heq
  have hla := (hd.tables a x hx).opened
  rw [heq, (hd.tables b y hy).opened] at hla
  exact hab (Option.some.inj hla).symm

/-- A table and an index have two descriptors. -/
theorem Inv.fd_ne_index (hd : d.Inv) {a b : String} {x y : FileHandle} (hx : d.store.fhs a = some x)
    (hy : d.store.ihs b = some y) : x.fd ≠ y.fd := by
  intro heq
  have hla := (hd.tables a x hx).opened
  rw [heq, (hd.store.handles b y (.inr hy)).1] at hla
  have hab := Option.some.inj hla
  subst hab
  rcases hd.store.apart b with hno | hno
  · rw [hno] at hx
    cases hx
  · rw [hno] at hy
    cases hy

/-- The catalog is the same. -/
theorem CatalogOk.congr (hc : d.CatalogOk) {s : SmStore} (hs : SmStore.SameHandles d.store s)
    (hdrs ixHdrs : String → List UInt8) (indexed : String → String → Bool) :
    ({ d with store := s, hdrs := hdrs, ixHdrs := ixHdrs, indexed := indexed } : Database).CatalogOk := by
  obtain ⟨htabs, hfhs, -⟩ := hs
  refine ⟨fun tab => ?_, fun tab => ?_, hc.name, fun tab info hinfo => ?_⟩
  · simp only [htabs, hfhs]
    exact hc.handles tab
  · simp only [htabs]
    exact hc.keys tab
  · simp only [htabs] at hinfo
    exact hc.named tab info hinfo

/-! ### Page accesses -/

/-- An access to a table, which may have a new header then. -/
theorem Inv.access (hd : d.Inv) {tab : String} {x : FileHandle} (hx : d.store.fhs tab = some x)
    {s : SmStore} (ha : SmStore.Access d.store s x) {hdr : List UInt8}
    (ht : s.TableOk tab x hdr none) :
    ({ d with store := s, hdrs := Function.update d.hdrs tab hdr } : Database).Inv := by
  refine ⟨ha.inv, ha.pins, fun tab' x' hx' => ?_, hd.catalog.congr ha.handles _ _ _⟩
  simp only [ha.handles.fhs] at hx'
  by_cases htab : tab' = tab
  · subst htab
    obtain rfl : x' = x := Option.some.inj (hx'.symm.trans hx)
    simpa using ht
  · simp only [Function.update_of_ne htab]
    exact ha.others tab' x' _ (hd.fd_ne hx' hx htab) (hd.tables tab' x' hx')

/-- The same with the old header. -/
theorem Inv.access_same (hd : d.Inv) {tab : String} {x : FileHandle} (hx : d.store.fhs tab = some x)
    {s : SmStore} (ha : SmStore.Access d.store s x) (ht : s.TableOk tab x (d.hdrs tab) none) :
    ({ d with store := s } : Database).Inv := by
  have hinv := hd.access hx ha ht
  rwa [Function.update_eq_self] at hinv

/-- An access to an index. -/
theorem Inv.index (hd : d.Inv) {s : SmStore} (hi : s.Inv) (hp : s.PinsOk)
    (hs : SmStore.SameHandles d.store s)
    (ht : ∀ tab x, d.store.fhs tab = some x → s.TableOk tab x (d.hdrs tab) none) :
    ({ d with store := s } : Database).Inv := by
  refine ⟨hi, hp, fun tab x hx => ?_, hd.catalog.congr hs _ _ _⟩
  simp only [hs.fhs] at hx
  exact ht tab x hx

/-- A frame is reused only if its old page is not cached in another frame, and a file is opened only
    under a descriptor without cached pages. -/
def SafeStep (d : Database) : DbStep → Prop
  | .createTable tab _ => d.store.files tab = none → d.store.Purged
  | .createIndex tab names _ _ _ =>
    d.store.files (getIndexName tab names) = none → d.store.Purged
  | .readPage tab n v _ | .writePage tab n v _ =>
    ∀ h, d.store.fhs tab = some h → d.store.pageTable ⟨h.fd, n⟩ = none → d.store.SafeReuse v
  | .newPage _ v _ _ _ => d.store.SafeReuse v
  | .index (.fetchPage h n v) => d.store.pageTable ⟨h.fd, n⟩ = none → d.store.SafeReuse v
  | .index (.newPage _ v) => d.store.SafeReuse v
  | _ => True

/-- Accesses to the pages of an index keep it. -/
theorem Inv.indexStep (hd : d.Inv) {a : SmStep} (hsafe : d.SafeStep (.index a))
    (ha : d.store.IndexAccess a) {s : SmStore} (hr : d.store.Step a s) :
    ({ d with store := s } : Database).Inv := by
  have hi : s.Inv := by
    refine hd.store.step ?_ hr
    cases a with
    | createTable => exact ha.elim
    | createIndex => exact ha.elim
    | _ => trivial
  cases a with
  | createTable => exact ha.elim
  | dropTable => exact ha.elim
  | createIndex => exact ha.elim
  | dropIndex => exact ha.elim
  | fetchPage y n v =>
    -- the descriptor of an index is none of a table's, so the tables stay
    obtain ⟨name, hy⟩ := ha
    obtain ⟨-, f, hf⟩ := hr
    refine hd.index hi (hd.pins.fetchPage hf).1 (SmStore.fetchPage_handles hf) fun tab x hx => ?_
    exact (hd.tables tab x hx).other_fetch hd.store (hd.fd_ne_index hx hy).symm hsafe hf
  | newPage y v =>
    obtain ⟨name, hy⟩ := ha
    obtain ⟨-, f, p, hf⟩ := hr
    refine hd.index hi (hd.pins.newPage hf).1 (SmStore.newPage_handles hf) fun tab x hx => ?_
    exact (hd.tables tab x hx).other_new hd.store (hd.fd_ne_index hx hy).symm hsafe hf
  | change f bytes =>
    obtain ⟨name, y, hy, hid⟩ := ha
    obtain ⟨-, rfl⟩ := hr
    refine hd.index hi (hd.pins.changePage f bytes) (SmStore.changePage_handles _ f bytes)
      fun tab x hx => ?_
    refine (hd.tables tab x hx).other_change hd.store ?_ _
    rw [hid]
    exact (hd.fd_ne_index hx hy).symm
  | unpinPage p isDirty =>
    rw [show s = _ from hr] at hi ⊢
    refine hd.index hi (hd.pins.unpinPage p isDirty) (SmStore.unpinPage_handles _ p isDirty)
      fun tab x hx => ?_
    exact (hd.tables tab x hx).unpin hd.store p isDirty
  | flushPage p =>
    rw [show s = _ from hr] at hi ⊢
    refine hd.index hi (hd.pins.flushPage p) (SmStore.flushPage_handles _ p) fun tab x hx => ?_
    exact (hd.tables tab x hx).flushPage hd.store p
  | deletePage p =>
    rw [show s = _ from hr] at hi ⊢
    refine hd.index hi (hd.pins.deletePage p) (SmStore.deletePage_handles _ p) fun tab x hx => ?_
    exact (hd.tables tab x hx).deletePage hd.store p
  | writeHdr y hdr =>
    obtain ⟨name, hy⟩ := ha
    rw [hr.2] at hi ⊢
    have hp : (d.store.writeBytes ⟨y.fd, 0⟩ hdr).PinsOk := by
      obtain ⟨files, heq⟩ := d.store.writeBytes_frame ⟨y.fd, 0⟩ hdr
      rw [heq]
      exact hd.pins
    refine hd.index hi hp (SmStore.writeBytes_handles _ _ _) fun tab x hx => ?_
    exact (hd.tables tab x hx).other_writeBytes (hd.fd_ne_index hx hy).symm hdr

/-! ### DDL statements -/

/-- `create_table` keeps it. -/
theorem Inv.createTable (hd : d.Inv) {tab : String} {cols : List ColMeta}
    (htab : isIdent tab = true) (hcols : ∀ c ∈ cols, isIdent c.name = true)
    (hsafe : d.store.files tab = none → d.store.Purged) : (d.createTable tab cols).Inv := by
  have hi := hd.store.createTable tab hsafe cols
    (hdrBytes (RmFileHdr.create (cols.map (·.len)).sum))
  rcases d.store.createTable_cases tab cols (hdrBytes (RmFileHdr.create (cols.map (·.len)).sum)) with
    hsame | ⟨hnone, x, s', hr, heq⟩
  · -- nothing has changed
    have hno : ¬ ((d.store.tabs tab).isNone ∧ (d.store.tabs tab).isSome) := by
      cases d.store.tabs tab <;> simp
    unfold Database.createTable
    simp only [hsame]
    rw [if_neg hno]
    exact hd
  · obtain ⟨hfiles, hsame, hframes⟩ := SmStore.createAndOpen_frame hr
    unfold Database.createTable
    simp only [heq] at hi ⊢
    rw [if_pos ⟨by simp [hnone], by simp⟩]
    have htable := SmStore.createAndOpen_table hd.store (hsafe hfiles) hr
    have hfhs : d.store.fhs tab = none := by
      by_contra hne
      exact (hd.catalog.handles tab).mpr hne hnone
    refine ⟨hi, ?_, fun tab' x' hx' => ?_, fun tab' => ?_, fun tab' => ?_, hd.catalog.name,
      fun tab' info hinfo => ?_⟩
    · intro f
      show 0 ≤ (s'.frames f).pinCount
      rw [hframes]
      exact hd.pins f
    · by_cases hne : tab' = tab
      · subst hne
        simp only [Function.update_self, Option.some.injEq] at hx'
        subst hx'
        simp only [Function.update_self]
        exact htable.setHandles _ _ _
      · simp only [Function.update_of_ne hne, hsame.fhs] at hx' ⊢
        exact ((hd.tables tab' x' hx').createAndOpen hr).setHandles _ _ _
    · by_cases hne : tab' = tab
      · subst hne
        simp
      · simp only [Function.update_of_ne hne, hsame.fhs, hsame.tabs]
        exact hd.catalog.handles tab'
    · by_cases hne : tab' = tab
      · subst hne
        simp
      · simp only [Function.update_of_ne hne, hsame.tabs, Finset.mem_insert, hne, false_or]
        exact hd.catalog.keys tab'
    · by_cases hne : tab' = tab
      · subst hne
        simp only [Function.update_self, Option.some.injEq] at hinfo
        subst hinfo
        exact ⟨rfl, htab, hcols, by simp⟩
      · simp only [Function.update_of_ne hne, hsame.tabs] at hinfo
        exact hd.catalog.named tab' info hinfo

/-- The description of a table changes. -/
theorem CatalogOk.setTab (hc : d.CatalogOk) {tab : String} {info : TabMeta}
    (hinfo : d.store.tabs tab = some info) (info' : TabMeta) (hname : info'.name = info.name)
    (hcols : info'.cols = info.cols)
    (hindexes : ∀ i ∈ info'.indexes, i ∈ info.indexes ∨ ∀ c ∈ i.cols, c ∈ info.cols)
    {s : SmStore} (htabs : s.tabs = Function.update d.store.tabs tab (some info'))
    (hfhs : s.fhs = d.store.fhs) (hdrs ixHdrs : String → List UInt8)
    (indexed : String → String → Bool) :
    ({ d with store := s, hdrs := hdrs, ixHdrs := ixHdrs, indexed := indexed } :
      Database).CatalogOk := by
  have hsome : ∀ tab', s.tabs tab' ≠ none ↔ d.store.tabs tab' ≠ none := by
    intro tab'
    rw [htabs]
    by_cases hne : tab' = tab
    · subst hne
      simp [hinfo]
    · simp [hne]
  refine ⟨fun tab' => ?_, fun tab' => ?_, hc.name, fun tab' x hx => ?_⟩
  · simp only [hfhs]
    exact (hsome tab').trans (hc.handles tab')
  · exact (hc.keys tab').trans (hsome tab').symm
  · simp only [htabs] at hx
    by_cases hne : tab' = tab
    · subst hne
      simp only [Function.update_self, Option.some.injEq] at hx
      subst hx
      obtain ⟨h1, h2, h3, h4⟩ := hc.named tab' info hinfo
      refine ⟨hname.trans h1, h2, hcols ▸ h3, fun i hi => ?_⟩
      rcases hindexes i hi with hi | hi
      · exact h4 i hi
      · exact fun c hc => h3 c (hi c hc)
    · rw [Function.update_of_ne hne] at hx
      exact hc.named tab' x hx

/-- `create_index` keeps it. -/
theorem Inv.createIndex (hd : d.Inv) {tab : String} {names : List String}
    (hsafe : d.store.files (getIndexName tab names) = none → d.store.Purged)
    (hdr leafHdr root : List UInt8) : (d.createIndex tab names hdr leafHdr root).Inv := by
  have hi := hd.store.createIndex tab names hsafe hdr leafHdr root
  -- which of the marks and headers are set does not matter
  suffices hgen : ∀ indexed ixHdrs, ({ d with
      store := d.store.createIndex tab names hdr leafHdr root
      indexed := indexed
      ixHdrs := ixHdrs } : Database).Inv by
    unfold Database.createIndex
    simp only
    split
    · exact hgen _ _
    · exact hgen d.indexed d.ixHdrs
  intro indexed ixHdrs
  rcases d.store.createIndex_cases tab names hdr leafHdr root with
    hsame | hleak | ⟨info, x, s', pages, hinfo, hr, heq⟩
  · rw [hsame]
    exact ⟨hd.store, hd.pins, hd.tables, hd.catalog.congr (.refl _) _ _ _⟩
  · rw [hleak] at hi ⊢
    obtain ⟨hs, hframes⟩ := d.store.leakIndexFile_frame (getIndexName tab names)
    refine ⟨hi, ?_, fun tab' x' hx' => ?_, hd.catalog.congr hs _ _ _⟩
    · intro f
      simp only [hframes]
      exact hd.pins f
    · simp only [hs.fhs] at hx'
      exact (hd.tables tab' x' hx').leakIndexFile _
  · obtain ⟨-, hs, hframes⟩ := SmStore.createAndOpen_frame hr
    rw [heq] at hi ⊢
    refine ⟨hi, ?_, fun tab' x' hx' => ?_, ?_⟩
    · intro f
      show 0 ≤ (s'.frames f).pinCount
      rw [hframes]
      exact hd.pins f
    · simp only [hs.fhs] at hx'
      exact ((hd.tables tab' x' hx').createAndOpen hr).setHandles _ _ _
    · refine hd.catalog.setTab hinfo { info with
          indexes := info.indexes ++ [IndexMeta.create (SmStore.indexCols info.cols names)] }
        rfl rfl (fun i hmem => ?_) (by simp only [hs.tabs]) (by simp only [hs.fhs]) _ _ _
      rcases List.mem_append.mp hmem with hmem | hmem
      · exact .inl hmem
      · rw [List.mem_singleton.mp hmem]
        exact .inr fun c hc => SmStore.mem_of_mem_indexCols hc

/-- `drop_index` keeps it. -/
theorem Inv.dropIndex (hd : d.Inv) (tab : String) (names : List String) (hdr : List UInt8)
    (ps : List PageId) :
    ({ d with store := d.store.dropIndex tab names hdr ps } : Database).Inv := by
  have hi := hd.store.dropIndex tab names hdr ps
  have hsub : ∀ {info : TabMeta} {index : IndexMeta}, ∀ i ∈ info.indexes.erase index,
      i ∈ info.indexes ∨ ∀ c ∈ i.cols, c ∈ info.cols :=
    fun i hmem => .inl (List.mem_of_mem_erase hmem)
  rcases d.store.dropIndex_cases tab names hdr ps with
    hsame | ⟨info, index, hinfo, heq | ⟨x, hih, heq⟩⟩
  · rw [hsame]
    exact hd
  · rw [heq] at hi ⊢
    refine ⟨hi, hd.pins, fun tab' x' hx' => (hd.tables tab' x' hx').setHandles _ _ _, ?_⟩
    exact hd.catalog.setTab hinfo { info with indexes := info.indexes.erase index } rfl rfl hsub
      (by rfl) (by rfl) _ _ _
  · rw [heq] at hi ⊢
    obtain ⟨hs, hpins⟩ := SmStore.closeAndDestroy_frame { d.store with
      tabs := Function.update d.store.tabs tab
        (some { info with indexes := info.indexes.erase index }) } x.fd
      (getIndexName tab names) hdr ps
    refine ⟨hi, hpins hd.pins, fun tab' x' hx' => ?_, ?_⟩
    · simp only [hs.fhs] at hx'
      have ht := (hd.tables tab' x' hx').setHandles (Function.update d.store.tabs tab
        (some { info with indexes := info.indexes.erase index })) d.store.fhs d.store.ihs
      have hend := ht.closeAndDestroy (hd.store.setTabs _) (hd.fd_ne_index hx' hih)
        (getIndexName tab names) hdr ps
      exact hend.setHandles _ _ _
    · exact hd.catalog.setTab hinfo { info with indexes := info.indexes.erase index } rfl rfl hsub
        (by simp only [hs.tabs]) (by simp only [hs.fhs]) _ _ _

/-- `drop_table` keeps it, and the keys of the table are gone. -/
theorem Inv.dropTable (hd : d.Inv) {tab : String} {hdr : List UInt8} {ps : List PageId} {s : SmStore}
    (hr : d.store.dropTable tab hdr ps = some s) :
    ({ d with store := s, keys := d.keys.erase tab } : Database).Inv := by
  have hi := hd.store.dropTable hr
  unfold SmStore.dropTable at hr
  split at hr
  · next info x hinfo hx =>
    split at hr
    · cases hr
    · cases hr
      have hdel := d.store.deleteAllPage_handles ps
      obtain ⟨hs, hpins⟩ := (d.store.deleteAllPage ps).closeAndDestroy_frame x.fd tab hdr []
      have hsame := hdel.trans hs
      refine ⟨hi, hpins (SmStore.deleteAllPage_pins hd.pins ps), fun tab' x' hx' => ?_,
        fun tab' => ?_, fun tab' => ?_, hd.catalog.name, fun tab' info' hinfo' => ?_⟩
      · by_cases hne : tab' = tab
        · subst hne
          simp at hx'
        · simp only [Function.update_of_ne hne, hsame.fhs] at hx'
          have ht := (hd.tables tab' x' hx').deleteAllPage hd.store ps
          have hend := ht.closeAndDestroy (hd.store.deleteAllPage ps) (hd.fd_ne hx' hx hne) tab hdr []
          exact hend.setHandles _ _ _
      · by_cases hne : tab' = tab
        · subst hne
          simp
        · simp only [Function.update_of_ne hne, hsame.fhs, hsame.tabs]
          exact hd.catalog.handles tab'
      · by_cases hne : tab' = tab
        · subst hne
          simp
        · simp only [Function.update_of_ne hne, hsame.tabs, Finset.mem_erase, ne_eq, hne,
            not_false_eq_true, true_and]
          exact hd.catalog.keys tab'
      · by_cases hne : tab' = tab
        · subst hne
          simp at hinfo'
        · simp only [Function.update_of_ne hne, hsame.tabs] at hinfo'
          exact hd.catalog.named tab' info' hinfo'
  · cases hr

/-- **One step.** -/
theorem Inv.step (hd : d.Inv) {a : DbStep} (hsafe : d.SafeStep a) (hr : d.Step a d') : d'.Inv := by
  cases a with
  | createTable tab cols =>
    obtain ⟨htab, hcols, rfl⟩ := hr
    exact hd.createTable htab hcols hsafe
  | dropTable tab ps =>
    obtain ⟨-, s, hs, rfl⟩ := hr
    exact hd.dropTable hs
  | createIndex tab names hdr leafHdr root =>
    rw [show d' = _ from hr]
    exact hd.createIndex hsafe hdr leafHdr root
  | dropIndex tab names ps =>
    rw [hr.2]
    exact hd.dropIndex tab names _ ps
  | readPage tab n v isDirty =>
    obtain ⟨x, s, hx, hn, hs, rfl⟩ := hr
    obtain ⟨ha, ht⟩ := (hd.tables tab x hx).readTablePage hd.store hd.pins hn (hsafe x hx) hs
    exact hd.access_same hx ha ht
  | writePage tab n v bytes =>
    obtain ⟨x, s, hx, hn, hs, rfl⟩ := hr
    obtain ⟨ha, ht⟩ := (hd.tables tab x hx).writeTablePage hd.store hd.pins hn (hsafe x hx) hs
    exact hd.access_same hx ha ht
  | newPage tab v init bytes hdr =>
    obtain ⟨x, s, hx, hs, rfl⟩ := hr
    obtain ⟨ha, ht⟩ := (hd.tables tab x hx).newTablePage hd.store hd.pins hsafe hs
    exact hd.access hx ha ht
  | writeHdr tab hdr =>
    obtain ⟨x, hx, rfl⟩ := hr
    refine hd.access hx ⟨hd.store.writeBytes _ _, ?_, SmStore.writeBytes_handles _ _ _,
      fun name y hdr' hy hy' => hy'.other_writeBytes (Ne.symm hy) hdr⟩
      ((hd.tables tab x hx).writeHdr hdr)
    obtain ⟨files, heq⟩ := d.store.writeBytes_frame ⟨x.fd, 0⟩ hdr
    rw [heq]
    exact hd.pins
  | index a =>
    obtain ⟨ha, s, hs, rfl⟩ := hr
    exact hd.indexStep hsafe ha hs
  | indexHdr name hdr =>
    rw [show d' = _ from hr]
    exact ⟨hd.store, hd.pins, hd.tables, hd.catalog.congr (.refl _) _ _ _⟩

end Database

/-- The runs in which every step is safe. -/
def safeDatabase : TransitionSystem Database DbStep where
  init := Database.Initial
  step d a d' := d.Step a d' ∧ d.SafeStep a

/-- It holds in every state reached. -/
theorem safeDatabase_inv {d : Database} (hd : safeDatabase.Reachable d) : d.Inv := by
  refine hd.invariant (I := Database.Inv) (fun d hi => ?_) fun d a d' hi hstep => ?_
  · exact Database.Initial.inv hi
  · exact hi.step hstep.2 hstep.1

end Rmdb
