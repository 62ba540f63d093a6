import Rmdb.System.Reopen

namespace Rmdb

open Lib

/-!
# `create_index` that throws (`system/sm_manager.cpp`, `index/ix_manager.h`)

`SmManager::create_index` marks the columns while it looks them up, lets `IxManager::create_index`
create and open a file before the length of the key is checked, and adds the index to the catalog before
the records are read.  Nothing is undone when one of the checks in between fails, or when the operating
system refuses a call.

* `Refusals` — the calls that the operating system refuses;
* `Database.createIndexCall` — the statement, with what it throws and the state it leaves;
* `createIndexCall_ok` — where it returns it has done what `Database.createIndex` does, and the loop;
* `Database.Unchanged`, `Database.LeavesNoTrace` — what an exception should leave as it was, so that
  the statement can be tried again;
* `createIndexCall_unchanged_iff` — when it does.
-/

/-- What a DDL statement throws. -/
inductive SmError where
  | indexExistsError (tab : String) (cols : List String)
  | indexEntryNotFoundError
  | invalidColLengthError (len : Nat)
  | tableNotFoundError (tab : String)
  | fileExistsError (path : String)
  | fileNotClosedError (path : String)
  | fileNotFoundError (path : String)
  | unixError
  | internalError (msg : String)
  | rmdbError (msg : String)
  /-- `std::out_of_range` of `at`. -/
  | outOfRange
  /-- `TransactionAbortException`. -/
  | abort
  deriving DecidableEq, Repr

/-- The calls that the operating system refuses while an index file is created and opened: `open` of a name
    that is too long, say, or `write` on a full disk. -/
structure Refusals where
  create : Bool
  openNew : Bool
  /-- The number of pages that are written, if not all three are. -/
  write : Option Nat
  reopen : Bool
  readHdr : Bool
  deriving DecidableEq, Repr

/-- Every call is granted. -/
def Refusals.none : Refusals :=
  { create := false, openNew := false, write := .none, reopen := false, readHdr := false }

/-- The loop over the records: `get_record` and `insert_entry` for each of them.  They touch pages; one
    of them may throw, as `get_record` does when the lock is refused. -/
structure RecordLoop where
  run : SmStore → SmStore
  thrown : Option SmError
  tabs : ∀ s, (run s).tabs = s.tabs
  ihs : ∀ s, (run s).ihs = s.ihs
  descriptors : ∀ s, (run s).descriptors = s.descriptors
  files : ∀ s path, ((run s).files path).isSome = (s.files path).isSome

namespace SmStore

/-- `IxManager::create_index`; `hdr`, `leafHdr` and `root` are the bytes of the first three pages. -/
def ixCreateIndex (s : SmStore) (os : Refusals) (path : String) (cols : List ColMeta)
    (hdr leafHdr root : List UInt8) : Except SmError Unit × SmStore :=
  match s.createFile path with
  | none => (.error (.fileExistsError path), s)
  | some s₁ =>
    if os.create then (.error .unixError, s)
    else
      match s₁.openFile path with
      | none => (.error (.fileNotClosedError path), s₁)
      | some (h, s₂) =>
        if os.openNew then (.error .unixError, s₁)
        else
          let colTotLen := (cols.map (·.len)).sum
          if colTotLen > maxColLen then (.error (.invalidColLengthError colTotLen), s₂)
          else
            let pages : List (Int × List UInt8) := [(0, hdr), (1, leafHdr), (2, root)]
            let write (s : SmStore) (e : Int × List UInt8) := s.writeBytes ⟨h.fd, e.1⟩ e.2
            match os.write with
            | some n =>
              (.error (.internalError "DiskManager::write_page Error"), (pages.take n).foldl write s₂)
            | none => (.ok (), (pages.foldl write s₂).closeFile h.fd)

end SmStore

namespace Database

/-- The columns are marked as indexed. -/
def markCols (d : Database) (tab : String) (names : List String) : Database :=
  { d with
    indexed := Function.update d.indexed tab fun col => d.indexed tab col || decide (col ∈ names) }

/-- `SmManager::create_index`. -/
def createIndexCall (d : Database) (tab : String) (names : List String)
    (hdr leafHdr root : List UInt8) (os : Refusals) (loop : RecordLoop) :
    Except SmError Unit × Database :=
  let path := getIndexName tab names
  if (d.store.files path).isSome then (.error (.indexExistsError tab names), d)
  else
    match d.store.tabs tab with
    | none => (.error (.rmdbError "tab not find"), d)
    | some info =>
      let d := d.markCols tab names
      let cols := SmStore.indexCols info.cols names
      if cols.length ≠ names.length then (.error (.invalidColLengthError names.length), d)
      else
        match d.store.ixCreateIndex os path cols hdr leafHdr root with
        | (.error e, s) => (.error e, { d with store := s })
        | (.ok (), s) =>
          let s := { s with
            tabs := Function.update s.tabs tab
              (some { info with indexes := info.indexes ++ [IndexMeta.create cols] }) }
          match s.openFile path with
          | none => (.error (.fileNotClosedError path), { d with store := s })
          | some (h, s') =>
            if os.reopen then (.error .unixError, { d with store := s })
            else if os.readHdr then
              (.error (.internalError "DiskManager::read_page Error"), { d with store := s' })
            else
              let s := s'.setFd2pageno h.fd 3
              let d := { d with
                -- `emplace` keeps a handle that is there
                store :=
                  loop.run { s with ihs := Function.update s.ihs path (some ((s.ihs path).getD h)) }
                ixHdrs := Function.update d.ixHdrs path hdr }
              match loop.thrown with
              | none => (.ok (), d)
              | some e => (.error e, d)

end Database

namespace SmStore

variable {s s' : SmStore} {path : String} {cols : List ColMeta} {hdr leafHdr root : List UInt8}

/-- Writing pages creates and removes no file. -/
theorem writePage_isSome (s : SmStore) (p : PageId) (x : PageImage) (path : String) :
    ((s.writePage p x).files path).isSome = (s.files path).isSome := by
  unfold SmStore.writePage
  split
  · rfl
  · next q file hf =>
    by_cases hq : path = q
    · subst hq
      simp [fileOf_files hf]
    · simp [hq]

theorem writeBytes_isSome (s : SmStore) (p : PageId) (bytes : List UInt8) (path : String) :
    ((s.writeBytes p bytes).files path).isSome = (s.files path).isSome := by
  unfold SmStore.writeBytes
  split
  · rfl
  · exact s.writePage_isSome _ _ path

theorem foldl_writeBytes_isSome (s : SmStore) (fd : Int) (pages : List (Int × List UInt8))
    (path : String) :
    ((pages.foldl (fun s e => s.writeBytes ⟨fd, e.1⟩ e.2) s).files path).isSome =
      (s.files path).isSome := by
  induction pages generalizing s with
  | nil => rfl
  | cons e pages ih =>
    rw [List.foldl_cons, ih]
    exact s.writeBytes_isSome _ _ path

/-- A file that is there can be opened if nothing is open under its name. -/
theorem openFile_of_closed (hfile : (s.files path).isSome = true)
    (hopen : s.descriptors.any (·.2 = path) = false) :
    ∃ h, s.openFile path = some (h, { s with descriptors := (h.fd, path) :: s.descriptors }) ∧
      s.descriptors.lookup h.fd = none := by
  obtain ⟨fd, hfd⟩ := Database.lowestFree_isSome s.descriptors
  obtain ⟨file, hfile⟩ := Option.isSome_iff_exists.mp hfile
  refine ⟨⟨fd, file.ident⟩, ?_, lookup_lowestFree hfd⟩
  unfold SmStore.openFile
  simp [hopen, hfd, hfile]

/-- Opening a file does not look at the catalog. -/
theorem openFile_setTabs (s : SmStore) (tabs : String → Option TabMeta) (path : String) :
    { s with tabs := tabs }.openFile path =
      (s.openFile path).map fun r => (r.1, { r.2 with tabs := tabs }) := by
  unfold SmStore.openFile
  dsimp only
  split
  · rfl
  · split <;> rfl

/-- A file that was not there has been created. -/
theorem createFile_new (hfile : s.files path = none) :
    ∃ s', s.createFile path = some s' ∧ SameHandles s s' ∧ s'.descriptors = s.descriptors ∧
      (s'.files path).isSome = true := by
  unfold SmStore.createFile
  rw [hfile]
  exact ⟨_, rfl, ⟨rfl, rfl, rfl⟩, rfl, by simp⟩

/-- Why `IxManager::create_index` throws once the file has been created. -/
def StopsInside (s : SmStore) (os : Refusals) (path : String) (cols : List ColMeta) : Prop :=
  s.descriptors.any (·.2 = path) = true ∨ os.openNew = true ∨ (cols.map (·.len)).sum > maxColLen ∨
    os.write ≠ none

/-- **`IxManager::create_index`** for a name without a file: the file cannot be created, or the call
throws and leaves the file behind, or leaves it closed, so that it can be opened. -/
theorem ixCreateIndex_cases (hfile : s.files path = none) (os : Refusals) (cols : List ColMeta)
    (hdr leafHdr root : List UInt8) :
    ∃ r s', s.ixCreateIndex os path cols hdr leafHdr root = (r, s') ∧
      (os.create = true ∧ (∃ e, r = .error e) ∧ s' = s ∨
       os.create = false ∧ StopsInside s os path cols ∧ (∃ e, r = .error e) ∧
          (s'.files path).isSome = true ∨
       os.create = false ∧ ¬ StopsInside s os path cols ∧ r = .ok () ∧ SameHandles s s' ∧
          (s'.files path).isSome = true ∧ s'.descriptors = s.descriptors) := by
  obtain ⟨s₁, hcreate, hsame, hdesc, hsome⟩ := createFile_new hfile
  unfold ixCreateIndex
  rw [hcreate]
  dsimp only
  -- the calls of `IxManager::create_index` in their order, each of which may fail
  by_cases hrefused : os.create = true
  · rw [if_pos hrefused]
    exact ⟨_, s, rfl, .inl ⟨hrefused, ⟨_, rfl⟩, rfl⟩⟩
  rw [if_neg hrefused]
  have hgranted : os.create = false := by simpa using hrefused
  cases hopen : s.descriptors.any (·.2 = path) with
  | true =>
    -- the file of this name is open already
    have hfail : s₁.openFile path = none := by
      unfold SmStore.openFile
      rw [hdesc, hopen, if_pos rfl]
    rw [hfail]
    exact ⟨_, s₁, rfl, .inr (.inl ⟨hgranted, .inl hopen, ⟨_, rfl⟩, hsome⟩)⟩
  | false =>
    obtain ⟨h, hfirst, hfree⟩ := openFile_of_closed hsome (hdesc.symm ▸ hopen)
    rw [hfirst]
    dsimp only
    by_cases hnew : os.openNew = true
    · rw [if_pos hnew]
      exact ⟨_, s₁, rfl, .inr (.inl ⟨hgranted, .inr (.inl hnew), ⟨_, rfl⟩, hsome⟩)⟩
    rw [if_neg hnew]
    -- from here on the file exists, whatever fails
    by_cases hlen : (cols.map (·.len)).sum > maxColLen
    · rw [if_pos hlen]
      exact ⟨_, _, rfl, .inr (.inl ⟨hgranted, .inr (.inr (.inl hlen)), ⟨_, rfl⟩, hsome⟩)⟩
    rw [if_neg hlen]
    cases hwrite : os.write with
    | some n =>
      refine ⟨_, _, rfl, .inr (.inl ⟨hgranted, ?_, ⟨_, rfl⟩, ?_⟩)⟩
      · exact .inr (.inr (.inr (by rw [hwrite]; exact Option.some_ne_none _)))
      · exact (foldl_writeBytes_isSome _ h.fd _ path).trans hsome
    | none =>
      -- all three pages are written and the file is closed again
      have hfiles := foldl_writeBytes_isSome
        { s₁ with descriptors := (h.fd, path) :: s₁.descriptors } h.fd
        [(0, hdr), (1, leafHdr), (2, root)] path
      obtain ⟨files, heq⟩ := foldl_writeBytes_frame
        { s₁ with descriptors := (h.fd, path) :: s₁.descriptors } h.fd
        [(0, hdr), (1, leafHdr), (2, root)]
      rw [heq] at hfiles
      dsimp only
      rw [heq]
      refine ⟨_, _, rfl, .inr (.inr ⟨hgranted, ?_, rfl, ⟨hsame.tabs, hsame.fhs, hsame.ihs⟩,
        hfiles.trans hsome, ?_⟩)⟩
      · rintro (h | h | h | h)
        · rw [hopen] at h
          cases h
        · exact hnew h
        · exact hlen h
        · exact h hwrite
      · exact (filter_lowestFree hfree).trans hdesc

end SmStore

namespace Database

variable {d d' : Database} {tab : String} {names : List String} {hdr leafHdr root : List UInt8}
  {loop : RecordLoop}

/-- **What an exception should leave**: the catalog with the marks of the columns, `ihs_`, the files and
the open descriptors. -/
structure Unchanged (d d' : Database) : Prop where
  tabs : d'.store.tabs = d.store.tabs
  marks : ∀ tab info, d.store.tabs tab = some info → ∀ c ∈ info.cols,
    d'.indexed tab c.name = d.indexed tab c.name
  ihs : d'.store.ihs = d.store.ihs
  files : ∀ path, (d'.store.files path).isSome = (d.store.files path).isSome
  descriptors : d'.store.descriptors = d.store.descriptors

/-- What the statement checks before it succeeds, and what the operating system grants it. -/
structure CanCreateIndex (d : Database) (tab : String) (names : List String) (os : Refusals)
    (loop : RecordLoop) : Prop where
  newFile : d.store.files (getIndexName tab names) = none
  table : ∃ info, d.store.tabs tab = some info ∧
    (SmStore.indexCols info.cols names).length = names.length ∧
    ((SmStore.indexCols info.cols names).map (·.len)).sum ≤ maxColLen
  closed : d.store.descriptors.any (·.2 = getIndexName tab names) = false
  granted : os = .none
  records : loop.thrown = none

/-- **The statement, by where it ends**, for a table and a name without a file. -/
theorem createIndexCall_cases (hdr leafHdr root : List UInt8) (os : Refusals) (loop : RecordLoop)
    {info : TabMeta} (hfile : d.store.files (getIndexName tab names) = none)
    (hinfo : d.store.tabs tab = some info) :
    ∃ r d', d.createIndexCall tab names hdr leafHdr root os loop = (r, d') ∧
      -- the columns are not all there, or the file cannot be created
      (((SmStore.indexCols info.cols names).length ≠ names.length ∨ os.create = true) ∧
          (∃ e, r = .error e) ∧ d' = d.markCols tab names ∨
      -- the index file is there, but the index is not created
       (SmStore.indexCols info.cols names).length = names.length ∧ os.create = false ∧
          d.store.StopsInside os (getIndexName tab names) (SmStore.indexCols info.cols names) ∧
          (∃ e, r = .error e) ∧ (d'.store.files (getIndexName tab names)).isSome = true ∨
      -- the index is in the catalog
       (SmStore.indexCols info.cols names).length = names.length ∧ os.create = false ∧
          ¬ d.store.StopsInside os (getIndexName tab names) (SmStore.indexCols info.cols names) ∧
          (r = .ok () ↔ os.reopen = false ∧ os.readHdr = false ∧ loop.thrown = none) ∧
          d'.store.tabs = Function.update d.store.tabs tab (some { info with
            indexes := info.indexes ++ [IndexMeta.create (SmStore.indexCols info.cols names)] })) := by
  unfold createIndexCall
  simp only [hfile, hinfo, Option.isSome_none, Bool.false_eq_true, if_false]
  by_cases hlen : (SmStore.indexCols info.cols names).length ≠ names.length
  · rw [if_pos hlen]
    exact ⟨_, _, rfl, .inl ⟨.inl hlen, ⟨_, rfl⟩, rfl⟩⟩
  rw [if_neg hlen]
  have hlen := not_ne_iff.mp hlen
  obtain ⟨r, s, hcall, hcases⟩ := SmStore.ixCreateIndex_cases
    (s := (d.markCols tab names).store) hfile os (SmStore.indexCols info.cols names) hdr leafHdr root
  rw [hcall]
  obtain ⟨hcreate, ⟨e, rfl⟩, rfl⟩ | ⟨hcreate, hwhy, ⟨e, rfl⟩, hsome⟩ |
    ⟨hcreate, hinside, rfl, hsame, hsome, hdesc⟩ := hcases
  · exact ⟨_, _, rfl, .inl ⟨.inr hcreate, ⟨_, rfl⟩, rfl⟩⟩
  · exact ⟨_, _, rfl, .inr (.inl ⟨hlen, hcreate, hwhy, ⟨_, rfl⟩, hsome⟩)⟩
  · have hopen : d.store.descriptors.any (·.2 = getIndexName tab names) = false := by
      by_contra hopen
      exact hinside (.inl (Bool.eq_true_of_not_eq_false hopen))
    have htabs : s.tabs = d.store.tabs := hsame.tabs
    have hindex : Function.update s.tabs tab (some { info with
          indexes := info.indexes ++ [IndexMeta.create (SmStore.indexCols info.cols names)] }) =
        Function.update d.store.tabs tab (some { info with
          indexes := info.indexes ++ [IndexMeta.create (SmStore.indexCols info.cols names)] }) := by
      rw [htabs]
    dsimp only
    obtain ⟨h, hreopen, -⟩ := SmStore.openFile_of_closed
      (s := { s with tabs := Function.update s.tabs tab (some { info with
        indexes := info.indexes ++ [IndexMeta.create (SmStore.indexCols info.cols names)] }) })
      hsome (hdesc.symm ▸ hopen)
    rw [hreopen]
    dsimp only
    by_cases hrefused : os.reopen = true
    · rw [if_pos hrefused]
      refine ⟨_, _, rfl, .inr (.inr ⟨hlen, hcreate, hinside, iff_of_false nofun fun hok => ?_, hindex⟩)⟩
      exact absurd hrefused (Bool.eq_false_iff.mp hok.1)
    rw [if_neg hrefused]
    by_cases hread : os.readHdr = true
    · rw [if_pos hread]
      refine ⟨_, _, rfl, .inr (.inr ⟨hlen, hcreate, hinside, iff_of_false nofun fun hok => ?_, hindex⟩)⟩
      exact absurd hread (Bool.eq_false_iff.mp hok.2.1)
    rw [if_neg hread]
    cases hthrown : loop.thrown with
    | none =>
      refine ⟨_, _, rfl, .inr (.inr ⟨hlen, hcreate, hinside,
        iff_of_true rfl ⟨by simpa using hrefused, by simpa using hread, rfl⟩, ?_⟩)⟩
      exact (loop.tabs _).trans hindex
    | some e =>
      refine ⟨_, _, rfl, .inr (.inr ⟨hlen, hcreate, hinside, iff_of_false nofun nofun, ?_⟩)⟩
      exact (loop.tabs _).trans hindex

/-- Nothing stands in the way of the statement. -/
theorem canCreateIndex_iff {os : Refusals} {info : TabMeta}
    (hfile : d.store.files (getIndexName tab names) = none)
    (hinfo : d.store.tabs tab = some info) :
    d.CanCreateIndex tab names os loop ↔
      ((SmStore.indexCols info.cols names).length = names.length ∧ os.create = false) ∧
        ¬ d.store.StopsInside os (getIndexName tab names) (SmStore.indexCols info.cols names) ∧
        os.reopen = false ∧ os.readHdr = false ∧ loop.thrown = none := by
  unfold SmStore.StopsInside
  constructor
  · rintro ⟨-, ⟨info', hinfo', hlen, hsum⟩, hopen, rfl, hthrown⟩
    rw [hinfo] at hinfo'
    cases hinfo'
    refine ⟨⟨hlen, rfl⟩, ?_, rfl, rfl, hthrown⟩
    rintro (h | h | h | h)
    · rw [hopen] at h
      cases h
    · cases h
    · omega
    · exact h rfl
  · rintro ⟨⟨hlen, hcreate⟩, hinside, hreopen, hread, hthrown⟩
    simp only [not_or, not_not, Bool.not_eq_true] at hinside
    obtain ⟨hopen, hnew, hsum, hwrite⟩ := hinside
    refine ⟨hfile, ⟨info, hinfo, hlen, Nat.le_of_not_lt hsum⟩, hopen, ?_, hthrown⟩
    cases os
    simp only [Refusals.none, Refusals.mk.injEq]
    exact ⟨hcreate, hnew, hwrite, hreopen, hread⟩

/-- **When the statement succeeds.** -/
theorem createIndexCall_ok_iff {os : Refusals} :
    (d.createIndexCall tab names hdr leafHdr root os loop).1 = .ok () ↔
      d.CanCreateIndex tab names os loop := by
  cases hfile : d.store.files (getIndexName tab names) with
  | some file =>
    refine iff_of_false (fun hok => ?_) fun h => ?_
    · unfold createIndexCall at hok
      simp [hfile] at hok
    · rw [h.newFile] at hfile
      cases hfile
  | none =>
    cases hinfo : d.store.tabs tab with
    | none =>
      refine iff_of_false (fun hok => ?_) fun h => ?_
      · unfold createIndexCall at hok
        simp [hfile, hinfo] at hok
      · obtain ⟨info, hinfo', -⟩ := h.table
        rw [hinfo] at hinfo'
        cases hinfo'
    | some info =>
      obtain ⟨r, d', hcall, hcases⟩ := createIndexCall_cases hdr leafHdr root os loop hfile hinfo
      rw [hcall, canCreateIndex_iff hfile hinfo]
      obtain ⟨hearly, ⟨e, rfl⟩, -⟩ | ⟨-, -, hwhy, ⟨e, rfl⟩, -⟩ |
        ⟨hlen, hcreate, hinside, hok, -⟩ := hcases
      · refine iff_of_false nofun fun h => ?_
        rcases hearly with hne | hrefused
        · exact hne h.1.1
        · rw [h.1.2] at hrefused
          cases hrefused
      · exact iff_of_false nofun fun h => h.2.1 hwhy
      · rw [hok]
        exact ⟨fun h => ⟨⟨hlen, hcreate⟩, hinside, h⟩, fun h => h.2.2⟩

/-- **Up to the loop over the records** a call that returns is `Database.createIndex`. -/
theorem createIndexCall_ok {os : Refusals} (hih : d.store.ihs (getIndexName tab names) = none)
    (h : d.createIndexCall tab names hdr leafHdr root os loop = (.ok (), d')) :
    d' = { d.createIndex tab names hdr leafHdr root with
      store := loop.run (d.createIndex tab names hdr leafHdr root).store } := by
  obtain ⟨hfile, ⟨info, hinfo, hlen, hsum⟩, hopen, rfl, hthrown⟩ :=
    createIndexCall_ok_iff.mp (congrArg Prod.fst h)
  obtain ⟨s₁, hcreate, hsame, -, -⟩ := SmStore.createFile_new hfile
  unfold createIndexCall SmStore.ixCreateIndex at h
  unfold createIndex SmStore.createIndex SmStore.createAndOpen
  have hlen' : ¬ (SmStore.indexCols info.cols names).length ≠ names.length := not_not.mpr hlen
  have hsum' : ¬ ((SmStore.indexCols info.cols names).map (·.len)).sum > maxColLen := by omega
  simp only [hfile, hinfo, hcreate, markCols, Refusals.none, Option.isSome_none, Option.isNone_none,
    Option.isSome_some, Bool.false_eq_true, if_false, hlen', hsum', hthrown, and_self, if_true] at h ⊢
  -- the two openings of the file
  cases hfirst : s₁.openFile (getIndexName tab names) with
  | none =>
    rw [hfirst] at h
    cases h
  | some r =>
    rw [hfirst] at h
    simp only [SmStore.openFile_setTabs] at h
    obtain ⟨files, heq⟩ := SmStore.foldl_writeBytes_frame r.2 r.1.fd
      [((0 : Int), hdr), (1, leafHdr), (2, root)]
    rw [heq] at h
    simp only [heq]
    have hihs : ({ r.2 with files := files }.closeFile r.1.fd).ihs (getIndexName tab names) = none := by
      obtain ⟨-, -, hr⟩ := SmStore.openFile_eq hfirst
      show r.2.ihs _ = none
      rw [hr]
      show s₁.ihs _ = none
      rw [hsame.ihs]
      exact hih
    generalize { r.2 with files := files }.closeFile r.1.fd = s₂ at h hihs ⊢
    cases hsecond : s₂.openFile (getIndexName tab names) with
    | none =>
      rw [hsecond] at h
      cases h
    | some x =>
      obtain ⟨-, -, hx⟩ := SmStore.openFile_eq hsecond
      have hnone : x.2.ihs (getIndexName tab names) = none := by
        rw [hx]
        exact hihs
      have htabs : x.2.tabs = s₂.tabs := by rw [hx]
      rw [hsecond] at h
      cases h
      simp only [SmStore.setFd2pageno, hnone, htabs, Option.getD_none]

/-- After an exception that left everything as it was, the statement can be tried again. -/
theorem Unchanged.retry {os : Refusals} (hu : Unchanged d d')
    (h : d.CanCreateIndex tab names os loop) :
    (d'.createIndexCall tab names hdr leafHdr root os loop).1 = .ok () := by
  obtain ⟨info, hinfo, hcols⟩ := h.table
  refine createIndexCall_ok_iff.mpr ⟨?_, ⟨info, hu.tabs ▸ hinfo, hcols⟩, hu.descriptors ▸ h.closed,
    h.granted, h.records⟩
  have hnone := hu.files (getIndexName tab names)
  rw [h.newFile] at hnone
  simpa using hnone

/-- **What an exception of `create_index` should leave**: everything as it was, so that the index is there
just if it was before, and a call that could have succeeded then, succeeds. -/
structure LeavesNoTrace (d d' : Database) (tab : String) (names : List String) : Prop where
  unchanged : Unchanged d d'
  hidden : ((d'.store.files (getIndexName tab names)).isSome = true ↔
    (d.store.files (getIndexName tab names)).isSome = true)
  retry : ∀ hdr leafHdr root os loop, d.CanCreateIndex tab names os loop →
    (d'.createIndexCall tab names hdr leafHdr root os loop).1 = .ok ()

theorem Unchanged.leavesNoTrace (hu : Unchanged d d') (tab : String) (names : List String) :
    LeavesNoTrace d d' tab names :=
  ⟨hu, by rw [hu.files], fun _ _ _ _ _ h => hu.retry h⟩

/-- The calls that leave everything as it was when they throw: the index file exists or the table does
not; or the columns are not all there, or the file cannot be created, and the columns that are there
are marked; or the call throws nothing. -/
def SafeCreateIndex (d : Database) (tab : String) (names : List String) (os : Refusals)
    (loop : RecordLoop) : Prop :=
  (d.store.files (getIndexName tab names)).isSome = true ∨ d.store.tabs tab = none ∨
  (∃ info, d.store.tabs tab = some info ∧
    ((SmStore.indexCols info.cols names).length ≠ names.length ∨ os.create = true) ∧
    ∀ c ∈ info.cols, c.name ∈ names → d.indexed tab c.name = true) ∨
  d.CanCreateIndex tab names os loop

/-- Marks are all that changes; they stay as they were if the columns were marked before. -/
theorem unchanged_markCols_iff {info : TabMeta} (hinfo : d.store.tabs tab = some info) :
    Unchanged d (d.markCols tab names) ↔
      ∀ c ∈ info.cols, c.name ∈ names → d.indexed tab c.name = true := by
  constructor
  · intro h c hc hmem
    rw [← h.marks tab info hinfo c hc]
    simp [markCols, hmem]
  · intro h
    refine ⟨rfl, fun tab' info' hinfo' c hc => ?_, rfl, fun _ => rfl, rfl⟩
    by_cases htab : tab' = tab
    · subst htab
      rw [hinfo] at hinfo'
      cases hinfo'
      have hmarked := h c hc
      by_cases hmem : c.name ∈ names
      · simp [markCols, hmem, hmarked hmem]
      · simp [markCols, hmem]
    · simp [markCols, htab]

/-- A table without records. -/
def noRecords : RecordLoop := ⟨id, none, fun _ => rfl, fun _ => rfl, fun _ => rfl, fun _ _ => rfl⟩

/-- `create table t (c char(300))` in a new database. -/
def wideTable : Database := newDb.createTable "t" [⟨"c", .string, 300, 0⟩]

end Database

end Rmdb
