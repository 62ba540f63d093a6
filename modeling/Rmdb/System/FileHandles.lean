import Rmdb.System.SmManager

namespace Rmdb

open Lib

/-!
# Reading through a handle

The pool names a page by a descriptor and a number, and knows nothing of files.  A descriptor that is
closed is given to the next file that is opened, so the pages of the old file have to be out of the
pool by then.  `drop_table` sees to that (`close_all_page`); `drop_index` only flushes.

* `SmStore.Purged` — nothing of an older file is cached under the descriptor that is handed out next;
* `handles_read_own_pages` — in a run in which files are opened in purged states only, every page
  fetched or created through a handle is a page of the file the handle was opened on;
* `index_reads_dropped_index` — an index that gets the descriptor, and the root, of a dropped one.
-/

/-- The image is page `n` of file `k`. -/
def PageImage.IsPageOf (x : PageImage) (k : Nat) (n : Int) : Prop := x.file = k ∧ x.pageNo = n

namespace SmStore

variable {s s' : SmStore} {f v : FrameId} {p : PageId} {fd : Int} {path name : String}

/-- The file open under a descriptor. -/
def ident (s : SmStore) (fd : Int) : Option Nat := (s.fileOf fd).map (·.2.ident)

/-- The frame is in the page table, or will be written to disk. -/
def Live (s : SmStore) (f : FrameId) : Prop :=
  (s.frames f).isDirty = true ∨ ∃ p, s.pageTable p = some f

/-- **Nothing is cached under the next descriptor.** -/
def Purged (s : SmStore) : Prop :=
  ∀ fd, DiskManager.lowestFree s.descriptors = some fd → ∀ f, (s.frames f).id.fd = fd → ¬ s.Live f

/-- What holds between the statements. -/
structure Inv (s : SmStore) : Prop where
  /-- The pages of a file are its own. -/
  tagged : ∀ path file, s.files path = some file → ∀ n, (file.pages n).IsPageOf file.ident n
  paths : ∀ e ∈ s.descriptors, s.files e.2 ≠ none
  /-- A handle's descriptor is open on the file of the handle. -/
  handles : ∀ name h, s.IsOpen name h →
    s.descriptors.lookup h.fd = some name ∧ s.ident h.fd = some h.file
  apart : ∀ name, s.fhs name = none ∨ s.ihs name = none
  mapped : ∀ p f, s.pageTable p = some f → (s.frames f).id = p
  /-- What is cached under an open descriptor is a page of the file behind it. -/
  cached : ∀ f, s.Live f → ∀ k, s.ident (s.frames f).id.fd = some k →
    (s.frames f).page.IsPageOf k (s.frames f).id.pageNo

/-- The invariant holds of a new database. -/
theorem Initial.inv (h : s.Initial) : s.Inv where
  tagged path file hf := (h.files path file hf).2
  paths := h.descriptors
  handles name x hx := by
    rcases hx with hx | hx
    · simp [h.fhs name] at hx
    · simp [h.ihs name] at hx
  apart name := .inl (h.fhs name)
  mapped p f hp := by simp [h.pool p] at hp
  cached f hf := by
    rcases hf with hf | ⟨p, hp⟩
    · simp [h.clean f] at hf
    · simp [h.pool p] at hp

/-! ### The disk -/

/-- A descriptor leads to its path, and this to the file. -/
theorem ident_eq (s : SmStore) (fd : Int) :
    s.ident fd = (s.descriptors.lookup fd).bind fun path => (s.files path).map (·.ident) := by
  unfold ident fileOf
  cases s.descriptors.lookup fd with
  | none => rfl
  | some path =>
    cases hf : s.files path with
    | none => simp [hf]
    | some file => simp [hf]

/-- The identity of an open file. -/
theorem fileOf_ident {file : DiskFile} (h : s.fileOf fd = some (path, file)) :
    s.ident fd = some file.ident := by
  simp [ident, h]

/-- An open file is there. -/
theorem fileOf_files {file : DiskFile} (h : s.fileOf fd = some (path, file)) :
    s.files path = some file := by
  unfold fileOf at h
  split at h
  · cases h
  · split at h
    · cases h
    · next hf =>
      cases h
      exact hf

/-- The pages of the files change, and stay their own. -/
theorem Inv.setFiles (h : s.Inv) {files : String → Option DiskFile}
    (hident : ∀ path, (files path).map (·.ident) = (s.files path).map (·.ident))
    (htagged : ∀ path file, files path = some file → ∀ n, (file.pages n).IsPageOf file.ident n) :
    { s with files := files }.Inv := by
  have hid : ∀ fd, { s with files := files }.ident fd = s.ident fd := by
    intro fd
    rw [ident_eq, ident_eq]
    simp only [hident]
  refine ⟨htagged, ?_, ?_, h.apart, h.mapped, ?_⟩
  · intro e he hnone
    have hsome := hident e.2
    rw [show files e.2 = none from hnone] at hsome
    exact h.paths e he (by simpa using hsome.symm)
  · intro name x hx
    rw [hid]
    exact h.handles name x hx
  · intro f hf k hk
    rw [hid] at hk
    exact h.cached f hf k hk

/-- A write of the right image. -/
theorem Inv.writePage (h : s.Inv) {image : PageImage}
    (himage : ∀ k, s.ident p.fd = some k → image.IsPageOf k p.pageNo) :
    (s.writePage p image).Inv := by
  unfold SmStore.writePage
  split
  · exact h
  · next path file hf =>
    have hfile := fileOf_files hf
    refine h.setFiles (fun path' => ?_) fun path' file' hfile' n => ?_
    · by_cases hpath : path' = path
      · subst hpath
        simp [hfile]
      · simp [hpath]
    · by_cases hpath : path' = path
      · subst hpath
        simp only [Function.update_self, Option.some.injEq] at hfile'
        subst hfile'
        by_cases hn : n = p.pageNo
        · subst hn
          simpa using himage _ (fileOf_ident hf)
        · simpa [hn] using h.tagged _ _ hfile n
      · rw [Function.update_of_ne hpath] at hfile'
        exact h.tagged path' file' hfile' n

/-- Writes to the files keep the invariant. -/
theorem Inv.writeBytes (h : s.Inv) (p : PageId) (bytes : List UInt8) : (s.writeBytes p bytes).Inv := by
  unfold SmStore.writeBytes
  split
  · exact h
  · next hf =>
    refine h.writePage fun k hk => ?_
    rw [fileOf_ident hf] at hk
    cases hk
    exact ⟨rfl, rfl⟩

/-- What is found is in the list. -/
theorem mem_of_lookup {l : List (Int × String)} (h : l.lookup fd = some path) : (fd, path) ∈ l := by
  obtain ⟨l₁, l₂, rfl, -⟩ := List.lookup_eq_some_iff.mp h
  simp

/-- A name that is not open gets another file, or none. -/
theorem Inv.setFile (h : s.Inv) (hclosed : ∀ e ∈ s.descriptors, e.2 ≠ path) {file : Option DiskFile}
    (hfile : ∀ x, file = some x → ∀ n, (x.pages n).IsPageOf x.ident n) (k : Nat) :
    { s with files := Function.update s.files path file, nextFile := k }.Inv := by
  have hother : ∀ {e}, e ∈ s.descriptors → Function.update s.files path file e.2 = s.files e.2 :=
    fun he => Function.update_of_ne (hclosed _ he) _ _
  have hid : ∀ fd, { s with files := Function.update s.files path file, nextFile := k }.ident fd =
      s.ident fd := by
    intro fd
    rw [ident_eq, ident_eq]
    cases hl : s.descriptors.lookup fd with
    | none => simp
    | some path' =>
      have hsame := hother (mem_of_lookup hl)
      simp only at hsame
      simp [hsame]
  refine ⟨?_, ?_, ?_, h.apart, h.mapped, ?_⟩
  · intro path' file' hf
    by_cases hpath : path' = path
    · subst hpath
      exact hfile file' (by simpa using hf)
    · exact h.tagged path' file' (by simpa [hpath] using hf)
  · intro e he
    show Function.update s.files path file e.2 ≠ none
    rw [hother he]
    exact h.paths e he
  · intro name x hx
    rw [hid]
    exact h.handles name x hx
  · intro f hf j hj
    rw [hid] at hj
    exact h.cached f hf j hj

/-- A new file opens no descriptor. -/
theorem Inv.createFile (h : s.Inv) (hr : s.createFile path = some s') : s'.Inv := by
  obtain ⟨hnone, rfl⟩ := createFile_eq hr
  refine h.setFile (fun e he heq => h.paths e he (heq ▸ hnone)) (fun x hx n => ?_) _
  cases hx
  exact ⟨rfl, rfl⟩

/-- A destroyed file is open nowhere. -/
theorem Inv.destroyFile (h : s.Inv) (path : String) : (s.destroyFile path).Inv := by
  unfold SmStore.destroyFile
  split
  · exact h
  · next hopen =>
    refine h.setFile (fun e he heq => hopen ?_) (fun x hx => (by cases hx)) s.nextFile
    exact List.any_eq_true.mpr ⟨e, he, by simpa using heq⟩

/-- The descriptor that `open` hands out is not in use. -/
theorem lookup_lowestFree {l : List (Int × String)} (h : DiskManager.lowestFree l = some fd) :
    l.lookup fd = none := by
  have hfree := List.find?_some h
  simpa using hfree

/-- **Opening a file.** Nothing may be cached under the descriptor. -/
theorem Inv.openFile (h : s.Inv) (hpurged : s.Purged) {x : FileHandle}
    (hr : s.openFile path = some (x, s')) :
    s'.Inv ∧ s'.descriptors.lookup x.fd = some path ∧ s'.ident x.fd = some x.file ∧
      DiskManager.lowestFree s.descriptors = some x.fd ∧
      s' = { s with descriptors := (x.fd, path) :: s.descriptors } := by
  unfold SmStore.openFile at hr
  split at hr
  · cases hr
  · split at hr
    · next file fd hfile hfree =>
      cases hr
      have hnone := lookup_lowestFree hfree
      -- the descriptor was free, so no handle and no cached page is of it
      have hother : ∀ fd', fd' ≠ fd →
          { s with descriptors := (fd, path) :: s.descriptors }.ident fd' = s.ident fd' := by
        intro fd' hne
        have hbeq : (fd' == fd) = false := by simpa using hne
        simp [ident_eq, List.lookup_cons, hbeq]
      have hself : ((fd, path) :: s.descriptors).lookup fd = some path := by simp
      have hhandle : ∀ name y, s.IsOpen name y → y.fd ≠ fd := by
        intro name y hy heq
        rw [← heq, (h.handles name y hy).1] at hnone
        cases hnone
      refine ⟨⟨h.tagged, ?_, ?_, h.apart, h.mapped, ?_⟩, hself, ?_, hfree, rfl⟩
      · intro e he
        rcases List.mem_cons.mp he with rfl | he
        · simp [hfile]
        · exact h.paths e he
      · intro name y hy
        have hne := hhandle name y hy
        obtain ⟨hl, hi⟩ := h.handles name y hy
        refine ⟨?_, ?_⟩
        · have hbeq : (y.fd == fd) = false := by simpa using hne
          simpa [List.lookup_cons, hbeq] using hl
        · rw [hother _ hne]
          exact hi
      · intro f hf k hk
        -- what is cached under it would be of a file closed before
        by_cases hfd : (s.frames f).id.fd = fd
        · exact absurd hf (hpurged fd hfree f hfd)
        · exact h.cached f hf k (by rw [← hother _ hfd]; exact hk)
      · simp [ident_eq, hfile]
    · cases hr

/-- Closing a descriptor leaves the others. -/
theorem lookup_filter {fd fd' : Int} (hne : fd' ≠ fd) (l : List (Int × String)) :
    (l.filter (·.1 ≠ fd)).lookup fd' = l.lookup fd' := by
  induction l with
  | nil => rfl
  | cons e l ih =>
    obtain ⟨k, path⟩ := e
    by_cases he : k = fd
    · have hbeq : (fd' == k) = false := by simpa [he] using hne
      rw [List.filter_cons_of_neg (by simpa using he), ih]
      simp [List.lookup_cons, hbeq]
    · rw [List.filter_cons_of_pos (by simpa using he)]
      simp only [List.lookup_cons, ih]

/-- **Closing a descriptor** that no handle uses. -/
theorem Inv.closeFile (h : s.Inv) (hunused : ∀ name x, s.IsOpen name x → x.fd ≠ fd) :
    (s.closeFile fd).Inv := by
  have hother : ∀ fd', fd' ≠ fd → (s.closeFile fd).ident fd' = s.ident fd' := by
    intro fd' hne
    rw [ident_eq, ident_eq]
    show ((s.descriptors.filter (·.1 ≠ fd)).lookup fd').bind _ = _
    rw [lookup_filter hne]
    rfl
  have hself : (s.closeFile fd).ident fd = none := by
    have hnone : (s.descriptors.filter (·.1 ≠ fd)).lookup fd = none := by
      rw [List.lookup_eq_none_iff]
      intro e he
      have hne := List.of_mem_filter he
      simp only [ne_eq, decide_not, Bool.not_eq_true', decide_eq_false_iff_not] at hne
      simpa using fun heq => hne heq.symm
    rw [ident_eq]
    show ((s.descriptors.filter (·.1 ≠ fd)).lookup fd).bind _ = _
    rw [hnone]
    rfl
  refine ⟨h.tagged, ?_, ?_, h.apart, h.mapped, ?_⟩
  · intro e he
    exact h.paths e (List.mem_of_mem_filter he)
  · intro name x hx
    have hne := hunused name x hx
    obtain ⟨hl, hi⟩ := h.handles name x hx
    refine ⟨?_, (hother _ hne).trans hi⟩
    show (s.descriptors.filter (·.1 ≠ fd)).lookup x.fd = some name
    rw [lookup_filter hne]
    exact hl
  · intro f hf k hk
    by_cases hfd : (s.frames f).id.fd = fd
    · rw [show (((s.closeFile fd).frames f).id.fd) = fd from hfd, hself] at hk
      cases hk
    · exact h.cached f hf k ((hother _ hfd).symm.trans hk)

/-! ### The pool -/

/-- The pool changes; the files and handles do not. -/
theorem Inv.setPool (h : s.Inv) {frames : FrameId → SmFrame} {table : PageId → Option FrameId}
    (hmapped : ∀ p f, table p = some f → (frames f).id = p)
    (hcached : ∀ f, ((frames f).isDirty = true ∨ ∃ p, table p = some f) →
      ∀ k, s.ident (frames f).id.fd = some k → (frames f).page.IsPageOf k (frames f).id.pageNo) :
    { s with frames := frames, pageTable := table }.Inv :=
  ⟨h.tagged, h.paths, h.handles, h.apart, hmapped, hcached⟩

/-- One frame changes and stays what it is: the id and the page are the same, and it is not dirty
    unless it was live before. -/
theorem Inv.setFrame (h : s.Inv) {x : SmFrame} (hid : x.id = (s.frames f).id)
    (hfile : x.page.file = (s.frames f).page.file ∧ x.page.pageNo = (s.frames f).page.pageNo)
    (hdirty : x.isDirty = true → s.Live f) :
    { s with frames := Function.update s.frames f x }.Inv := by
  refine h.setPool (fun p g hp => ?_) fun g hg k hk => ?_
  · by_cases hgf : g = f
    · subst hgf
      simpa [hid] using h.mapped p g hp
    · simpa [hgf] using h.mapped p g hp
  · by_cases hgf : g = f
    · subst hgf
      simp only [Function.update_self] at hg hk ⊢
      have hlive : s.Live g := hg.elim hdirty Or.inr
      rw [hid] at hk ⊢
      obtain ⟨h1, h2⟩ := h.cached g hlive k hk
      exact ⟨hfile.1.trans h1, hfile.2.trans h2⟩
    · simp only [Function.update_of_ne hgf] at hg hk ⊢
      exact h.cached g hg k hk

/-- A live frame may be written to its place. -/
theorem Inv.writeFrame (h : s.Inv) (hf : s.Live f) (hp : (s.frames f).id = p) :
    (s.writeFrame f p).Inv := by
  have hwrite : (s.writePage p (s.frames f).page).Inv := by
    refine h.writePage fun k hk => ?_
    rw [← hp] at hk ⊢
    exact h.cached f hf k hk
  exact hwrite.setFrame rfl ⟨rfl, rfl⟩ fun hd => (by cases hd)

/-- A frame leaves the pool. -/
theorem Inv.dropFrame (h : s.Inv) (f : FrameId) : (s.dropFrame f).Inv := by
  have herase : ∀ {s : SmStore}, s.Inv →
      { s with pageTable := Function.update s.pageTable (s.frames f).id none }.Inv := by
    intro s h
    have hold : ∀ q g, Function.update s.pageTable (s.frames f).id none q = some g →
        s.pageTable q = some g := by
      intro q g hq
      by_cases hqf : q = (s.frames f).id
      · subst hqf
        simp at hq
      · simpa [hqf] using hq
    refine h.setPool (fun q g hq => h.mapped q g (hold q g hq)) fun g hg k hk => h.cached g ?_ k hk
    exact hg.imp id fun ⟨q, hq⟩ => ⟨q, hold q g hq⟩
  unfold SmStore.dropFrame
  by_cases hd : (s.frames f).isDirty = true
  · simp only [hd, if_true]
    exact herase (h.writeFrame (.inl hd) rfl)
  · simp only [hd]
    exact herase h

/-- A write to disk keeps what is open under which descriptor. -/
theorem dropFrame_ident (s : SmStore) (f : FrameId) (fd : Int) :
    (s.dropFrame f).ident fd = s.ident fd := by
  have hwrite : ∀ p x, (s.writePage p x).ident fd = s.ident fd := by
    intro p x
    rw [ident_eq, ident_eq]
    unfold SmStore.writePage
    split
    · rfl
    · next path file hf =>
      cases hl : s.descriptors.lookup fd with
      | none => simp
      | some path' =>
        by_cases hpath : path' = path
        · subst hpath
          simp [fileOf_files hf]
        · simp [hpath]
  unfold SmStore.dropFrame
  by_cases hd : (s.frames f).isDirty = true
  · simp only [hd, if_true]
    exact hwrite _ _
  · simp only [hd]
    rfl

/-- The frame that has been dropped is not mapped. -/
theorem Inv.dropFrame_unmapped (h : s.Inv) (f : FrameId) (q : PageId) :
    (s.dropFrame f).pageTable q ≠ some f := by
  intro hq
  have hid := (h.dropFrame f).mapped q f hq
  unfold SmStore.dropFrame at hq hid
  simp only at hq hid
  rw [hid] at hq
  simp at hq

/-- `emplace` maps a page to the new frame, or leaves its mapping. -/
theorem emplace_old {table : PageId → Option FrameId} {q : PageId} {g : FrameId} (hgf : g ≠ f)
    (hq : Function.update table p (some ((table p).getD f)) q = some g) : table q = some g := by
  by_cases hqp : q = p
  · subst hqp
    rw [Function.update_self] at hq
    cases hl : table q with
    | none =>
      rw [hl] at hq
      exact absurd (Option.some.inj hq).symm hgf
    | some g' =>
      rw [hl] at hq
      exact hq
  · rw [Function.update_of_ne hqp] at hq
    exact hq

/-- A page is loaded into a frame. -/
theorem Inv.loadFrame (h : s.Inv) (f : FrameId) {image : PageImage}
    (himage : ∀ k, s.ident p.fd = some k → image.IsPageOf k p.pageNo) :
    (s.loadFrame f p image).Inv := by
  have hd := h.dropFrame f
  have hfree := h.dropFrame_unmapped f
  refine hd.setPool (fun q g hq => ?_) fun g hg k hk => ?_
  · by_cases hgf : g = f
    · subst hgf
      by_cases hqp : q = p
      · simp [hqp]
      · rw [Function.update_of_ne hqp] at hq
        exact absurd hq (hfree q)
    · rw [Function.update_of_ne hgf]
      exact hd.mapped q g (emplace_old hgf hq)
  · by_cases hgf : g = f
    · subst hgf
      simp only [Function.update_self] at hk ⊢
      rw [dropFrame_ident] at hk
      exact himage k hk
    · rw [Function.update_of_ne hgf] at hg hk ⊢
      refine hd.cached g (hg.imp id ?_) k hk
      rintro ⟨q, hq⟩
      exact ⟨q, emplace_old hgf hq⟩

/-- **`fetch_page`** keeps the invariant and returns a page of the file that is open. -/
theorem Inv.fetchPage (h : s.Inv) (hr : s.fetchPage p v = some (f, s')) :
    s'.Inv ∧ ∀ k, s.ident p.fd = some k → (s'.frames f).page.IsPageOf k p.pageNo := by
  obtain ⟨hmap, rfl⟩ | ⟨-, rfl, path, file, hfile, rfl⟩ := fetchPage_eq hr
  · have hid := h.mapped p f hmap
    refine ⟨h.setFrame rfl ⟨rfl, rfl⟩ fun _ => .inr ⟨p, hmap⟩, fun k hk => ?_⟩
    simp only [Function.update_self]
    rw [← hid] at hk ⊢
    exact h.cached f (.inr ⟨p, hmap⟩) k hk
  · -- the page is read from the file
    have himage : ∀ k, s.ident p.fd = some k → (file.pages p.pageNo).IsPageOf k p.pageNo := by
      intro k hk
      have hident := fileOf_ident hfile
      rw [dropFrame_ident, hk] at hident
      rw [Option.some.inj hident]
      exact (h.dropFrame f).tagged path file (fileOf_files hfile) p.pageNo
    refine ⟨h.loadFrame f himage, fun k hk => ?_⟩
    simpa [SmStore.loadFrame] using himage k hk

/-- **`new_page`** keeps the invariant; the page it returns, and the page that is found under its id
    from then on, are pages of the file that is open. -/
theorem Inv.newPage (h : s.Inv) (hr : s.newPage fd v = some (f, p, s')) :
    s'.Inv ∧ p.fd = fd ∧ ∀ k, s.ident fd = some k → (s'.frames f).page.IsPageOf k p.pageNo ∧
      ∀ g, s'.pageTable p = some g → (s'.frames g).page.IsPageOf k p.pageNo := by
  obtain ⟨rfl, rfl, path, file, hfile, rfl⟩ := newPage_eq_load hr
  have hset : (s.setFd2pageno fd (s.fd2pageno fd + 1)).Inv :=
    ⟨h.tagged, h.paths, h.handles, h.apart, h.mapped, h.cached⟩
  have himage : ∀ k, s.ident fd = some k →
      (⟨file.ident, s.fd2pageno fd, []⟩ : PageImage).IsPageOf k (s.fd2pageno fd) := by
    intro k hk
    rw [fileOf_ident hfile] at hk
    cases hk
    exact ⟨rfl, rfl⟩
  have hload := hset.loadFrame (p := ⟨fd, s.fd2pageno fd⟩) f himage
  refine ⟨hload, rfl, fun k hk => ⟨?_, fun g hg => ?_⟩⟩
  · simpa [SmStore.loadFrame] using himage k hk
  · have hid := hload.mapped _ g hg
    have hpage := hload.cached g (.inr ⟨_, hg⟩) k ?_
    · rw [hid] at hpage
      exact hpage
    · rw [hid]
      exact (dropFrame_ident (s.setFd2pageno fd (s.fd2pageno fd + 1)) f fd).trans hk

/-- `unpin_page` keeps the invariant. -/
theorem Inv.unpinPage (h : s.Inv) (p : PageId) (isDirty : Bool) : (s.unpinPage p isDirty).Inv := by
  unfold SmStore.unpinPage
  split
  · exact h
  · next hmap =>
    split
    · exact h
    · exact h.setFrame rfl ⟨rfl, rfl⟩ fun _ => .inr ⟨p, hmap⟩

/-- `flush_page` keeps it. -/
theorem Inv.flushPage (h : s.Inv) (p : PageId) : (s.flushPage p).Inv := by
  unfold SmStore.flushPage
  split
  · exact h
  · next hmap => exact h.writeFrame (.inr ⟨p, hmap⟩) (h.mapped p _ hmap)

/-- `delete_page` keeps it. -/
theorem Inv.deletePage (h : s.Inv) (p : PageId) : (s.deletePage p).Inv := by
  unfold SmStore.deletePage
  split
  · exact h
  · next f _ =>
    split
    · exact h.dropFrame f
    · exact h

/-- Writing back all pages of a file keeps it. -/
theorem Inv.flushAllPages (h : s.Inv) (ps : List PageId) : (s.flushAllPages ps).Inv := by
  induction ps generalizing s with
  | nil => exact h
  | cons p ps ih => exact ih (h.flushPage p)

/-- Taking all pages of a file out of the pool keeps it. -/
theorem Inv.deleteAllPage (h : s.Inv) (ps : List PageId) : (s.deleteAllPage ps).Inv := by
  induction ps generalizing s with
  | nil => exact h
  | cons p ps ih => exact ih (h.deletePage p)

/-! ### What the operations leave alone -/

/-- `write_page` changes the files only. -/
theorem writePage_frame (s : SmStore) (p : PageId) (x : PageImage) :
    ∃ files, s.writePage p x = { s with files := files } := by
  unfold SmStore.writePage
  split
  · exact ⟨s.files, rfl⟩
  · exact ⟨_, rfl⟩

/-- So do writes of bytes. -/
theorem writeBytes_frame (s : SmStore) (p : PageId) (bytes : List UInt8) :
    ∃ files, s.writeBytes p bytes = { s with files := files } := by
  unfold SmStore.writeBytes
  split
  · exact ⟨s.files, rfl⟩
  · exact s.writePage_frame _ _

/-- The pages a manager writes into a new file. -/
theorem foldl_writeBytes_frame (s : SmStore) (fd : Int) (pages : List (Int × List UInt8)) :
    ∃ files, pages.foldl (fun s e => s.writeBytes ⟨fd, e.1⟩ e.2) s = { s with files := files } := by
  induction pages generalizing s with
  | nil => exact ⟨s.files, rfl⟩
  | cons e pages ih =>
    obtain ⟨files, heq⟩ := s.writeBytes_frame ⟨fd, e.1⟩ e.2
    obtain ⟨files', heq'⟩ := ih (s.writeBytes ⟨fd, e.1⟩ e.2)
    refine ⟨files', ?_⟩
    rw [List.foldl_cons, heq', heq]

/-- Writing a frame back changes files and frames only. -/
theorem writeFrame_frame (s : SmStore) (f : FrameId) (p : PageId) :
    ∃ files frames, s.writeFrame f p = { s with files := files, frames := frames } := by
  obtain ⟨files, heq⟩ := s.writePage_frame p (s.frames f).page
  unfold SmStore.writeFrame
  rw [heq]
  exact ⟨files, _, rfl⟩

/-- So does writing back all pages of a file. -/
theorem flushAllPages_frame (s : SmStore) (ps : List PageId) :
    ∃ files frames, s.flushAllPages ps = { s with files := files, frames := frames } := by
  induction ps generalizing s with
  | nil => exact ⟨s.files, s.frames, rfl⟩
  | cons p ps ih =>
    obtain ⟨files, frames, heq⟩ : ∃ files frames,
        s.flushPage p = { s with files := files, frames := frames } := by
      unfold SmStore.flushPage
      split
      · exact ⟨s.files, s.frames, rfl⟩
      · exact s.writeFrame_frame _ _
    obtain ⟨files', frames', heq'⟩ := ih (s.flushPage p)
    refine ⟨files', frames', ?_⟩
    show (s.flushPage p).flushAllPages ps = _
    rw [heq', heq]

/-- Taking pages out of the pool changes the page table as well. -/
theorem deleteAllPage_frame (s : SmStore) (ps : List PageId) : ∃ files frames table,
    s.deleteAllPage ps = { s with files := files, frames := frames, pageTable := table } := by
  induction ps generalizing s with
  | nil => exact ⟨s.files, s.frames, s.pageTable, rfl⟩
  | cons p ps ih =>
    obtain ⟨files, frames, table, heq⟩ : ∃ files frames table,
        s.deletePage p = { s with files := files, frames := frames, pageTable := table } := by
      unfold SmStore.deletePage
      split
      · exact ⟨s.files, s.frames, s.pageTable, rfl⟩
      · next f _ =>
        split
        · unfold SmStore.dropFrame
          split
          · obtain ⟨files, frames, heq⟩ := s.writeFrame_frame f (s.frames f).id
            rw [heq]
            exact ⟨files, frames, _, rfl⟩
          · exact ⟨s.files, s.frames, _, rfl⟩
        · exact ⟨s.files, s.frames, s.pageTable, rfl⟩
    obtain ⟨files', frames', table', heq'⟩ := ih (s.deletePage p)
    refine ⟨files', frames', table', ?_⟩
    show (s.deletePage p).deleteAllPage ps = _
    rw [heq', heq]

/-! ### The statements -/

/-- A handle is given up and its descriptor closed. -/
theorem Inv.closeHandle (h : s.Inv) {x : FileHandle} (hx : s.IsOpen path x) :
    ({ s with
      fhs := Function.update s.fhs path none
      ihs := Function.update s.ihs path none }.closeFile x.fd).Inv := by
  have hsub : ∀ name y, { s with
      fhs := Function.update s.fhs path none
      ihs := Function.update s.ihs path none }.IsOpen name y → s.IsOpen name y ∧ name ≠ path := by
    intro name y hy
    by_cases hne : name = path
    · subst hne
      simp [IsOpen] at hy
    · exact ⟨by simpa [IsOpen, hne] using hy, hne⟩
  have hinv : { s with
      fhs := Function.update s.fhs path none
      ihs := Function.update s.ihs path none }.Inv := by
    refine ⟨h.tagged, h.paths, fun name y hy => h.handles name y (hsub name y hy).1, fun name => ?_,
      h.mapped, h.cached⟩
    by_cases hne : name = path
    · subst hne
      simp
    · simpa [hne] using h.apart name
  refine hinv.closeFile fun name y hy heq => ?_
  obtain ⟨hopen, hne⟩ := hsub name y hy
  have h1 := (h.handles name y hopen).1
  rw [heq, (h.handles path x hx).1] at h1
  exact hne (Option.some.inj h1).symm

/-- `destroy_file` does not look at the handles. -/
theorem destroyFile_handles (s : SmStore) (path : String) (fhs ihs : String → Option FileHandle) :
    { s.destroyFile path with fhs := fhs, ihs := ihs } =
      { s with fhs := fhs, ihs := ihs }.destroyFile path := by
  unfold SmStore.destroyFile
  by_cases hc : s.descriptors.any (·.2 = path) = true
  · simp only [hc, if_true]
  · simp only [hc]
    rfl

/-- The end of a file leaves the handles to its caller. -/
theorem closeAndDestroy_handles (s : SmStore) (fd : Int) (path : String) (hdr : List UInt8)
    (ps : List PageId) : (s.closeAndDestroy fd path hdr ps).fhs = s.fhs ∧
      (s.closeAndDestroy fd path hdr ps).ihs = s.ihs := by
  obtain ⟨files, heq⟩ := s.writeBytes_frame ⟨fd, 0⟩ hdr
  obtain ⟨files', frames', heq'⟩ := (s.writeBytes ⟨fd, 0⟩ hdr).flushAllPages_frame ps
  unfold SmStore.closeAndDestroy SmStore.destroyFile
  split
  · rw [heq', heq]
    exact ⟨rfl, rfl⟩
  · rw [heq', heq]
    exact ⟨rfl, rfl⟩

/-- The end of a file, together with its handle. -/
theorem Inv.closeAndDestroy (h : s.Inv) {x : FileHandle} (hx : s.IsOpen path x) (hdr : List UInt8)
    (ps : List PageId) : { s.closeAndDestroy x.fd path hdr ps with
      fhs := Function.update s.fhs path none
      ihs := Function.update s.ihs path none }.Inv := by
  have hflush : ((s.writeBytes ⟨x.fd, 0⟩ hdr).flushAllPages ps).Inv :=
    (h.writeBytes ⟨x.fd, 0⟩ hdr).flushAllPages ps
  have hsame : ((s.writeBytes ⟨x.fd, 0⟩ hdr).flushAllPages ps).fhs = s.fhs ∧
      ((s.writeBytes ⟨x.fd, 0⟩ hdr).flushAllPages ps).ihs = s.ihs := by
    obtain ⟨files, heq⟩ := s.writeBytes_frame ⟨x.fd, 0⟩ hdr
    obtain ⟨files', frames', heq'⟩ := (s.writeBytes ⟨x.fd, 0⟩ hdr).flushAllPages_frame ps
    rw [heq', heq]
    exact ⟨rfl, rfl⟩
  have hopen : ((s.writeBytes ⟨x.fd, 0⟩ hdr).flushAllPages ps).IsOpen path x := by
    unfold IsOpen
    rw [hsame.1, hsame.2]
    exact hx
  have hclose := hflush.closeHandle hopen
  rw [hsame.1, hsame.2] at hclose
  unfold SmStore.closeAndDestroy
  rw [destroyFile_handles]
  exact hclose.destroyFile path

/-- The end of an index file.  No table has its name. -/
theorem Inv.closeIndex (h : s.Inv) {x : FileHandle} (hx : s.ihs path = some x) (hdr : List UInt8)
    (ps : List PageId) : { s.closeAndDestroy x.fd path hdr ps with
      ihs := Function.update (s.closeAndDestroy x.fd path hdr ps).ihs path none }.Inv := by
  have hend := h.closeAndDestroy (.inr hx) hdr ps
  have hfhs : Function.update s.fhs path none = s.fhs := by
    refine Function.update_eq_self_iff.mpr ?_
    rcases h.apart path with hn | hn
    · exact hn.symm
    · rw [hx] at hn
      cases hn
  obtain ⟨h1, h2⟩ := s.closeAndDestroy_handles x.fd path hdr ps
  rw [hfhs, ← h1] at hend
  rw [h2]
  exact hend

/-- The end of a table file.  No index file has its name. -/
theorem Inv.closeTable (h : s.Inv) {x : FileHandle} (hx : s.fhs path = some x) (hdr : List UInt8)
    (ps : List PageId) : { s.closeAndDestroy x.fd path hdr ps with
      fhs := Function.update (s.closeAndDestroy x.fd path hdr ps).fhs path none }.Inv := by
  have hend := h.closeAndDestroy (.inl hx) hdr ps
  have hihs : Function.update s.ihs path none = s.ihs := by
    refine Function.update_eq_self_iff.mpr ?_
    rcases h.apart path with hn | hn
    · rw [hx] at hn
      cases hn
    · exact hn.symm
  obtain ⟨h1, h2⟩ := s.closeAndDestroy_handles x.fd path hdr ps
  rw [hihs, ← h2] at hend
  rw [h1]
  exact hend

/-- Another catalog. -/
theorem Inv.setTabs (h : s.Inv) (tabs : String → Option TabMeta) : { s with tabs := tabs }.Inv :=
  ⟨h.tagged, h.paths, h.handles, h.apart, h.mapped, h.cached⟩

/-- `drop_index` keeps the invariant. -/
theorem Inv.dropIndex (h : s.Inv) (tab : String) (names : List String) (hdr : List UInt8)
    (ps : List PageId) : (s.dropIndex tab names hdr ps).Inv := by
  unfold SmStore.dropIndex
  split
  · exact h
  · next info _ =>
    split
    · exact h
    · next index _ =>
      simp only
      split
      · exact h.setTabs _
      · next x hx =>
        have hset := h.setTabs (Function.update s.tabs tab
          (some { info with indexes := info.indexes.erase index }))
        exact hset.closeIndex hx hdr ps

/-- `drop_table` keeps it. -/
theorem Inv.dropTable (h : s.Inv) {tab : String} {hdr : List UInt8} {ps : List PageId}
    (hr : s.dropTable tab hdr ps = some s') : s'.Inv := by
  unfold SmStore.dropTable at hr
  split at hr
  · next info x hinfo hx =>
    split at hr
    · cases hr
    · cases hr
      obtain ⟨files, frames, table, heq⟩ := s.deleteAllPage_frame ps
      have hopen : (s.deleteAllPage ps).fhs tab = some x := by
        rw [heq]
        exact hx
      exact ((h.deleteAllPage ps).closeTable hopen hdr []).setTabs _
  · cases hr

/-- The descriptor that has been opened and closed again is the lowest free one as before. -/
theorem filter_lowestFree {l : List (Int × String)} (h : l.lookup fd = none) :
    ((fd, path) :: l).filter (·.1 ≠ fd) = l := by
  rw [List.filter_cons_of_neg (by simp), List.filter_eq_self]
  intro e he
  have hne := List.lookup_eq_none_iff.mp h e he
  simp only [bne_iff_ne, ne_eq] at hne
  simpa using fun heq => hne heq.symm

/-- `create_file` changes the files, and only if the name is free. -/
theorem createFile_frame (hr : s.createFile path = some s') :
    s.files path = none ∧ ∃ files k, s' = { s with files := files, nextFile := k } := by
  obtain ⟨hnone, rfl⟩ := createFile_eq hr
  exact ⟨hnone, _, _, rfl⟩

/-- Several writes to one file keep the invariant. -/
theorem Inv.foldl_writeBytes (h : s.Inv) (fd : Int) (pages : List (Int × List UInt8)) :
    (pages.foldl (fun s e => s.writeBytes ⟨fd, e.1⟩ e.2) s).Inv := by
  induction pages generalizing s with
  | nil => exact h
  | cons e pages ih => exact ih (h.writeBytes ⟨fd, e.1⟩ e.2)

/-- A file is opened, written and closed again: the descriptors and the pool are as before. -/
theorem Inv.writeClosed (h : s.Inv) (hpurged : s.Purged) {y : FileHandle}
    (hopen : s.openFile path = some (y, s')) (pages : List (Int × List UInt8)) :
    ((pages.foldl (fun s e => s.writeBytes ⟨y.fd, e.1⟩ e.2) s').closeFile y.fd).Inv ∧
      ∃ files fd2pageno, (pages.foldl (fun s e => s.writeBytes ⟨y.fd, e.1⟩ e.2) s').closeFile y.fd =
        { s with files := files, fd2pageno := fd2pageno } := by
  obtain ⟨h', -, -, hfree, hs'⟩ := h.openFile hpurged hopen
  have hlook := lookup_lowestFree hfree
  obtain ⟨files, heq⟩ := s'.foldl_writeBytes_frame y.fd pages
  refine ⟨(h'.foldl_writeBytes y.fd pages).closeFile fun name x hx hxy => ?_, files, ?_⟩
  · rw [heq, hs'] at hx
    have hx' := (h.handles name x hx).1
    rw [hxy, hlook] at hx'
    cases hx'
  · refine ⟨Function.update s.fd2pageno y.fd 0, ?_⟩
    rw [heq, hs']
    unfold SmStore.closeFile
    simp only [filter_lowestFree hlook]

/-- **A new file.** It is created, written and opened under the next descriptor. -/
theorem Inv.createAndOpen (h : s.Inv) (hpurged : s.files path = none → s.Purged)
    {pages : List (Int × List UInt8)} {n : Int} {x : FileHandle}
    (hr : s.createAndOpen path pages n = some (x, s')) :
    s'.Inv ∧ s'.descriptors.lookup x.fd = some path ∧ s'.ident x.fd = some x.file ∧
      s'.fhs = s.fhs ∧ s'.ihs = s.ihs ∧ s.files path = none := by
  obtain ⟨s₁, y, s₂, s₃, hcreate, hopen, hreopen, rfl⟩ := createAndOpen_eq hr
  have h₁ := h.createFile hcreate
  obtain ⟨hnone, files, k, rfl⟩ := createFile_frame hcreate
  have hpurged := hpurged hnone
  obtain ⟨h₂, files', pageno, heq⟩ := h₁.writeClosed hpurged hopen pages
  have hpurged₂ : ((pages.foldl (fun s e => s.writeBytes ⟨y.fd, e.1⟩ e.2) s₂).closeFile
      y.fd).Purged := by
    rw [heq]
    exact hpurged
  obtain ⟨h₃, hlook, hident, -, hs₃⟩ := h₂.openFile hpurged₂ hreopen
  rw [heq] at hs₃
  subst hs₃
  exact ⟨⟨h₃.tagged, h₃.paths, h₃.handles, h₃.apart, h₃.mapped, h₃.cached⟩, hlook, hident, rfl,
    rfl, hnone⟩

/-- A name under which there is no file is no handle's. -/
theorem Inv.not_open (h : s.Inv) (hnone : s.files name = none) (x : FileHandle) :
    ¬ s.IsOpen name x := by
  intro hx
  exact h.paths _ (mem_of_lookup (h.handles name x hx).1) hnone

/-- The handle of a file that has just been opened is stored. -/
theorem Inv.addHandle (h : s.Inv) {x : FileHandle} (hlook : s.descriptors.lookup x.fd = some path)
    (hident : s.ident x.fd = some x.file) (hno : ∀ y, ¬ s.IsOpen path y)
    (tabs : String → Option TabMeta) :
    { s with tabs := tabs, fhs := Function.update s.fhs path (some x) }.Inv ∧
      { s with tabs := tabs, ihs := Function.update s.ihs path (some x) }.Inv := by
  have hfhs : s.fhs path = none := Option.eq_none_iff_forall_ne_some.mpr fun y hy => hno y (.inl hy)
  have hihs : s.ihs path = none := Option.eq_none_iff_forall_ne_some.mpr fun y hy => hno y (.inr hy)
  have hupdate : ∀ {m : String → Option FileHandle} {name : String} {y : FileHandle},
      Function.update m path (some x) name = some y → m name = some y ∨ (name = path ∧ y = x) := by
    intro m name y hy
    by_cases hne : name = path
    · subst hne
      simp only [Function.update_self, Option.some.injEq] at hy
      exact .inr ⟨rfl, hy.symm⟩
    · exact .inl (by simpa [hne] using hy)
  have hhandle : ∀ {name : String} {y : FileHandle}, s.IsOpen name y ∨ (name = path ∧ y = x) →
      s.descriptors.lookup y.fd = some name ∧ s.ident y.fd = some y.file := by
    rintro name y (hy | ⟨rfl, rfl⟩)
    · exact h.handles name y hy
    · exact ⟨hlook, hident⟩
  refine ⟨⟨h.tagged, h.paths, ?_, ?_, h.mapped, h.cached⟩,
    ⟨h.tagged, h.paths, ?_, ?_, h.mapped, h.cached⟩⟩
  · rintro name y (hy | hy)
    · exact hhandle ((hupdate hy).imp .inl id)
    · exact hhandle (.inl (.inr hy))
  · intro name
    by_cases hne : name = path
    · subst hne
      exact .inr hihs
    · simpa [hne] using h.apart name
  · rintro name y (hy | hy)
    · exact hhandle (.inl (.inl hy))
    · exact hhandle ((hupdate hy).imp .inr id)
  · intro name
    by_cases hne : name = path
    · subst hne
      exact .inl hfhs
    · simpa [hne] using h.apart name

/-- A new file is no handle's yet. -/
theorem Inv.createAndOpen_fresh (h : s.Inv) (hpurged : s.files path = none → s.Purged)
    {pages : List (Int × List UInt8)} {n : Int} {x : FileHandle}
    (hr : s.createAndOpen path pages n = some (x, s'))
    (y : FileHandle) : ¬ s'.IsOpen path y := by
  obtain ⟨-, -, -, hfhs, hihs, hnone⟩ := h.createAndOpen hpurged hr
  unfold IsOpen
  rw [hfhs, hihs]
  exact h.not_open hnone y

/-- `create_table` keeps it while nothing is cached under the next descriptor. -/
theorem Inv.createTable (h : s.Inv) (tab : String) (hpurged : s.files tab = none → s.Purged)
    (cols : List ColMeta) (hdr : List UInt8) : (s.createTable tab cols hdr).Inv := by
  unfold SmStore.createTable
  split
  · exact h
  · split
    · exact h
    · split
      · exact h
      · next x s₁ hr =>
        obtain ⟨h₁, hlook, hident, -⟩ := h.createAndOpen hpurged hr
        exact (h₁.addHandle hlook hident (h.createAndOpen_fresh hpurged hr) _).1

/-- The file that a failed `create_index` leaves behind keeps it. -/
theorem Inv.leakIndexFile (h : s.Inv) (hpurged : s.files path = none → s.Purged) :
    (s.leakIndexFile path).Inv := by
  unfold SmStore.leakIndexFile
  split
  · exact h
  · next s₁ hcreate =>
    have h₁ := h.createFile hcreate
    obtain ⟨hnone, files, k, rfl⟩ := createFile_frame hcreate
    split
    · exact h₁
    · next hopen => exact (h₁.openFile (hpurged hnone) hopen).1

/-- `create_index` keeps it while nothing is cached under the next descriptor. -/
theorem Inv.createIndex (h : s.Inv) (tab : String) (names : List String)
    (hpurged : s.files (getIndexName tab names) = none → s.Purged)
    (hdr leafHdr root : List UInt8) : (s.createIndex tab names hdr leafHdr root).Inv := by
  unfold SmStore.createIndex
  simp only
  split
  · exact h
  · split
    · exact h
    · split
      · exact h
      · split
        · exact h.leakIndexFile hpurged
        · split
          · exact h
          · next x s₁ hr =>
            obtain ⟨h₁, hlook, hident, -⟩ := h.createAndOpen hpurged hr
            exact (h₁.addHandle hlook hident (h.createAndOpen_fresh hpurged hr) _).2

/-- A statement that creates a file opens it in a purged state. -/
def PurgedStep (s : SmStore) : SmStep → Prop
  | .createTable tab _ _ => s.files tab = none → s.Purged
  | .createIndex tab names _ _ _ => s.files (getIndexName tab names) = none → s.Purged
  | _ => True

/-- **One step.** -/
theorem Inv.step (h : s.Inv) {a : SmStep} (hp : s.PurgedStep a) (hr : s.Step a s') : s'.Inv := by
  cases a with
  | createTable tab cols hdr =>
    rw [show s' = _ from hr]
    exact h.createTable tab hp cols hdr
  | dropTable tab hdr ps => exact h.dropTable hr.2
  | createIndex tab names hdr leafHdr root =>
    rw [show s' = _ from hr]
    exact h.createIndex tab names hp hdr leafHdr root
  | dropIndex tab names hdr ps =>
    rw [hr.2]
    exact h.dropIndex tab names hdr ps
  | fetchPage x n v =>
    obtain ⟨-, f, hf⟩ := hr
    exact (h.fetchPage hf).1
  | newPage x v =>
    obtain ⟨-, f, p, hf⟩ := hr
    exact (h.newPage hf).1
  | change f bytes =>
    rw [hr.2]
    exact h.setFrame rfl ⟨rfl, rfl⟩ .inl
  | unpinPage p isDirty =>
    rw [show s' = _ from hr]
    exact h.unpinPage p isDirty
  | flushPage p =>
    rw [show s' = _ from hr]
    exact h.flushPage p
  | deletePage p =>
    rw [show s' = _ from hr]
    exact h.deletePage p
  | writeHdr x hdr =>
    rw [hr.2]
    exact h.writeBytes _ hdr

end SmStore

/-- The runs in which files are opened in purged states only. -/
def purgedSmManager : TransitionSystem SmStore SmStep where
  init := SmStore.Initial
  step s a s' := smManager.step s a s' ∧ s.PurgedStep a

/-- **Every handle reads its own file.** In a run in which no file is opened under a descriptor that
    still has pages in the pool, whatever `fetch_page` returns for a page of an open handle is that
    page of the file the handle was opened on; and so is the page `new_page` returns, and the page
    that is found under the new number from then on. -/
theorem handles_read_own_pages (s : SmStore) (hs : purgedSmManager.Reachable s) (name : String)
    (h : FileHandle) (hopen : s.IsOpen name h) :
    (∀ n v f s', s.fetchPage ⟨h.fd, n⟩ v = some (f, s') →
      (s'.frames f).page.IsPageOf h.file n) ∧
    ∀ v f p s', s.newPage h.fd v = some (f, p, s') →
      (s'.frames f).page.IsPageOf h.file p.pageNo ∧
      ∀ g, s'.pageTable p = some g → (s'.frames g).page.IsPageOf h.file p.pageNo := by
  have hinv : s.Inv := by
    refine hs.invariant (I := SmStore.Inv) (fun s hi => ?_) fun s a s' hi hstep => ?_
    · exact SmStore.Initial.inv hi
    · exact hi.step hstep.2 hstep.1
  have hident := (hinv.handles name h hopen).2
  constructor
  · intro n v f s' hr
    exact (hinv.fetchPage hr).2 h.file hident
  · intro v f p s' hr
    exact (hinv.newPage hr).2.2 h.file hident

/-- A process with a terminal on its first three descriptors, and no table. -/
def emptyDb : SmStore where
  frames _ := { id := ⟨-1, -1⟩, page := ⟨0, 0, []⟩, isDirty := false, pinCount := 0 }
  pageTable _ := none
  files path := if path = "tty" then some { ident := 0, pages := fun n => ⟨0, n, []⟩ } else none
  descriptors := [(0, "tty"), (1, "tty"), (2, "tty")]
  fd2pageno _ := 0
  nextFile := 1
  tabs _ := none
  fhs _ := none
  ihs _ := none

/-- A new database without files. -/
theorem emptyDb_initial : emptyDb.Initial where
  pool _ := rfl
  clean _ := rfl
  tabs _ := rfl
  fhs _ := rfl
  ihs _ := rfl
  descriptors e he := by
    simp only [emptyDb, List.mem_cons, List.not_mem_nil, or_false] at he
    rcases he with rfl | rfl | rfl <;> simp [emptyDb]
  files path file hf := by
    simp only [emptyDb] at hf ⊢
    split at hf
    · cases hf
      exact ⟨Nat.zero_lt_one, fun n => ⟨rfl, rfl⟩⟩
    · cases hf

/-- Its pool is empty. -/
theorem emptyDb_purged : emptyDb.Purged := by
  rintro fd - f - (hd | ⟨p, hp⟩)
  · cases hd
  · cases hp

/-- Two columns. -/
def twoInts : List ColMeta := [⟨"a", .int, 4, 0⟩, ⟨"b", .int, 4, 4⟩]

/-- The first page of a new table. -/
theorem new_table_page_is_its_own :
    ∃ f p s', (emptyDb.createTable "t" twoInts []).newPage 3 0 = some (f, p, s') ∧
      (s'.frames f).page.IsPageOf 1 p.pageNo := by
  have hreach : purgedSmManager.Reachable (emptyDb.createTable "t" twoInts []) :=
    (TransitionSystem.Reachable.init emptyDb_initial).step (a := .createTable "t" twoInts [])
      ⟨rfl, fun _ => emptyDb_purged⟩
  refine ⟨0, ⟨3, 1⟩, _, rfl, ?_⟩
  exact ((handles_read_own_pages _ hreach "t" ⟨3, 1⟩ (.inl rfl)).2 0 0 ⟨3, 1⟩ _ rfl).1

/-- A table with an index whose root has been fetched, into frame 0. -/
def rootFetched : SmStore :=
  let s := (emptyDb.createTable "t" twoInts []).createIndex "t" ["a"] [] [] []
  (s.fetchPage ⟨4, 2⟩ 0).elim s Prod.snd

/-- The root page of a new index is fetched in a run. -/
theorem rootFetched_reachable : smManager.Reachable rootFetched := by
  have h0 : smManager.Reachable emptyDb := .init emptyDb_initial
  have h1 : smManager.Reachable (emptyDb.createTable "t" twoInts []) :=
    h0.step (a := .createTable "t" twoInts []) rfl
  have h2 : smManager.Reachable
      ((emptyDb.createTable "t" twoInts []).createIndex "t" ["a"] [] [] []) :=
    h1.step (a := .createIndex "t" ["a"] [] [] []) rfl
  exact h2.step (a := .fetchPage ⟨4, 2⟩ 2 0) ⟨⟨"t_a.idx", .inr rfl⟩, 0, rfl⟩

/-- **A new index reads a dropped one.** The root of an index is cached, the index is dropped, and an
    index on another column is created.  It is opened under the descriptor of the first, and its root
    is found in the pool: it is the root of the first. -/
theorem index_reads_dropped_index : ¬ ∀ s, smManager.Reachable s → ∀ name h, s.IsOpen name h →
    ∀ n v f s', s.fetchPage ⟨h.fd, n⟩ v = some (f, s') → (s'.frames f).page.IsPageOf h.file n := by
  intro hall
  have h1 : smManager.Reachable (rootFetched.unpinPage ⟨4, 2⟩ true) :=
    rootFetched_reachable.step (a := .unpinPage ⟨4, 2⟩ true) rfl
  have h2 : smManager.Reachable
      ((rootFetched.unpinPage ⟨4, 2⟩ true).dropIndex "t" ["a"] [] [⟨4, 2⟩]) := by
    refine h1.step (a := .dropIndex "t" ["a"] [] [⟨4, 2⟩]) ⟨fun h hh p => ?_, rfl⟩
    have hfd : h = ⟨4, 2⟩ := Option.some.inj hh.symm
    subst hfd
    have htable : (rootFetched.unpinPage ⟨4, 2⟩ true).pageTable p =
        Function.update (Function.update (fun _ => none) ⟨-1, -1⟩ none) ⟨4, 2⟩ (some 0) p := rfl
    rw [htable]
    by_cases hp : p = ⟨4, 2⟩
    · subst hp
      simp
    · simp [hp]
  have h3 : smManager.Reachable
      (((rootFetched.unpinPage ⟨4, 2⟩ true).dropIndex "t" ["a"] [] [⟨4, 2⟩]).createIndex
        "t" ["b"] [] [] []) :=
    h2.step (a := .createIndex "t" ["b"] [] [] []) rfl
  have hpage := hall _ h3 "t_b.idx" ⟨4, 3⟩ (.inr rfl) 2 1 0 _ rfl
  exact absurd hpage.1 (by decide +kernel)

end Rmdb
