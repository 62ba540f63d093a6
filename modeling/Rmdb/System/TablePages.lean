import Rmdb.System.FileHandles

namespace Rmdb

open Lib

/-!
# The pages of a table, in the pool and on the disk

What the pool owes to one open table while statements on all tables and indexes use it: a page of the
table that is cached and clean is the page on the disk, a dirty one is in the page table, and the
header page is not in the pool.

* `TableOk` — the invariant;
* `TableOk.other…` — what is done under other descriptors keeps it;
* `TableOk.fetch`, `TableOk.write`, `TableOk.new` — the page accesses of the table.
-/

namespace SmStore

variable {s s' : SmStore} {f v : FrameId} {p : PageId} {fd n : Int} {path name : String}
  {h : FileHandle} {hdr : List UInt8} {busy : Option Int}

/-- The pool agrees with itself. -/
def Mapped (s : SmStore) : Prop := ∀ p f, s.pageTable p = some f → (s.frames f).id = p

/-- **The table** `name`, open under the handle `h`, with the header `hdr`.  The page `busy` is being
    changed. -/
structure TableOk (s : SmStore) (name : String) (h : FileHandle) (hdr : List UInt8)
    (busy : Option Int) : Prop where
  opened : s.descriptors.lookup h.fd = some name
  unique : ∀ fd, s.descriptors.lookup fd = some name → fd = h.fd
  pages : 1 ≤ s.fd2pageno h.fd
  range : ∀ n f, s.pageTable ⟨h.fd, n⟩ = some f → 1 ≤ n ∧ n < s.fd2pageno h.fd
  owned : ∀ f, (s.frames f).id.fd = h.fd → (s.frames f).isDirty = true →
    s.pageTable (s.frames f).id = some f
  stored : ∃ file, s.files name = some file ∧ (file.pages 0).bytes = hdr ∧
    ∀ n f, s.pageTable ⟨h.fd, n⟩ = some f → (s.frames f).isDirty = false → some n ≠ busy →
      file.pages n = (s.frames f).page

/-! ### The disk -/

/-- A descriptor with a file is open. -/
theorem fileOf_lookup {file : DiskFile} (hf : s.fileOf fd = some (path, file)) :
    s.descriptors.lookup fd = some path := by
  unfold fileOf at hf
  split at hf
  · cases hf
  · next hl =>
    split at hf
    · cases hf
    · cases hf
      exact hl

/-- A write under another descriptor goes to another file. -/
theorem TableOk.writePage_other (ht : s.TableOk name h hdr busy) (hp : p.fd ≠ h.fd)
    (x : PageImage) : (s.writePage p x).files name = s.files name := by
  unfold SmStore.writePage
  split
  · rfl
  · next path file hf =>
    have hne : name ≠ path := by
      rintro rfl
      exact hp (ht.unique _ (fileOf_lookup hf))
    exact Function.update_of_ne hne _ _

/-- The files change, but not that of the table. -/
theorem TableOk.setFiles (ht : s.TableOk name h hdr busy) {files : String → Option DiskFile}
    (hf : files name = s.files name) : { s with files := files }.TableOk name h hdr busy := by
  refine ⟨ht.opened, ht.unique, ht.pages, ht.range, ht.owned, ?_⟩
  obtain ⟨file, hfile, hrest⟩ := ht.stored
  exact ⟨file, hf.trans hfile, hrest⟩

/-- A page of another file is written. -/
theorem TableOk.other_writePage (ht : s.TableOk name h hdr busy) (hp : p.fd ≠ h.fd)
    (x : PageImage) : (s.writePage p x).TableOk name h hdr busy := by
  have hsame := ht.writePage_other hp x
  obtain ⟨files, heq⟩ := s.writePage_frame p x
  rw [heq] at hsame ⊢
  exact ht.setFiles hsame

/-- Bytes of another file are written. -/
theorem TableOk.other_writeBytes (ht : s.TableOk name h hdr busy) (hp : p.fd ≠ h.fd)
    (bytes : List UInt8) : (s.writeBytes p bytes).TableOk name h hdr busy := by
  unfold SmStore.writeBytes
  split
  · exact ht
  · exact ht.other_writePage hp _

/-- A page of the table is written. -/
theorem TableOk.writePage_own (ht : s.TableOk name h hdr busy) (n : Int) (x : PageImage) :
    ∃ file, s.files name = some file ∧ s.fileOf h.fd = some (name, file) ∧
      s.writePage ⟨h.fd, n⟩ x = { s with
        files := Function.update s.files name
          (some { file with pages := Function.update file.pages n x }) } := by
  obtain ⟨file, hfile, -⟩ := ht.stored
  have hof : s.fileOf h.fd = some (name, file) := by
    unfold fileOf
    rw [ht.opened]
    simp only [hfile]
  refine ⟨file, hfile, hof, ?_⟩
  unfold SmStore.writePage
  simp only [hof]

/-- The header is written. -/
theorem TableOk.writeHdr (ht : s.TableOk name h hdr busy) (hdr' : List UInt8) :
    (s.writeBytes ⟨h.fd, 0⟩ hdr').TableOk name h hdr' busy := by
  obtain ⟨file, hfile, hof, -⟩ := ht.writePage_own 0 ⟨0, 0, hdr'⟩
  have heq : s.writeBytes ⟨h.fd, 0⟩ hdr' = s.writePage ⟨h.fd, 0⟩ ⟨file.ident, 0, hdr'⟩ := by
    unfold SmStore.writeBytes
    simp only [hof]
  obtain ⟨file', hfile', -, hwrite⟩ := ht.writePage_own 0 ⟨file.ident, 0, hdr'⟩
  rw [heq, hwrite]
  refine ⟨ht.opened, ht.unique, ht.pages, ht.range, ht.owned, ?_⟩
  refine ⟨_, Function.update_self _ _ _, by simp, fun n f hmap hd hn => ?_⟩
  have hpos := (ht.range n f hmap).1
  obtain ⟨file'', hfile'', -, hclean⟩ := ht.stored
  have hsame : file'' = file' := Option.some.inj (hfile''.symm.trans hfile')
  have hn0 : n ≠ 0 := by omega
  simp only [ne_eq, hn0, not_false_eq_true, Function.update_of_ne]
  rw [← hsame]
  exact hclean n f hmap hd hn

/-! ### The pool -/

/-- Frames and mappings change, those of the table's pages do not. -/
theorem TableOk.setPool (ht : s.TableOk name h hdr busy) {frames : FrameId → SmFrame}
    {table : PageId → Option FrameId}
    (htable : ∀ n, table ⟨h.fd, n⟩ = s.pageTable ⟨h.fd, n⟩)
    (hframes : ∀ n f, s.pageTable ⟨h.fd, n⟩ = some f → (frames f).isDirty = (s.frames f).isDirty ∧
      (frames f).page = (s.frames f).page)
    (howned : ∀ f, (frames f).id.fd = h.fd → (frames f).isDirty = true →
      table (frames f).id = some f) :
    { s with frames := frames, pageTable := table }.TableOk name h hdr busy := by
  refine ⟨ht.opened, ht.unique, ht.pages, ?_, howned, ?_⟩
  · intro n f hmap
    exact ht.range n f ((htable n).symm.trans hmap)
  · obtain ⟨file, hfile, hhdr, hclean⟩ := ht.stored
    refine ⟨file, hfile, hhdr, fun n f hmap hd hn => ?_⟩
    have hmap' : s.pageTable ⟨h.fd, n⟩ = some f := (htable n).symm.trans hmap
    obtain ⟨h1, h2⟩ := hframes n f hmap'
    exact (hclean n f hmap' (h1.symm.trans hd) hn).trans h2.symm

/-- One frame changes; its page, its id and its dirty mark do not. -/
theorem TableOk.pin (ht : s.TableOk name h hdr busy) (f : FrameId) (k : Int) :
    { s with frames := Function.update s.frames f { s.frames f with pinCount := k } }.TableOk
      name h hdr busy := by
  have hsame : ∀ g, (Function.update s.frames f { s.frames f with pinCount := k } g).isDirty =
      (s.frames g).isDirty ∧
      (Function.update s.frames f { s.frames f with pinCount := k } g).page = (s.frames g).page ∧
      (Function.update s.frames f { s.frames f with pinCount := k } g).id = (s.frames g).id := by
    intro g
    by_cases hg : g = f
    · subst hg
      simp
    · simp [hg]
  refine ht.setPool (fun _ => rfl) (fun n g _ => ⟨(hsame g).1, (hsame g).2.1⟩) fun g hid hd => ?_
  rw [(hsame g).2.2] at hid ⊢
  exact ht.owned g hid ((hsame g).1.symm.trans hd)

/-- A cached page of the table is written to the disk. -/
theorem TableOk.flush (ht : s.TableOk name h hdr busy) (hi : s.Inv)
    (hmap : s.pageTable ⟨h.fd, n⟩ = some f) (hb : ∀ m, busy = some m → m = n) :
    (s.writeFrame f ⟨h.fd, n⟩).TableOk name h hdr none := by
  obtain ⟨file, hfile, -, hwrite⟩ := ht.writePage_own n (s.frames f).page
  obtain ⟨file', hfile', hhdr, hclean⟩ := ht.stored
  obtain rfl : file' = file := Option.some.inj (hfile'.symm.trans hfile)
  have hn := (ht.range n f hmap).1
  have hother : ∀ m g, m ≠ n → s.pageTable ⟨h.fd, m⟩ = some g → g ≠ f := by
    rintro m g hm hg rfl
    have hid := (hi.mapped _ _ hg).symm.trans (hi.mapped _ _ hmap)
    exact hm (by simpa using hid)
  unfold SmStore.writeFrame
  rw [hwrite]
  refine ⟨ht.opened, ht.unique, ht.pages, ht.range, ?_, _, Function.update_self _ _ _, ?_, ?_⟩
  · intro g hid hd
    by_cases hg : g = f
    · subst hg
      simp at hd
    · simp only [Function.update_of_ne hg] at hid hd ⊢
      exact ht.owned g hid hd
  · simp only
    rw [Function.update_of_ne (by omega)]
    exact hhdr
  · intro m g hg hd _
    by_cases hm : m = n
    · subst hm
      have hgf : g = f := Option.some.inj (hg.symm.trans hmap)
      subst hgf
      simp
    · have hgf := hother m g hm hg
      simp only [Function.update_of_ne hm, Function.update_of_ne hgf] at hd ⊢
      exact hclean m g hg hd fun heq => hm (hb m heq.symm)

/-- The same for a page under another descriptor. -/
theorem TableOk.other_writeFrame (ht : s.TableOk name h hdr busy) (hi : s.Inv)
    (hid : (s.frames f).id.fd ≠ h.fd) (hp : p.fd ≠ h.fd) :
    (s.writeFrame f p).TableOk name h hdr busy := by
  have hw := ht.other_writePage hp (s.frames f).page
  have hframes : (s.writePage p (s.frames f).page).frames = s.frames := by
    obtain ⟨files, heq⟩ := s.writePage_frame p (s.frames f).page
    rw [heq]
  have htable : (s.writePage p (s.frames f).page).pageTable = s.pageTable := by
    obtain ⟨files, heq⟩ := s.writePage_frame p (s.frames f).page
    rw [heq]
  refine hw.setPool (fun _ => rfl) (fun m g hg => ?_) fun g hidg hd => ?_
  · have hgf : g ≠ f := by
      rintro rfl
      rw [htable] at hg
      exact hid (by rw [hi.mapped _ _ hg])
    simp [Function.update_of_ne hgf]
  · by_cases hgf : g = f
    · subst hgf
      simp at hd
    · simp only [Function.update_of_ne hgf] at hidg hd ⊢
      exact hw.owned g hidg hd

/-- A mapping is erased; the page was not dirty. -/
theorem TableOk.erase (ht : s.TableOk name h hdr busy) (q : PageId)
    (hq : ∀ g, s.pageTable q = some g → q.fd = h.fd → (s.frames g).isDirty = false) :
    { s with pageTable := Function.update s.pageTable q none }.TableOk name h hdr busy := by
  have hold : ∀ {n g}, Function.update s.pageTable q none ⟨h.fd, n⟩ = some g →
      s.pageTable ⟨h.fd, n⟩ = some g := by
    intro n g hg
    by_cases hqn : (⟨h.fd, n⟩ : PageId) = q
    · rw [hqn, Function.update_self] at hg
      cases hg
    · rwa [Function.update_of_ne hqn] at hg
  obtain ⟨file, hfile, hhdr, hclean⟩ := ht.stored
  refine ⟨ht.opened, ht.unique, ht.pages, fun n g hg => ht.range n g (hold hg), ?_, file, hfile, hhdr,
    fun n g hg => hclean n g (hold hg)⟩
  intro g hid hd
  have hmap := ht.owned g hid hd
  show Function.update s.pageTable q none (s.frames g).id = some g
  by_cases hqg : (s.frames g).id = q
  · rw [hqg] at hmap hid
    rw [hq g hmap hid] at hd
    cases hd
  · rw [Function.update_of_ne hqg]
    exact hmap

/-- The page that was in the frame before is not cached in another frame. -/
def SafeReuse (s : SmStore) (v : FrameId) : Prop :=
  ∀ g, s.pageTable (s.frames v).id = some g → g = v

/-- A frame leaves the pool. -/
theorem TableOk.dropFrame (ht : s.TableOk name h hdr none) (hi : s.Inv) (hsafe : s.SafeReuse v) :
    (s.dropFrame v).TableOk name h hdr none := by
  unfold SmStore.dropFrame
  by_cases hd : (s.frames v).isDirty = true
  · simp only [hd, if_true]
    have hid : ((s.writeFrame v (s.frames v).id).frames v).id = (s.frames v).id := by
      obtain ⟨files, heq⟩ := s.writePage_frame (s.frames v).id (s.frames v).page
      simp [SmStore.writeFrame, heq]
    have hclean : ((s.writeFrame v (s.frames v).id).frames v).isDirty = false := by
      simp [SmStore.writeFrame]
    have htable : (s.writeFrame v (s.frames v).id).pageTable = s.pageTable := by
      obtain ⟨files, heq⟩ := s.writePage_frame (s.frames v).id (s.frames v).page
      simp [SmStore.writeFrame, heq]
    by_cases hfd : (s.frames v).id.fd = h.fd
    · -- a dirty page of the table is cached in its own frame
      have hmap := ht.owned v hfd hd
      have hflush : (s.writeFrame v (s.frames v).id).TableOk name h hdr none := by
        have hpage : (s.frames v).id = ⟨h.fd, (s.frames v).id.pageNo⟩ := by rw [← hfd]
        rw [hpage] at hmap ⊢
        exact ht.flush hi hmap fun m hm => by cases hm
      refine hflush.erase _ fun g hg _ => ?_
      rw [hid, htable] at hg
      rw [hsafe g hg]
      exact hclean
    · refine (ht.other_writeFrame hi hfd hfd).erase _ fun g _ hq => ?_
      rw [hid] at hq
      exact absurd hq hfd
  · simp only [hd]
    refine ht.erase _ fun g hg _ => ?_
    rw [hsafe g hg]
    simpa using hd

/-- A frame is written back before it leaves the pool. -/
theorem dropFrame_clean (s : SmStore) (v : FrameId) : ((s.dropFrame v).frames v).isDirty = false := by
  unfold SmStore.dropFrame
  by_cases hd : (s.frames v).isDirty = true
  · simp [hd, SmStore.writeFrame]
  · simp [hd]

/-- The catalog, the handles and the descriptors stay. -/
theorem dropFrame_frame (s : SmStore) (v : FrameId) : ∃ files frames table,
    s.dropFrame v = { s with files := files, frames := frames, pageTable := table } := by
  unfold SmStore.dropFrame
  by_cases hd : (s.frames v).isDirty = true
  · obtain ⟨files, frames, heq⟩ := s.writeFrame_frame v (s.frames v).id
    simp only [hd, if_true, heq]
    exact ⟨_, _, _, rfl⟩
  · simp only [hd]
    exact ⟨_, _, _, rfl⟩

/-- Another page is loaded into a frame. -/
theorem TableOk.other_loadFrame (ht : s.TableOk name h hdr none) (hi : s.Inv)
    (hsafe : s.SafeReuse v) (hp : p.fd ≠ h.fd) (image : PageImage) :
    (s.loadFrame v p image).TableOk name h hdr none := by
  have hdrop := ht.dropFrame hi hsafe
  have hfree := hi.dropFrame_unmapped v
  have hne : ∀ n, (⟨h.fd, n⟩ : PageId) ≠ p := by
    rintro n rfl
    exact hp rfl
  refine hdrop.setPool (fun n => Function.update_of_ne (hne n) _ _) (fun n g hg => ?_)
    fun g hid hd => ?_
  · have hgv : g ≠ v := by
      rintro rfl
      exact hfree _ hg
    simp [Function.update_of_ne hgv]
  · by_cases hgv : g = v
    · subst hgv
      simp only [Function.update_self] at hid
      exact absurd hid hp
    · simp only [Function.update_of_ne hgv] at hid hd ⊢
      have hq : ((s.dropFrame v).frames g).id ≠ p := fun heq => hp (by rw [← heq]; exact hid)
      rw [Function.update_of_ne hq]
      exact hdrop.owned g hid hd

/-- A page of the table is loaded into a frame; the frame is to be filled. -/
theorem TableOk.loadFrame (ht : s.TableOk name h hdr none) (hi : s.Inv) (hsafe : s.SafeReuse v)
    (hn : 1 ≤ n ∧ n < s.fd2pageno h.fd) (hmiss : s.pageTable ⟨h.fd, n⟩ = none) (image : PageImage) :
    (s.loadFrame v ⟨h.fd, n⟩ image).TableOk name h hdr (some n) ∧
      (s.loadFrame v ⟨h.fd, n⟩ image).pageTable ⟨h.fd, n⟩ = some v := by
  have hdrop := ht.dropFrame hi hsafe
  have hfree := hi.dropFrame_unmapped v
  have hnone : (s.dropFrame v).pageTable ⟨h.fd, n⟩ = none := by
    have hle : ∀ q, s.pageTable q = none → (s.dropFrame v).pageTable q = none := by
      intro q hq
      unfold SmStore.dropFrame
      by_cases hd : (s.frames v).isDirty = true
      · obtain ⟨files, frames, heq⟩ := s.writeFrame_frame v (s.frames v).id
        simp only [hd, if_true, heq, Function.update_apply, hq, ite_self]
      · simp only [hd, Bool.false_eq_true, if_false, Function.update_apply, hq, ite_self]
    exact hle _ hmiss
  have hpageno : (s.dropFrame v).fd2pageno = s.fd2pageno := by
    obtain ⟨files, frames, table, heq⟩ := s.dropFrame_frame v
    rw [heq]
  have hself : (s.loadFrame v ⟨h.fd, n⟩ image).pageTable ⟨h.fd, n⟩ = some v := by
    simp [SmStore.loadFrame, hnone]
  obtain ⟨file, hfile, hhdr, hclean⟩ := hdrop.stored
  -- the other pages of the table stay in other frames
  have hold : ∀ m g, m ≠ n → (s.loadFrame v ⟨h.fd, n⟩ image).pageTable ⟨h.fd, m⟩ = some g →
      (s.dropFrame v).pageTable ⟨h.fd, m⟩ = some g ∧ g ≠ v := by
    intro m g hm hg
    have hmn : (⟨h.fd, m⟩ : PageId) ≠ ⟨h.fd, n⟩ := by simpa using hm
    have hg' : (s.dropFrame v).pageTable ⟨h.fd, m⟩ = some g := by
      simpa [SmStore.loadFrame, Function.update_of_ne hmn] using hg
    refine ⟨hg', ?_⟩
    rintro rfl
    exact hfree _ hg'
  refine ⟨⟨hdrop.opened, hdrop.unique, hdrop.pages, ?_, ?_, file, hfile, hhdr, ?_⟩, hself⟩
  · intro m g hg
    show 1 ≤ m ∧ m < (s.dropFrame v).fd2pageno h.fd
    by_cases hm : m = n
    · rw [hm, hpageno]
      exact hn
    · exact hdrop.range m g (hold m g hm hg).1
  · intro g hid hd
    -- the frame itself is clean after the page has been read
    by_cases hgv : g = v
    · subst hgv
      simp [SmStore.loadFrame, s.dropFrame_clean g] at hd
    · simp only [SmStore.loadFrame, Function.update_of_ne hgv] at hid hd ⊢
      have hmap := hdrop.owned g hid hd
      have hq : ((s.dropFrame v).frames g).id ≠ ⟨h.fd, n⟩ := by
        intro heq
        rw [heq, hnone] at hmap
        cases hmap
      rw [Function.update_of_ne hq]
      exact hmap
  · intro m g hg hd hm
    have hmn : m ≠ n := fun heq => hm (by rw [heq])
    obtain ⟨hg', hgv⟩ := hold m g hmn hg
    simp only [SmStore.loadFrame, Function.update_of_ne hgv] at hd ⊢
    exact hclean m g hg' hd (by simp)

/-- The frame has the page of the disk: it is no longer to be filled. -/
theorem TableOk.settle (ht : s.TableOk name h hdr (some n)) (hmap : s.pageTable ⟨h.fd, n⟩ = some f)
    (hpage : (s.frames f).isDirty = true ∨
      ∀ file, s.files name = some file → file.pages n = (s.frames f).page) :
    s.TableOk name h hdr none := by
  refine ⟨ht.opened, ht.unique, ht.pages, ht.range, ht.owned, ?_⟩
  obtain ⟨file, hfile, hhdr, hclean⟩ := ht.stored
  refine ⟨file, hfile, hhdr, fun m g hg hd _ => ?_⟩
  by_cases hm : m = n
  · subst hm
    have hgf : g = f := Option.some.inj (hg.symm.trans hmap)
    subst hgf
    rcases hpage with hdirty | hpage
    · rw [hd] at hdirty
      cases hdirty
    · exact hpage file hfile
  · exact hclean m g hg hd (by simpa using hm)

/-- **`fetch_page`** of a page of the table. -/
theorem TableOk.fetch (ht : s.TableOk name h hdr none) (hi : s.Inv)
    (hn : 1 ≤ n ∧ n < s.fd2pageno h.fd) (hsafe : s.pageTable ⟨h.fd, n⟩ = none → s.SafeReuse v)
    (hr : s.fetchPage ⟨h.fd, n⟩ v = some (f, s')) :
    s'.TableOk name h hdr none ∧ s'.pageTable ⟨h.fd, n⟩ = some f := by
  obtain ⟨hmap, rfl⟩ | ⟨hmiss, rfl, path, file, hfile, rfl⟩ := fetchPage_eq hr
  · exact ⟨ht.pin f _, hmap⟩
  · obtain ⟨hload, hmap⟩ := ht.loadFrame hi (hsafe hmiss) hn hmiss (file.pages n)
    refine ⟨hload.settle hmap (.inr fun file' hfile' => ?_), hmap⟩
    -- what was read is on the disk
    have hpath : path = name := by
      have hopened := (ht.dropFrame hi (hsafe hmiss)).opened
      rw [fileOf_lookup hfile] at hopened
      exact Option.some.inj hopened
    subst hpath
    have hsame : file' = file := Option.some.inj (hfile'.symm.trans (fileOf_files hfile))
    rw [hsame]
    simp [SmStore.loadFrame]

/-- **`fetch_page`** of another page. -/
theorem TableOk.other_fetch (ht : s.TableOk name h hdr none) (hi : s.Inv) (hp : p.fd ≠ h.fd)
    (hsafe : s.pageTable p = none → s.SafeReuse v) (hr : s.fetchPage p v = some (f, s')) :
    s'.TableOk name h hdr none := by
  obtain ⟨-, rfl⟩ | ⟨hmiss, rfl, path, file, -, rfl⟩ := fetchPage_eq hr
  · exact ht.pin f _
  · exact ht.other_loadFrame hi (hsafe hmiss) hp _

/-- The page counter of the table does not go back. -/
theorem TableOk.setFd2pageno (ht : s.TableOk name h hdr busy) {m : Int}
    (hm : fd = h.fd → s.fd2pageno h.fd ≤ m) : (s.setFd2pageno fd m).TableOk name h hdr busy := by
  have hle : s.fd2pageno h.fd ≤ (s.setFd2pageno fd m).fd2pageno h.fd := by
    by_cases hfd : fd = h.fd
    · subst hfd
      simpa [SmStore.setFd2pageno] using hm rfl
    · simp [SmStore.setFd2pageno, Function.update_of_ne (Ne.symm hfd)]
  refine ⟨ht.opened, ht.unique, le_trans ht.pages hle, fun n f hmap => ?_, ht.owned, ht.stored⟩
  have hrange := ht.range n f hmap
  exact ⟨hrange.1, lt_of_lt_of_le hrange.2 hle⟩

/-- The page counters do not matter to the invariant of the files. -/
theorem Inv.setFd2pageno (hi : s.Inv) (fd m : Int) : (s.setFd2pageno fd m).Inv :=
  ⟨hi.tagged, hi.paths, hi.handles, hi.apart, hi.mapped, hi.cached⟩

/-- **`new_page`** of the table: its frame is to be filled. -/
theorem TableOk.new (ht : s.TableOk name h hdr none) (hi : s.Inv) (hsafe : s.SafeReuse v)
    (hr : s.newPage h.fd v = some (f, p, s')) :
    p = ⟨h.fd, s.fd2pageno h.fd⟩ ∧ s'.TableOk name h hdr (some p.pageNo) ∧
      s'.pageTable p = some f := by
  obtain ⟨rfl, rfl, path, file, -, rfl⟩ := newPage_eq_load hr
  have hset : (s.setFd2pageno h.fd (s.fd2pageno h.fd + 1)).TableOk name h hdr none :=
    ht.setFd2pageno fun _ => by omega
  have hmiss : s.pageTable ⟨h.fd, s.fd2pageno h.fd⟩ = none := by
    cases hmap : s.pageTable ⟨h.fd, s.fd2pageno h.fd⟩ with
    | none => rfl
    | some g =>
      have hlt := (ht.range _ g hmap).2
      omega
  have hn : 1 ≤ s.fd2pageno h.fd ∧
      s.fd2pageno h.fd < (s.setFd2pageno h.fd (s.fd2pageno h.fd + 1)).fd2pageno h.fd := by
    refine ⟨ht.pages, ?_⟩
    simp only [SmStore.setFd2pageno, Function.update_self]
    omega
  obtain ⟨hload, hmap⟩ := hset.loadFrame (hi.setFd2pageno _ _) hsafe hn hmiss
    ⟨file.ident, s.fd2pageno h.fd, []⟩
  exact ⟨rfl, hload, hmap⟩

/-- A page of another file is made. -/
theorem TableOk.other_new (ht : s.TableOk name h hdr none) (hi : s.Inv) (hfd : fd ≠ h.fd)
    (hsafe : s.SafeReuse v) (hr : s.newPage fd v = some (f, p, s')) :
    s'.TableOk name h hdr none := by
  obtain ⟨rfl, rfl, path, file, -, rfl⟩ := newPage_eq_load hr
  have hset : (s.setFd2pageno fd (s.fd2pageno fd + 1)).TableOk name h hdr none :=
    ht.setFd2pageno fun heq => absurd heq hfd
  exact hset.other_loadFrame (hi.setFd2pageno _ _) hsafe hfd _

/-- The bytes in a frame of the table change. -/
theorem TableOk.change (ht : s.TableOk name h hdr busy) (hi : s.Inv)
    (hmap : s.pageTable ⟨h.fd, n⟩ = some f) (hb : ∀ m, busy = some m → m = n) (x : PageImage) :
    { s with frames := Function.update s.frames f { s.frames f with page := x } }.TableOk name h hdr
      (some n) := by
  obtain ⟨file, hfile, hhdr, hclean⟩ := ht.stored
  refine ⟨ht.opened, ht.unique, ht.pages, ht.range, ?_, file, hfile, hhdr, ?_⟩
  · intro g hid hd
    by_cases hgf : g = f
    · subst hgf
      simp only [Function.update_self] at hid hd ⊢
      exact ht.owned g hid hd
    · simp only [Function.update_of_ne hgf] at hid hd ⊢
      exact ht.owned g hid hd
  · intro m g hg hd hm
    have hmn : m ≠ n := fun heq => hm (by rw [heq])
    have hgf : g ≠ f := by
      rintro rfl
      have hid := (hi.mapped _ _ hg).symm.trans (hi.mapped _ _ hmap)
      exact hmn (by simpa using hid)
    simp only [Function.update_of_ne hgf] at hd ⊢
    exact hclean m g hg hd fun heq => hmn (hb m heq.symm)

/-- The bytes in another frame change. -/
theorem TableOk.other_change (ht : s.TableOk name h hdr busy) (hi : s.Inv)
    (hid : (s.frames f).id.fd ≠ h.fd) (x : PageImage) :
    { s with frames := Function.update s.frames f { s.frames f with page := x } }.TableOk name h hdr
      busy := by
  refine ht.setPool (fun _ => rfl) (fun m g hg => ?_) fun g hidg hd => ?_
  · have hgf : g ≠ f := by
      rintro rfl
      exact hid (by rw [hi.mapped _ _ hg])
    simp [Function.update_of_ne hgf]
  · by_cases hgf : g = f
    · subst hgf
      simp only [Function.update_self] at hidg
      exact absurd hidg hid
    · simp only [Function.update_of_ne hgf] at hidg hd ⊢
      exact ht.owned g hidg hd

/-- **`unpin_page`**: a page that is marked dirty is in the page table. -/
theorem TableOk.unpin (ht : s.TableOk name h hdr busy) (hi : s.Inv) (p : PageId) (isDirty : Bool) :
    (s.unpinPage p isDirty).TableOk name h hdr busy := by
  unfold SmStore.unpinPage
  split
  · exact ht
  · next f hmap =>
    split
    · exact ht
    · obtain ⟨file, hfile, hhdr, hclean⟩ := ht.stored
      refine ⟨ht.opened, ht.unique, ht.pages, ht.range, ?_, file, hfile, hhdr, ?_⟩
      · intro g hid hd
        by_cases hgf : g = f
        · subst hgf
          simp only [Function.update_self]
          rw [hi.mapped p g hmap]
          exact hmap
        · simp only [Function.update_of_ne hgf] at hid hd ⊢
          exact ht.owned g hid hd
      · intro m g hg hd hm
        by_cases hgf : g = f
        · subst hgf
          simp only [Function.update_self, Bool.or_eq_false_iff] at hd ⊢
          exact hclean m g hg hd.1 hm
        · simp only [Function.update_of_ne hgf] at hd ⊢
          exact hclean m g hg hd hm

/-- A page of the table that has been changed is unpinned as dirty. -/
theorem TableOk.unpin_dirty (ht : s.TableOk name h hdr (some n)) (hi : s.Inv)
    (hmap : s.pageTable ⟨h.fd, n⟩ = some f) (hpin : (s.frames f).pinCount ≠ 0) :
    (s.unpinPage ⟨h.fd, n⟩ true).TableOk name h hdr none := by
  have hunpin := ht.unpin hi ⟨h.fd, n⟩ true
  have heq : s.unpinPage ⟨h.fd, n⟩ true = { s with
      frames := Function.update s.frames f
        { s.frames f with pinCount := (s.frames f).pinCount - 1, isDirty := true } } := by
    simp [SmStore.unpinPage, hmap, hpin]
  rw [heq] at hunpin ⊢
  exact hunpin.settle hmap (.inl (by simp))

/-- **`flush_page`** of any page. -/
theorem TableOk.flushPage (ht : s.TableOk name h hdr none) (hi : s.Inv) (p : PageId) :
    (s.flushPage p).TableOk name h hdr none := by
  unfold SmStore.flushPage
  split
  · exact ht
  · next f hmap =>
    by_cases hp : p.fd = h.fd
    · have hpage : p = ⟨h.fd, p.pageNo⟩ := by rw [← hp]
      rw [hpage] at hmap ⊢
      exact ht.flush hi hmap fun m hm => by cases hm
    · exact ht.other_writeFrame hi (by rw [hi.mapped p f hmap]; exact hp) hp

/-- **`delete_page`** of any page. -/
theorem TableOk.deletePage (ht : s.TableOk name h hdr none) (hi : s.Inv) (p : PageId) :
    (s.deletePage p).TableOk name h hdr none := by
  unfold SmStore.deletePage
  split
  · exact ht
  · next f hmap =>
    split
    · refine ht.dropFrame hi fun g hg => ?_
      rw [hi.mapped p f hmap] at hg
      exact Option.some.inj (hg.symm.trans hmap)
    · exact ht

/-- Pages are written back. -/
theorem TableOk.flushAllPages (ht : s.TableOk name h hdr none) (hi : s.Inv) (ps : List PageId) :
    (s.flushAllPages ps).TableOk name h hdr none := by
  induction ps generalizing s with
  | nil => exact ht
  | cons p ps ih => exact ih (ht.flushPage hi p) (hi.flushPage p)

/-- Pages leave the pool. -/
theorem TableOk.deleteAllPage (ht : s.TableOk name h hdr none) (hi : s.Inv) (ps : List PageId) :
    (s.deleteAllPage ps).TableOk name h hdr none := by
  induction ps generalizing s with
  | nil => exact ht
  | cons p ps ih => exact ih (ht.deletePage hi p) (hi.deletePage p)

/-! ### Files come and go -/

/-- Another file is created. -/
theorem TableOk.createFile (ht : s.TableOk name h hdr busy) (hr : s.createFile path = some s') :
    s'.TableOk name h hdr busy := by
  obtain ⟨hnone, rfl⟩ := createFile_eq hr
  obtain ⟨file, hfile, hrest⟩ := ht.stored
  have hne : name ≠ path := by
    rintro rfl
    rw [hnone] at hfile
    cases hfile
  exact ⟨ht.opened, ht.unique, ht.pages, ht.range, ht.owned, file,
    (Function.update_of_ne hne _ _).trans hfile, hrest⟩

/-- The table's name is among the open ones. -/
theorem TableOk.isOpen (ht : s.TableOk name h hdr busy) :
    s.descriptors.any (·.2 = name) = true := by
  refine List.any_eq_true.mpr ⟨(h.fd, name), mem_of_lookup ht.opened, ?_⟩
  simp

/-- A file is destroyed, which the open ones are not. -/
theorem TableOk.destroyFile (ht : s.TableOk name h hdr busy) (path : String) :
    (s.destroyFile path).TableOk name h hdr busy := by
  unfold SmStore.destroyFile
  split
  · exact ht
  · next hclosed =>
    have hne : name ≠ path := by
      rintro rfl
      exact hclosed ht.isOpen
    exact ht.setFiles (Function.update_of_ne hne _ _)

/-- Another file is opened. -/
theorem TableOk.openFile (ht : s.TableOk name h hdr busy) {x : FileHandle}
    (hr : s.openFile path = some (x, s')) : s'.TableOk name h hdr busy := by
  obtain ⟨hany, hfree, rfl⟩ := openFile_eq hr
  have hne : path ≠ name := by
    rintro rfl
    rw [ht.isOpen] at hany
    cases hany
  have hfd : h.fd ≠ x.fd := by
    intro heq
    have hnone := lookup_lowestFree hfree
    rw [← heq, ht.opened] at hnone
    cases hnone
  refine ⟨?_, ?_, ht.pages, ht.range, ht.owned, ht.stored⟩
  · have hbeq : (h.fd == x.fd) = false := by simpa using hfd
    simpa [List.lookup_cons, hbeq] using ht.opened
  · intro fd hfd'
    by_cases heq : fd = x.fd
    · subst heq
      simp only [List.lookup_cons, beq_self_eq_true, Option.some.injEq] at hfd'
      exact absurd hfd' hne
    · have hbeq : (fd == x.fd) = false := by simpa using heq
      simp only [List.lookup_cons, hbeq] at hfd'
      exact ht.unique fd hfd'

/-- Closing one descriptor leaves the others what they were. -/
theorem lookup_filter_some {l : List (Int × String)}
    (hl : (l.filter (·.1 ≠ fd)).lookup n = some path) : l.lookup n = some path := by
  by_cases hn : n = fd
  · subst hn
    have hmem := List.of_mem_filter (mem_of_lookup hl)
    simp at hmem
  · rwa [lookup_filter hn] at hl

/-- Another descriptor is closed. -/
theorem TableOk.closeFile (ht : s.TableOk name h hdr busy) (hfd : h.fd ≠ fd) :
    (s.closeFile fd).TableOk name h hdr busy := by
  have hpageno : (s.closeFile fd).fd2pageno h.fd = s.fd2pageno h.fd := by
    simp [SmStore.closeFile, Function.update_of_ne hfd]
  refine ⟨?_, ?_, by rw [hpageno]; exact ht.pages, ?_, ht.owned, ht.stored⟩
  · show (s.descriptors.filter (·.1 ≠ fd)).lookup h.fd = some name
    rw [lookup_filter hfd]
    exact ht.opened
  · intro fd' hl
    exact ht.unique fd' (lookup_filter_some hl)
  · intro n f hmap
    rw [hpageno]
    exact ht.range n f hmap

/-- A table or an index with another descriptor is closed and its file removed. -/
theorem TableOk.closeAndDestroy (ht : s.TableOk name h hdr none) (hi : s.Inv) (hfd : h.fd ≠ fd)
    (path : String) (hdr' : List UInt8) (ps : List PageId) :
    (s.closeAndDestroy fd path hdr' ps).TableOk name h hdr none := by
  have hw : (s.writeBytes ⟨fd, 0⟩ hdr').TableOk name h hdr none :=
    ht.other_writeBytes (Ne.symm hfd) hdr'
  exact ((hw.flushAllPages (hi.writeBytes _ _) ps).closeFile hfd).destroyFile path

/-- Several writes to another file. -/
theorem TableOk.foldl_writeBytes (ht : s.TableOk name h hdr busy) (hfd : h.fd ≠ fd)
    (pages : List (Int × List UInt8)) :
    (pages.foldl (fun s e => s.writeBytes ⟨fd, e.1⟩ e.2) s).TableOk name h hdr busy := by
  induction pages generalizing s with
  | nil => exact ht
  | cons e pages ih => exact ih (ht.other_writeBytes (Ne.symm hfd) e.2)

/-- The catalog and the handles do not matter. -/
theorem TableOk.setHandles (ht : s.TableOk name h hdr busy) (tabs : String → Option TabMeta)
    (fhs ihs : String → Option FileHandle) :
    { s with tabs := tabs, fhs := fhs, ihs := ihs }.TableOk name h hdr busy :=
  ⟨ht.opened, ht.unique, ht.pages, ht.range, ht.owned, ht.stored⟩

/-- The table's descriptor is not handed out again. -/
theorem TableOk.not_opened (ht : s.TableOk name h hdr busy) {x : FileHandle}
    (hr : s.openFile path = some (x, s')) : h.fd ≠ x.fd := by
  intro heq
  have hnone := lookup_lowestFree (openFile_eq hr).2.1
  rw [← heq, ht.opened] at hnone
  cases hnone

/-- Another file is created and opened. -/
theorem TableOk.createAndOpen (ht : s.TableOk name h hdr none) {pages : List (Int × List UInt8)}
    {x : FileHandle} (hr : s.createAndOpen path pages n = some (x, s')) :
    s'.TableOk name h hdr none := by
  obtain ⟨s₁, y, s₂, s₃, hcreate, hopen, hreopen, rfl⟩ := createAndOpen_eq hr
  have h₁ := ht.createFile hcreate
  have h₂ := h₁.openFile hopen
  have hfd : h.fd ≠ y.fd := h₁.not_opened hopen
  have h₃ := (h₂.foldl_writeBytes hfd pages).closeFile hfd
  have h₄ := h₃.openFile hreopen
  have hfd' : h.fd ≠ x.fd := h₃.not_opened hreopen
  exact h₄.setFd2pageno fun heq => absurd heq.symm hfd'

/-- Nothing in the pool is of a purged descriptor. -/
theorem Purged.not_cached (hp : s.Purged) (hi : s.Inv)
    (hfree : DiskManager.lowestFree s.descriptors = some fd) :
    (∀ n f, s.pageTable ⟨fd, n⟩ ≠ some f) ∧
      ∀ f, (s.frames f).id.fd = fd → (s.frames f).isDirty = false := by
  constructor
  · intro n f hmap
    exact hp fd hfree f (by rw [hi.mapped _ _ hmap]) (.inr ⟨_, hmap⟩)
  · intro f hid
    by_contra hd
    exact hp fd hfree f hid (.inl (by simpa using hd))

/-- **A new table.** -/
theorem createAndOpen_table (hi : s.Inv) (hp : s.Purged) {x : FileHandle}
    (hr : s.createAndOpen path [(0, hdr)] 1 = some (x, s')) : s'.TableOk path x hdr none := by
  obtain ⟨s₁, y, s₂, s₃, hcreate, hopen, hreopen, rfl⟩ := createAndOpen_eq hr
  obtain ⟨hnone, rfl⟩ := createFile_eq hcreate
  obtain ⟨hany, hfree, rfl⟩ := openFile_eq hopen
  have hlook := lookup_lowestFree hfree
  obtain ⟨-, hfree', rfl⟩ := openFile_eq hreopen
  -- the header is written to the file that has just been created
  have hfile : ([((0 : Int), hdr)].foldl (fun s e => s.writeBytes ⟨y.fd, e.1⟩ e.2)
      { s with
        files := Function.update s.files path
          (some { ident := s.nextFile, pages := fun n => ⟨s.nextFile, n, []⟩ })
        nextFile := s.nextFile + 1
        descriptors := (y.fd, path) :: s.descriptors }) =
      { s with
        files := Function.update s.files path
          (some { ident := s.nextFile
                  pages := Function.update (fun n => ⟨s.nextFile, n, []⟩) 0
                    ⟨s.nextFile, 0, hdr⟩ })
        nextFile := s.nextFile + 1
        descriptors := (y.fd, path) :: s.descriptors } := by
    simp [SmStore.writeBytes, SmStore.writePage, SmStore.fileOf]
  rw [hfile] at hfree' ⊢
  simp only [SmStore.closeFile, filter_lowestFree hlook] at hfree' ⊢
  have hlook' := lookup_lowestFree hfree'
  obtain ⟨hcached, hclean⟩ := hp.not_cached hi hfree'
  refine ⟨by simp [SmStore.setFd2pageno], ?_, by simp [SmStore.setFd2pageno], ?_, ?_, ?_⟩
  · intro fd hfd
    by_cases heq : fd = x.fd
    · exact heq
    · have hbeq : (fd == x.fd) = false := by simpa using heq
      simp only [SmStore.setFd2pageno, List.lookup_cons, hbeq] at hfd
      have hmem : s.descriptors.any (·.2 = path) = true :=
        List.any_eq_true.mpr ⟨(fd, path), mem_of_lookup hfd, by simp⟩
      simp only at hany
      rw [hmem] at hany
      cases hany
  · intro n f hmap
    exact absurd hmap (hcached n f)
  · intro f hid hd
    have hc := hclean f hid
    rw [show (s.frames f).isDirty = true from hd] at hc
    cases hc
  · refine ⟨_, Function.update_self _ _ _, by simp, fun n f hmap => ?_⟩
    exact absurd hmap (hcached n f)

/-! ### Pins -/

/-- No page is unpinned more often than it was pinned. -/
def PinsOk (s : SmStore) : Prop := ∀ f, 0 ≤ (s.frames f).pinCount

/-- A frame gets contents with pins that are not negative. -/
theorem PinsOk.setFrame (hp : s.PinsOk) {x : SmFrame} (hx : 0 ≤ x.pinCount) :
    { s with frames := Function.update s.frames f x }.PinsOk := by
  intro g
  by_cases hg : g = f
  · subst hg
    simpa using hx
  · simpa [hg] using hp g

/-- Writes to disk keep the pins. -/
theorem PinsOk.writePage (hp : s.PinsOk) (p : PageId) (x : PageImage) : (s.writePage p x).PinsOk := by
  obtain ⟨files, heq⟩ := s.writePage_frame p x
  rw [heq]
  exact hp

/-- Writing a frame back keeps the pins. -/
theorem PinsOk.writeFrame (hp : s.PinsOk) (f : FrameId) (p : PageId) : (s.writeFrame f p).PinsOk := by
  have hw := hp.writePage p (s.frames f).page
  exact hw.setFrame (hw f)

/-- Erasing the mapping of a frame keeps the pins. -/
theorem PinsOk.dropFrame (hp : s.PinsOk) (f : FrameId) : (s.dropFrame f).PinsOk := by
  unfold SmStore.dropFrame
  by_cases hd : (s.frames f).isDirty = true
  · simp only [hd, if_true]
    exact hp.writeFrame f _
  · simp only [hd]
    exact hp

/-- A page that is read in has a pin. -/
theorem PinsOk.loadFrame (hp : s.PinsOk) (f : FrameId) (p : PageId) (x : PageImage) :
    (s.loadFrame f p x).PinsOk ∧ 0 < ((s.loadFrame f p x).frames f).pinCount := by
  have hdrop := hp.dropFrame f
  have hpos := hdrop f
  refine ⟨fun g => ?_, ?_⟩
  · by_cases hg : g = f
    · subst hg
      simp only [SmStore.loadFrame, Function.update_self]
      omega
    · simpa [SmStore.loadFrame, hg] using hdrop g
  · simp only [SmStore.loadFrame, Function.update_self]
    omega

/-- A page that is fetched has a pin. -/
theorem PinsOk.fetchPage (hp : s.PinsOk) (hr : s.fetchPage p v = some (f, s')) :
    s'.PinsOk ∧ 0 < (s'.frames f).pinCount := by
  obtain ⟨-, rfl⟩ | ⟨-, rfl, path, file, -, rfl⟩ := fetchPage_eq hr
  · have hpos := hp f
    refine ⟨hp.setFrame (by simp only; omega), ?_⟩
    simp only [Function.update_self]
    omega
  · exact hp.loadFrame f p _

/-- A page that is made has a pin. -/
theorem PinsOk.newPage (hp : s.PinsOk) (hr : s.newPage fd v = some (f, p, s')) :
    s'.PinsOk ∧ 0 < (s'.frames f).pinCount := by
  obtain ⟨rfl, rfl, path, file, -, rfl⟩ := newPage_eq_load hr
  have hset : (s.setFd2pageno fd (s.fd2pageno fd + 1)).PinsOk := hp
  exact hset.loadFrame f _ _

/-- `unpin_page` takes a pin only if there is one. -/
theorem PinsOk.unpinPage (hp : s.PinsOk) (p : PageId) (d : Bool) : (s.unpinPage p d).PinsOk := by
  unfold SmStore.unpinPage
  split
  · exact hp
  · next f _ =>
    split
    · exact hp
    · have hpos := hp f
      refine hp.setFrame ?_
      simp only
      omega

/-- `flush_page` keeps the pins. -/
theorem PinsOk.flushPage (hp : s.PinsOk) (p : PageId) : (s.flushPage p).PinsOk := by
  unfold SmStore.flushPage
  split
  · exact hp
  · exact hp.writeFrame _ p

/-- `delete_page` keeps the pins. -/
theorem PinsOk.deletePage (hp : s.PinsOk) (p : PageId) : (s.deletePage p).PinsOk := by
  unfold SmStore.deletePage
  split
  · exact hp
  · split
    · exact hp.dropFrame _
    · exact hp

end SmStore

end Rmdb
