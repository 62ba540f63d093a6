import Rmdb.System.CreateIndexCall

namespace Rmdb

open Lib

/-!
# The handles and their files (`system/sm_manager.cpp`, `index/ix_manager.h`, `record/rm_manager.h`)

A statement that drops a table or an index writes the pages of its file, closes the file under the
descriptor of the handle and unlinks the name.

* `SmStore.closeAndDestroyCall` — this, with what it throws;
* `SmStore.OpenUnder` — a handle is open on the file of a name;
* `OpenUnder.closeAndDestroyCall` — such a file is closed and destroyed, and nothing else is touched;
* `smManager_tidy` — in every state of a run the handles are open on the files of their names.
-/

namespace SmStore

/-- `close_index` or `close_file`, then `destroy_file`. -/
def closeAndDestroyCall (s : SmStore) (fd : Int) (path : String) (hdr : List UInt8)
    (ps : List PageId) : Except SmError Unit × SmStore :=
  match s.fileOf fd with
  | none => (.error .unixError, s)
  | some _ =>
    let s := ((s.writeBytes ⟨fd, 0⟩ hdr).flushAllPages ps).closeFile fd
    if s.descriptors.any (·.2 = path) then (.error (.fileNotClosedError path), s)
    else
      match s.files path with
      | none => (.error (.fileNotFoundError path), s)
      | some _ => (.ok (), s.destroyFile path)

/-! ### The state -/

/-- The handle is open on the file of this name, and nothing else is. -/
structure OpenUnder (s : SmStore) (path : String) (h : FileHandle) : Prop where
  opened : s.descriptors.lookup h.fd = some path
  fds : ∀ e ∈ s.descriptors, e.1 = h.fd → e.2 = path
  paths : ∀ e ∈ s.descriptors, e.2 = path → e.1 = h.fd
  file : s.files path ≠ none

/-- **A tidy state**: the handles of the tables, and those that are found under the name of an index of
the catalog, are open on the file of this name. -/
structure Tidy (s : SmStore) : Prop where
  mapped : s.Mapped
  tables : ∀ tab, s.tabs tab ≠ none → ∃ h, s.fhs tab = some h ∧ s.OpenUnder tab h
  indexes : ∀ tab info, s.tabs tab = some info → ∀ index ∈ info.indexes, ∀ h,
    s.ihs (getIndexName tab (colNames index)) = some h →
      s.OpenUnder (getIndexName tab (colNames index)) h

/-! ### Closing and destroying a file -/

section Close

variable {s s' : SmStore} {fd : Int} {path q : String} {p : PageId} {h x : FileHandle}
  {hdr : List UInt8}

/-- A write goes to the file behind the descriptor. -/
theorem writePage_files_of_ne (hq : s.descriptors.lookup p.fd ≠ some q) (image : PageImage) :
    (s.writePage p image).files q = s.files q := by
  unfold SmStore.writePage
  split
  · rfl
  · next path file hf =>
    have hne : q ≠ path := fun heq => hq (heq ▸ fileOf_lookup hf)
    exact Function.update_of_ne hne _ _

/-- A write changes no file but that of its descriptor. -/
theorem writeBytes_files_of_ne (hq : s.descriptors.lookup p.fd ≠ some q) (bytes : List UInt8) :
    (s.writeBytes p bytes).files q = s.files q := by
  unfold SmStore.writeBytes
  split
  · rfl
  · exact writePage_files_of_ne hq _

/-- What the pool keeps while pages of one file are written back. -/
structure WrittenBack (s s' : SmStore) (fd : Int) : Prop where
  handles : SameHandles s s'
  descriptors : s'.descriptors = s.descriptors
  frames : ∀ f, (s'.frames f).id = (s.frames f).id ∧ (s'.frames f).pinCount = (s.frames f).pinCount
  files : ∀ q, s.descriptors.lookup fd ≠ some q → s'.files q = s.files q
  exist : ∀ q, (s'.files q).isSome = (s.files q).isSome

/-- Nothing is written. -/
theorem WrittenBack.refl (s : SmStore) (fd : Int) : WrittenBack s s fd :=
  ⟨.refl s, rfl, fun _ => ⟨rfl, rfl⟩, fun _ _ => rfl, fun _ => rfl⟩

/-- Pages are written back one after the other. -/
theorem WrittenBack.trans {s'' : SmStore} (h₁ : WrittenBack s s' fd) (h₂ : WrittenBack s' s'' fd) :
    WrittenBack s s'' fd where
  handles := h₁.handles.trans h₂.handles
  descriptors := h₂.descriptors.trans h₁.descriptors
  frames f := ⟨(h₂.frames f).1.trans (h₁.frames f).1, (h₂.frames f).2.trans (h₁.frames f).2⟩
  files q hq := (h₂.files q (h₁.descriptors ▸ hq)).trans (h₁.files q hq)
  exist q := (h₂.exist q).trans (h₁.exist q)

/-- Bytes of the file itself. -/
theorem writtenBack_writeBytes (s : SmStore) (fd n : Int) (bytes : List UInt8) :
    WrittenBack s (s.writeBytes ⟨fd, n⟩ bytes) fd := by
  obtain ⟨files, heq⟩ := s.writeBytes_frame ⟨fd, n⟩ bytes
  refine ⟨s.writeBytes_handles _ _, ?_, fun f => ?_, fun q hq => writeBytes_files_of_ne hq _,
    fun q => s.writeBytes_isSome _ _ q⟩
  · rw [heq]
  · rw [heq]
    exact ⟨rfl, rfl⟩

/-- A frame that holds a page of the file. -/
theorem writtenBack_writeFrame (s : SmStore) (f : FrameId) {p : PageId} (hp : p.fd = fd) :
    WrittenBack s (s.writeFrame f p) fd := by
  obtain ⟨files, heq⟩ := s.writePage_frame p (s.frames f).page
  refine ⟨s.writeFrame_handles f p, ?_, fun g => ?_, fun q hq => ?_, fun q => ?_⟩
  · show (s.writePage p (s.frames f).page).descriptors = _
    rw [heq]
  · unfold SmStore.writeFrame
    rw [heq]
    by_cases hg : g = f
    · subst hg
      simp
    · simp [hg]
  · subst hp
    exact writePage_files_of_ne hq _
  · exact s.writePage_isSome _ _ q

/-- `flush_page` of a page of the file. -/
theorem writtenBack_flushPage (s : SmStore) {p : PageId} (hp : p.fd = fd) :
    WrittenBack s (s.flushPage p) fd := by
  unfold SmStore.flushPage
  split
  · exact .refl s fd
  · exact writtenBack_writeFrame s _ hp

/-- All cached pages of the file. -/
theorem writtenBack_flushAllPages (s : SmStore) {ps : List PageId} (hps : ∀ p ∈ ps, p.fd = fd) :
    WrittenBack s (s.flushAllPages ps) fd := by
  induction ps generalizing s with
  | nil => exact .refl s fd
  | cons p ps ih =>
    have hfirst := writtenBack_flushPage s (hps p List.mem_cons_self)
    exact hfirst.trans (ih (s.flushPage p) fun p' hp' => hps p' (List.mem_cons_of_mem _ hp'))

/-- The page table is the same after writing back. -/
theorem flushAllPages_pageTable (s : SmStore) (ps : List PageId) :
    (s.flushAllPages ps).pageTable = s.pageTable := by
  obtain ⟨files, frames, heq⟩ := s.flushAllPages_frame ps
  rw [heq]

/-- **A file that is open under its handle is closed and destroyed.** -/
structure Destroyed (s s' : SmStore) (path : String) (h : FileHandle) : Prop where
  handles : SameHandles s s'
  descriptors : s'.descriptors = s.descriptors.filter (·.1 ≠ h.fd)
  frames : ∀ f, (s'.frames f).id = (s.frames f).id ∧ (s'.frames f).pinCount = (s.frames f).pinCount
  pageTable : s'.pageTable = s.pageTable
  gone : s'.files path = none
  files : ∀ q, q ≠ path → s'.files q = s.files q

/-- The calls of `drop_index` and `drop_table` that close a file do not fail on an open one. -/
theorem OpenUnder.closeAndDestroyCall (ho : s.OpenUnder path h) (hdr : List UInt8) {ps : List PageId}
    (hps : ∀ p ∈ ps, p.fd = h.fd) :
    ∃ s', s.closeAndDestroyCall h.fd path hdr ps = (.ok (), s') ∧ Destroyed s s' path h := by
  have hbytes := writtenBack_writeBytes s h.fd 0 hdr
  have hflush := hbytes.trans (writtenBack_flushAllPages (s.writeBytes ⟨h.fd, 0⟩ hdr) hps)
  have htable : ((s.writeBytes ⟨h.fd, 0⟩ hdr).flushAllPages ps).pageTable = s.pageTable := by
    rw [flushAllPages_pageTable]
    obtain ⟨files, heq⟩ := s.writeBytes_frame ⟨h.fd, 0⟩ hdr
    rw [heq]
  obtain ⟨file, hfile⟩ := Option.ne_none_iff_exists'.mp ho.file
  have hopen : s.fileOf h.fd = some (path, file) := by
    unfold SmStore.fileOf
    rw [ho.opened]
    dsimp only
    rw [hfile]
  unfold SmStore.closeAndDestroyCall
  rw [hopen]
  dsimp only
  generalize (s.writeBytes ⟨h.fd, 0⟩ hdr).flushAllPages ps = s₁ at hflush htable
  have hclosed : (s₁.closeFile h.fd).descriptors.any (·.2 = path) = false := by
    rw [List.any_eq_false]
    intro e he hpath
    have hmem : e ∈ s₁.descriptors.filter (·.1 ≠ h.fd) := he
    rw [hflush.descriptors, List.mem_filter] at hmem
    have hfd := ho.paths e hmem.1 (of_decide_eq_true hpath)
    simp [hfd] at hmem
  have hexist : ((s₁.closeFile h.fd).files path).isSome = true := by
    show (s₁.files path).isSome = true
    rw [hflush.exist, hfile]
    rfl
  obtain ⟨file', hfile'⟩ := Option.isSome_iff_exists.mp hexist
  rw [hclosed, hfile']
  refine ⟨_, rfl, ?_⟩
  unfold SmStore.destroyFile
  rw [hclosed]
  refine ⟨?_, ?_, hflush.frames, htable, by simp, fun q hq => ?_⟩
  · exact ⟨hflush.handles.tabs, hflush.handles.fhs, hflush.handles.ihs⟩
  · show s₁.descriptors.filter (·.1 ≠ h.fd) = _
    rw [hflush.descriptors]
  · simp only [Bool.false_eq_true, if_false, Function.update_of_ne hq]
    refine hflush.files q fun hlook => hq ?_
    rw [ho.opened] at hlook
    exact (Option.some.inj hlook).symm

/-- Another open file stays open. -/
theorem OpenUnder.other (ho : s.OpenUnder q x) (hd : Destroyed s s' path h) (hne : q ≠ path)
    (hfd : x.fd ≠ h.fd) : s'.OpenUnder q x where
  opened := by
    rw [hd.descriptors, lookup_filter hfd]
    exact ho.opened
  fds e he := ho.fds e (List.mem_of_mem_filter (hd.descriptors ▸ he))
  paths e he := ho.paths e (List.mem_of_mem_filter (hd.descriptors ▸ he))
  file := by
    rw [hd.files q hne]
    exact ho.file

/-- Two files are open under two descriptors. -/
theorem OpenUnder.fd_ne (ho : s.OpenUnder path h) (hx : s.OpenUnder q x) (hne : q ≠ path) :
    x.fd ≠ h.fd := by
  intro heq
  have hlook := hx.opened
  rw [heq, ho.opened] at hlook
  exact hne (Option.some.inj hlook).symm

/-- What taking the cached pages of one file out of the pool keeps. -/
structure PagesDeleted (s s' : SmStore) (fd : Int) : Prop where
  handles : SameHandles s s'
  descriptors : s'.descriptors = s.descriptors
  files : ∀ q, s.descriptors.lookup fd ≠ some q → s'.files q = s.files q
  exist : ∀ q, (s'.files q).isSome = (s.files q).isSome
  mapped : s'.Mapped

/-- `delete_page` of a page of the file. -/
theorem deletePage_deleted (hs : s.Mapped) (hp : p.fd = fd) : PagesDeleted s (s.deletePage p) fd := by
  have hsame := s.deletePage_handles p
  unfold SmStore.deletePage at hsame ⊢
  cases hmap : s.pageTable p with
  | none => exact ⟨.refl s, rfl, fun _ _ => rfl, fun _ => rfl, hs⟩
  | some f =>
    rw [hmap] at hsame
    dsimp only at hsame ⊢
    split at hsame
    · next hpin =>
      rw [if_pos hpin]
      have hid : ((s.frames f).id).fd = fd := by rw [hs p f hmap, hp]
      unfold SmStore.dropFrame at hsame ⊢
      by_cases hd : (s.frames f).isDirty = true
      · have hwrite := writtenBack_writeFrame s f hid
        have htable := (writeFrame_pool s f (s.frames f).id).1
        simp only [hd, if_true] at hsame ⊢
        refine ⟨hsame, hwrite.descriptors, hwrite.files, hwrite.exist, fun q g hq => ?_⟩
        dsimp only at hq ⊢
        rw [Function.update_apply, htable] at hq
        split at hq
        · cases hq
        · rw [(hwrite.frames g).1]
          exact hs q g hq
      · simp only [hd] at hsame ⊢
        refine ⟨hsame, rfl, fun _ _ => rfl, fun _ => rfl, fun q g hq => ?_⟩
        dsimp only [Bool.false_eq_true, if_false] at hq ⊢
        rw [if_neg Bool.false_ne_true, Function.update_apply] at hq
        split at hq
        · cases hq
        · exact hs q g hq
    · next hpin =>
      rw [if_neg hpin]
      exact ⟨.refl s, rfl, fun _ _ => rfl, fun _ => rfl, hs⟩

/-- All cached pages of the file. -/
theorem deleteAllPage_deleted (hs : s.Mapped) {ps : List PageId} (hps : ∀ p ∈ ps, p.fd = fd) :
    PagesDeleted s (s.deleteAllPage ps) fd := by
  induction ps generalizing s with
  | nil => exact ⟨.refl s, rfl, fun _ _ => rfl, fun _ => rfl, hs⟩
  | cons p ps ih =>
    have h₁ := deletePage_deleted hs (hps p List.mem_cons_self)
    have h₂ := ih h₁.mapped fun p' hp' => hps p' (List.mem_cons_of_mem _ hp')
    exact ⟨h₁.handles.trans h₂.handles, h₂.descriptors.trans h₁.descriptors,
      fun q hq => (h₂.files q (h₁.descriptors ▸ hq)).trans (h₁.files q hq),
      fun q => (h₂.exist q).trans (h₁.exist q), h₂.mapped⟩

/-- The pages of a file can be taken out of the pool while it is open. -/
theorem OpenUnder.deleted (ho : s.OpenUnder q x) (hd : PagesDeleted s s' fd) : s'.OpenUnder q x where
  opened := hd.descriptors ▸ ho.opened
  fds e he := ho.fds e (hd.descriptors ▸ he)
  paths e he := ho.paths e (hd.descriptors ▸ he)
  file := by
    rw [← Option.isSome_iff_ne_none, hd.exist, Option.isSome_iff_ne_none]
    exact ho.file

/-- The catalog and the handles are left to the caller. -/
theorem closeAndDestroyCall_handles (s : SmStore) (fd : Int) (path : String) (hdr : List UInt8)
    (ps : List PageId) : SameHandles s (s.closeAndDestroyCall fd path hdr ps).2 := by
  have hflush : SameHandles s ((s.writeBytes ⟨fd, 0⟩ hdr).flushAllPages ps) := by
    obtain ⟨files, heq⟩ := s.writeBytes_frame ⟨fd, 0⟩ hdr
    obtain ⟨files', frames', heq'⟩ := (s.writeBytes ⟨fd, 0⟩ hdr).flushAllPages_frame ps
    rw [heq', heq]
    exact ⟨rfl, rfl, rfl⟩
  have hclose : SameHandles s (((s.writeBytes ⟨fd, 0⟩ hdr).flushAllPages ps).closeFile fd) :=
    ⟨hflush.tabs, hflush.fhs, hflush.ihs⟩
  unfold SmStore.closeAndDestroyCall
  split
  · exact .refl s
  · dsimp only
    split
    · exact hclose
    · next hdesc =>
      split
      · exact hclose
      · unfold SmStore.destroyFile
        rw [if_neg hdesc]
        exact ⟨hclose.tabs, hclose.fhs, hclose.ihs⟩

/-- Nothing is pinned or unpinned. -/
theorem closeAndDestroyCall_isPinned (s : SmStore) {fd : Int} (path : String) (hdr : List UInt8)
    {ps : List PageId} (hps : ∀ p ∈ ps, p.fd = fd) :
    (s.closeAndDestroyCall fd path hdr ps).2.isPinned = s.isPinned := by
  have hflush := (writtenBack_writeBytes s fd 0 hdr).trans
    (writtenBack_flushAllPages (s.writeBytes ⟨fd, 0⟩ hdr) hps)
  have htable : ((s.writeBytes ⟨fd, 0⟩ hdr).flushAllPages ps).pageTable = s.pageTable := by
    rw [flushAllPages_pageTable]
    obtain ⟨files, heq⟩ := s.writeBytes_frame ⟨fd, 0⟩ hdr
    rw [heq]
  have hpins : ∀ {s₁ : SmStore}, s₁.pageTable = s.pageTable →
      (∀ f, (s₁.frames f).pinCount = (s.frames f).pinCount) → s₁.isPinned = s.isPinned := by
    intro s₁ htable hframes
    funext p
    unfold SmStore.isPinned
    rw [htable]
    cases s.pageTable p with
    | none => rfl
    | some f =>
      dsimp only
      rw [hframes f]
  unfold SmStore.closeAndDestroyCall
  split
  · rfl
  · dsimp only
    split
    · exact hpins htable fun f => (hflush.frames f).2
    · next hdesc =>
      split
      · exact hpins htable fun f => (hflush.frames f).2
      · unfold SmStore.destroyFile
        rw [if_neg hdesc]
        exact hpins htable fun f => (hflush.frames f).2

end Close

/-! ### Every state of a run is tidy -/

section Run

variable {s s' : SmStore} {path q : String} {f v : FrameId} {p : PageId} {h x y : FileHandle}
  {fd : Int}

/-- What the accesses to pages leave alone. -/
structure Touched (s s' : SmStore) : Prop where
  handles : SameHandles s s'
  descriptors : s'.descriptors = s.descriptors
  exist : ∀ q, (s'.files q).isSome = (s.files q).isSome
  mapped : s'.Mapped

/-- A frame changes but keeps its page. -/
theorem touched_setFrame (hm : s.Mapped) {frame : SmFrame} (hid : frame.id = (s.frames f).id) :
    Touched s { s with frames := Function.update s.frames f frame } := by
  refine ⟨⟨rfl, rfl, rfl⟩, rfl, fun _ => rfl, fun p g hp => ?_⟩
  by_cases hg : g = f
  · subst hg
    simp only [Function.update_self, hid]
    exact hm p g hp
  · simp only [Function.update_of_ne hg]
    exact hm p g hp

/-- Bytes are written to a file. -/
theorem touched_writeBytes (hm : s.Mapped) (p : PageId) (bytes : List UInt8) :
    Touched s (s.writeBytes p bytes) := by
  have hwrite := writtenBack_writeBytes s p.fd p.pageNo bytes
  obtain ⟨files, heq⟩ := s.writeBytes_frame p bytes
  refine ⟨hwrite.handles, hwrite.descriptors, hwrite.exist, ?_⟩
  rw [heq]
  exact hm

/-- A frame is written back. -/
theorem touched_writeFrame (hm : s.Mapped) (f : FrameId) (p : PageId) :
    Touched s (s.writeFrame f p) := by
  have hwrite := writtenBack_writeFrame s f (p := p) rfl
  refine ⟨hwrite.handles, hwrite.descriptors, hwrite.exist, fun q g hq => ?_⟩
  rw [(writeFrame_pool s f p).1] at hq
  rw [(hwrite.frames g).1]
  exact hm q g hq

/-- The victim of a replacement leaves the pool. -/
theorem touched_dropFrame (hm : s.Mapped) (f : FrameId) :
    Touched s (s.dropFrame f) ∧ ∀ q, (s.dropFrame f).pageTable q ≠ some f := by
  have herase : ∀ {s : SmStore}, s.Mapped → ∀ q g,
      Function.update s.pageTable (s.frames f).id none q = some g → s.pageTable q = some g ∧ g ≠ f := by
    intro s hm q g hq
    rw [Function.update_apply] at hq
    split at hq
    · cases hq
    · next hne =>
      refine ⟨hq, ?_⟩
      rintro rfl
      exact hne (hm q g hq).symm
  unfold SmStore.dropFrame
  by_cases hd : (s.frames f).isDirty = true
  · have hwrite := touched_writeFrame hm f (s.frames f).id
    simp only [hd, if_true]
    exact ⟨⟨⟨hwrite.handles.tabs, hwrite.handles.fhs, hwrite.handles.ihs⟩, hwrite.descriptors,
      hwrite.exist, fun q g hq => hwrite.mapped q g (herase hwrite.mapped q g hq).1⟩,
      fun q hq => (herase hwrite.mapped q f hq).2 rfl⟩
  · simp only [hd]
    exact ⟨⟨⟨rfl, rfl, rfl⟩, rfl, fun _ => rfl, fun q g hq => hm q g (herase hm q g hq).1⟩,
      fun q hq => (herase hm q f hq).2 rfl⟩

/-- A page is read into a frame. -/
theorem touched_loadFrame (hm : s.Mapped) (f : FrameId) (p : PageId) (image : PageImage) :
    Touched s (s.loadFrame f p image) := by
  obtain ⟨hdrop, hfree⟩ := touched_dropFrame hm f
  refine ⟨s.loadFrame_handles f p image, hdrop.descriptors, hdrop.exist, fun q g hq => ?_⟩
  unfold SmStore.loadFrame at hq ⊢
  dsimp only at hq ⊢
  by_cases hg : g = f
  · subst hg
    rw [Function.update_self]
    by_cases hqp : q = p
    · exact hqp.symm
    · rw [Function.update_of_ne hqp] at hq
      exact absurd hq (hfree q)
  · rw [Function.update_of_ne hg]
    exact hdrop.mapped q g (emplace_old hg hq)

/-- `fetch_page` is such an access. -/
theorem touched_fetchPage (hm : s.Mapped) (hr : s.fetchPage p v = some (f, s')) : Touched s s' := by
  obtain ⟨-, rfl⟩ | ⟨-, rfl, path, file, -, rfl⟩ := fetchPage_eq hr
  · exact touched_setFrame hm rfl
  · exact touched_loadFrame hm f p _

/-- `new_page` is such an access. -/
theorem touched_newPage (hm : s.Mapped) (hr : s.newPage fd v = some (f, p, s')) : Touched s s' := by
  obtain ⟨rfl, rfl, path, file, -, rfl⟩ := newPage_eq_load hr
  have hload := touched_loadFrame (s := s.setFd2pageno fd (s.fd2pageno fd + 1)) hm f
    ⟨fd, s.fd2pageno fd⟩ ⟨file.ident, s.fd2pageno fd, []⟩
  exact ⟨⟨hload.handles.tabs, hload.handles.fhs, hload.handles.ihs⟩, hload.descriptors, hload.exist,
    hload.mapped⟩

/-- `unpin_page` is such an access. -/
theorem touched_unpinPage (hm : s.Mapped) (p : PageId) (isDirty : Bool) :
    Touched s (s.unpinPage p isDirty) := by
  unfold SmStore.unpinPage
  split
  · exact ⟨.refl s, rfl, fun _ => rfl, hm⟩
  · split
    · exact ⟨.refl s, rfl, fun _ => rfl, hm⟩
    · exact touched_setFrame hm rfl

/-- `flush_page` is such an access. -/
theorem touched_flushPage (hm : s.Mapped) (p : PageId) : Touched s (s.flushPage p) := by
  unfold SmStore.flushPage
  split
  · exact ⟨.refl s, rfl, fun _ => rfl, hm⟩
  · exact touched_writeFrame hm _ p

/-- `delete_page` is such an access. -/
theorem touched_deletePage (hm : s.Mapped) (p : PageId) : Touched s (s.deletePage p) := by
  have hdel : PagesDeleted s (s.deletePage p) p.fd := deletePage_deleted hm rfl
  exact ⟨hdel.handles, hdel.descriptors, hdel.exist, hdel.mapped⟩

/-- **Between the statements**: every handle is open on the file of its name. -/
structure Named (s : SmStore) : Prop where
  mapped : s.Mapped
  opened : ∀ name h, s.IsOpen name h → s.OpenUnder name h
  apart : ∀ name, s.fhs name = none ∨ s.ihs name = none
  tables : ∀ tab, s.tabs tab ≠ none → s.fhs tab ≠ none

/-- What holds between the statements is a tidy state. -/
theorem Named.tidy (hn : s.Named) : s.Tidy where
  mapped := hn.mapped
  tables tab htab := by
    obtain ⟨h, hh⟩ := Option.ne_none_iff_exists'.mp (hn.tables tab htab)
    exact ⟨h, hh, hn.opened tab h (.inl hh)⟩
  indexes _ _ _ _ _ h hh := hn.opened _ h (.inr hh)

/-- A handle stays open while pages are accessed. -/
theorem OpenUnder.touched (ho : s.OpenUnder q x) (ht : Touched s s') : s'.OpenUnder q x where
  opened := ht.descriptors ▸ ho.opened
  fds e he := ho.fds e (ht.descriptors ▸ he)
  paths e he := ho.paths e (ht.descriptors ▸ he)
  file := by
    rw [← Option.isSome_iff_ne_none, ht.exist, Option.isSome_iff_ne_none]
    exact ho.file

/-- Page accesses keep the invariant. -/
theorem Named.touched (hn : s.Named) (ht : Touched s s') : s'.Named where
  mapped := ht.mapped
  opened name h hopen := by
    unfold IsOpen at hopen
    rw [ht.handles.fhs, ht.handles.ihs] at hopen
    exact (hn.opened name h hopen).touched ht
  apart name := by
    rw [ht.handles.fhs, ht.handles.ihs]
    exact hn.apart name
  tables tab htab := by
    rw [ht.handles.fhs]
    exact hn.tables tab (ht.handles.tabs ▸ htab)

/-- A file that is opened is open under its handle, and the others stay as they are. -/
theorem openFile_openUnder (hr : s.openFile path = some (x, s')) :
    s'.OpenUnder path x ∧ ∀ q y, s.OpenUnder q y → s'.OpenUnder q y := by
  have hfile : s.files path ≠ none := by
    intro hnone
    unfold SmStore.openFile at hr
    split at hr
    · cases hr
    · rw [hnone] at hr
      cases hr
  obtain ⟨hany, hfree, rfl⟩ := openFile_eq hr
  have hlook := lookup_lowestFree hfree
  have hnew : ∀ e ∈ s.descriptors, e.2 ≠ path := fun e he hpath =>
    List.any_eq_false.mp hany e he (decide_eq_true hpath)
  have hunused : ∀ e ∈ s.descriptors, e.1 ≠ x.fd := by
    intro e he heq
    have hne := List.lookup_eq_none_iff.mp hlook e he
    simp [heq] at hne
  constructor
  · refine ⟨by simp, fun e he hfd => ?_, fun e he hpath => ?_, hfile⟩
    · rcases List.mem_cons.mp he with rfl | he
      · rfl
      · exact absurd hfd (hunused e he)
    · rcases List.mem_cons.mp he with rfl | he
      · rfl
      · exact absurd hpath (hnew e he)
  · intro q y ho
    have hmem := mem_of_lookup ho.opened
    refine ⟨?_, fun e he hfd => ?_, fun e he hpath => ?_, ho.file⟩
    · show ((x.fd, path) :: s.descriptors).lookup y.fd = some q
      rw [List.lookup_cons, beq_eq_false_iff_ne.mpr (hunused _ hmem)]
      exact ho.opened
    · rcases List.mem_cons.mp he with rfl | he
      · exact absurd hfd.symm (hunused _ hmem)
      · exact ho.fds e he hfd
    · rcases List.mem_cons.mp he with rfl | he
      · exact absurd hpath.symm (hnew _ hmem)
      · exact ho.paths e he hpath

/-- A new file leaves the open ones alone. -/
theorem createFile_openUnder (hr : s.createFile path = some s') :
    (∀ q y, s.OpenUnder q y → s'.OpenUnder q y) ∧ SameHandles s s' ∧ s'.frames = s.frames ∧
      s'.pageTable = s.pageTable := by
  obtain ⟨hnone, rfl⟩ := createFile_eq hr
  refine ⟨fun q y ho => ⟨ho.opened, ho.fds, ho.paths, ?_⟩, ⟨rfl, rfl, rfl⟩, rfl, rfl⟩
  have hne : q ≠ path := fun heq => ho.file (heq ▸ hnone)
  dsimp only
  rw [Function.update_of_ne hne]
  exact ho.file

/-- A file is created, and no handle was open on it. -/
theorem createAndOpen_openUnder {pages : List (Int × List UInt8)} {n : Int}
    (hr : s.createAndOpen path pages n = some (x, s')) :
    s'.OpenUnder path x ∧ (∀ q y, s.OpenUnder q y → q ≠ path ∧ s'.OpenUnder q y) ∧
      SameHandles s s' ∧ s'.frames = s.frames ∧ s'.pageTable = s.pageTable := by
  obtain ⟨hnone, hsame, hframes⟩ := createAndOpen_frame hr
  obtain ⟨s₁, y, s₂, s₃, hcreate, hopen, hreopen, rfl⟩ := createAndOpen_eq hr
  obtain ⟨hold₁, -, -, htable₁⟩ := createFile_openUnder hcreate
  have hexist := foldl_writeBytes_isSome s₂ y.fd pages
  obtain ⟨files, heq⟩ := foldl_writeBytes_frame s₂ y.fd pages
  rw [heq] at hexist
  -- opened, written and closed again
  have hold₂ : ∀ q z, s.OpenUnder q z →
      ({ s₂ with files := files }.closeFile y.fd).OpenUnder q z := by
    intro q z ho
    obtain ⟨hnew, hold⟩ := openFile_openUnder hopen
    have ho₂ := hold q z (hold₁ q z ho)
    have hfd : z.fd ≠ y.fd := by
      refine hnew.fd_ne ho₂ ?_
      rintro rfl
      exact ho.file hnone
    refine ⟨?_, fun e he => ho₂.fds e (List.mem_of_mem_filter he),
      fun e he => ho₂.paths e (List.mem_of_mem_filter he), ?_⟩
    · show (s₂.descriptors.filter (·.1 ≠ y.fd)).lookup z.fd = some q
      rw [lookup_filter hfd]
      exact ho₂.opened
    · rw [← Option.isSome_iff_ne_none]
      exact (hexist q).trans (Option.isSome_iff_ne_none.mpr ho₂.file)
  rw [heq] at hreopen
  obtain ⟨hnew, hold⟩ := openFile_openUnder hreopen
  refine ⟨⟨hnew.opened, hnew.fds, hnew.paths, hnew.file⟩, fun q z ho => ⟨?_, ?_⟩, hsame, hframes, ?_⟩
  · rintro rfl
    exact ho.file hnone
  · have ho₃ := hold q z (hold₂ q z ho)
    exact ⟨ho₃.opened, ho₃.fds, ho₃.paths, ho₃.file⟩
  · obtain ⟨-, -, rfl⟩ := openFile_eq hreopen
    obtain ⟨-, -, rfl⟩ := openFile_eq hopen
    exact htable₁

/-- The handle of a new file is stored. -/
theorem Named.addHandle (hn : s.Named) {pages : List (Int × List UInt8)} {n : Int}
    (hr : s.createAndOpen path pages n = some (x, s')) {tabs : String → Option TabMeta}
    {fhs ihs : String → Option FileHandle}
    (hnew : (fhs path = some x ∧ ihs path = none) ∨ (fhs path = none ∧ ihs path = some x))
    (hrest : ∀ name, name ≠ path → fhs name = s.fhs name ∧ ihs name = s.ihs name)
    (htables : ∀ tab, tabs tab ≠ none → fhs tab ≠ none) :
    { s' with tabs := tabs, fhs := fhs, ihs := ihs }.Named := by
  obtain ⟨hopen, hold, -, hframes, htable⟩ := createAndOpen_openUnder hr
  refine ⟨fun p f hp => ?_, fun name y hy => ?_, fun name => ?_, htables⟩
  · show (s'.frames f).id = p
    rw [hframes]
    exact hn.mapped p f (htable ▸ hp)
  · by_cases hname : name = path
    · subst hname
      have hyx : y = x := by
        unfold IsOpen at hy
        dsimp only at hy
        obtain ⟨hf, hi⟩ | ⟨hf, hi⟩ := hnew
        · rw [hf, hi] at hy
          simpa [eq_comm] using hy
        · rw [hf, hi] at hy
          simpa [eq_comm] using hy
      subst hyx
      exact ⟨hopen.opened, hopen.fds, hopen.paths, hopen.file⟩
    · have hy' : s.IsOpen name y := by
        unfold IsOpen at hy ⊢
        dsimp only at hy
        rwa [(hrest name hname).1, (hrest name hname).2] at hy
      obtain ⟨-, ho⟩ := hold name y (hn.opened name y hy')
      exact ⟨ho.opened, ho.fds, ho.paths, ho.file⟩
  · by_cases hname : name = path
    · subst hname
      exact hnew.elim (fun h => .inr h.2) fun h => .inl h.1
    · dsimp only
      rw [(hrest name hname).1, (hrest name hname).2]
      exact hn.apart name

/-- No handle has the name of a file that was not there. -/
theorem Named.unused (hn : s.Named) (hnone : s.files path = none) :
    s.fhs path = none ∧ s.ihs path = none :=
  ⟨Option.eq_none_iff_forall_ne_some.mpr fun y hy => (hn.opened path y (.inl hy)).file hnone,
    Option.eq_none_iff_forall_ne_some.mpr fun y hy => (hn.opened path y (.inr hy)).file hnone⟩

/-- `create_table` keeps the invariant, whether it succeeds or fails. -/
theorem Named.createTable (hn : s.Named) (tab : String) (cols : List ColMeta) (hdr : List UInt8) :
    (s.createTable tab cols hdr).Named := by
  obtain heq | ⟨-, x, s', hr, heq⟩ := s.createTable_cases tab cols hdr
  · rw [heq]
    exact hn
  · obtain ⟨hnone, hsame, -⟩ := createAndOpen_frame hr
    rw [heq, hsame.tabs, hsame.fhs]
    refine hn.addHandle hr (.inl ⟨Function.update_self .., ?_⟩) (fun name hne => ⟨?_, ?_⟩)
      fun name hname => ?_
    · rw [hsame.ihs]
      exact (hn.unused hnone).2
    · exact Function.update_of_ne hne ..
    · rw [hsame.ihs]
    · by_cases hne : name = tab
      · subst hne
        simp
      · rw [Function.update_of_ne hne] at hname ⊢
        exact hn.tables name hname

/-- The file that a failed `create_index` leaves behind is nobody's handle. -/
theorem Named.leakIndexFile (hn : s.Named) (path : String) : (s.leakIndexFile path).Named := by
  have hkeep : ∀ {s s' : SmStore}, s.Named → (∀ q y, s.OpenUnder q y → s'.OpenUnder q y) →
      SameHandles s s' → s'.frames = s.frames → s'.pageTable = s.pageTable → s'.Named := by
    intro s s' hn hold hsame hframes htable
    refine ⟨fun p f hp => ?_, fun name y hy => ?_, fun name => ?_, fun tab htab => ?_⟩
    · rw [hframes]
      exact hn.mapped p f (htable ▸ hp)
    · unfold IsOpen at hy
      rw [hsame.fhs, hsame.ihs] at hy
      exact hold name y (hn.opened name y hy)
    · rw [hsame.fhs, hsame.ihs]
      exact hn.apart name
    · rw [hsame.fhs]
      exact hn.tables tab (hsame.tabs ▸ htab)
  unfold SmStore.leakIndexFile
  split
  · exact hn
  · next s₁ hcreate =>
    obtain ⟨hold, hsame, hframes, htable⟩ := createFile_openUnder hcreate
    have hn₁ := hkeep hn hold hsame hframes htable
    split
    · exact hn₁
    · next hopen =>
      have hold₁ := (openFile_openUnder hopen).2
      obtain ⟨-, -, rfl⟩ := openFile_eq hopen
      exact hkeep hn₁ hold₁ ⟨rfl, rfl, rfl⟩ rfl rfl

/-- `create_index` keeps the invariant, whether it succeeds or fails. -/
theorem Named.createIndex (hn : s.Named) (tab : String) (names : List String)
    (hdr leafHdr root : List UInt8) : (s.createIndex tab names hdr leafHdr root).Named := by
  obtain heq | heq | ⟨info, x, s', pages, hinfo, hr, heq⟩ :=
    s.createIndex_cases tab names hdr leafHdr root
  · rw [heq]
    exact hn
  · rw [heq]
    exact hn.leakIndexFile _
  · obtain ⟨hnone, hsame, -⟩ := createAndOpen_frame hr
    rw [heq, hsame.tabs, hsame.ihs]
    refine hn.addHandle hr (.inr ⟨?_, Function.update_self ..⟩) (fun name hne => ⟨?_, ?_⟩)
      fun name hname => ?_
    · rw [hsame.fhs]
      exact (hn.unused hnone).1
    · rw [hsame.fhs]
    · exact Function.update_of_ne hne ..
    · rw [hsame.fhs]
      refine hn.tables name ?_
      by_cases hne : name = tab
      · rw [hne, hinfo]
        exact Option.some_ne_none info
      · rwa [Function.update_of_ne hne] at hname

/-- Closing and destroying a file, by its two definitions. -/
theorem closeAndDestroyCall_ok {hdr : List UInt8} {ps : List PageId}
    (h : s.closeAndDestroyCall fd path hdr ps = (.ok (), s')) :
    s' = s.closeAndDestroy fd path hdr ps := by
  unfold SmStore.closeAndDestroyCall at h
  split at h
  · cases h
  · dsimp only at h
    split at h
    · cases h
    · split at h
      · cases h
      · cases h
        rfl

/-- A handle is given up and its file destroyed. -/
theorem Named.giveUp (hn : s.Named) (hd : Destroyed s s' path h) (ho : s.OpenUnder path h)
    {tabs : String → Option TabMeta} {fhs ihs : String → Option FileHandle}
    (hgone : fhs path = none ∧ ihs path = none)
    (hrest : ∀ name, name ≠ path → fhs name = s.fhs name ∧ ihs name = s.ihs name)
    (htables : ∀ tab, tabs tab ≠ none → fhs tab ≠ none) :
    { s' with tabs := tabs, fhs := fhs, ihs := ihs }.Named := by
  refine ⟨fun p f hp => ?_, fun name y hy => ?_, fun name => ?_, htables⟩
  · show (s'.frames f).id = p
    rw [(hd.frames f).1]
    exact hn.mapped p f (hd.pageTable ▸ hp)
  · by_cases hname : name = path
    · subst hname
      unfold IsOpen at hy
      dsimp only at hy
      rw [hgone.1, hgone.2] at hy
      rcases hy with hy | hy <;> cases hy
    · have hy' : s.IsOpen name y := by
        unfold IsOpen at hy ⊢
        dsimp only at hy
        rwa [(hrest name hname).1, (hrest name hname).2] at hy
      have hoy := hn.opened name y hy'
      have ho' := hoy.other hd hname (ho.fd_ne hoy hname)
      exact ⟨ho'.opened, ho'.fds, ho'.paths, ho'.file⟩
  · by_cases hname : name = path
    · exact .inl (hname ▸ hgone.1)
    · dsimp only
      rw [(hrest name hname).1, (hrest name hname).2]
      exact hn.apart name

/-- The catalog may lose tables, or their indexes. -/
theorem Named.setTabs (hn : s.Named) (tabs : String → Option TabMeta)
    (htabs : ∀ tab, tabs tab ≠ none → s.tabs tab ≠ none) : { s with tabs := tabs }.Named where
  mapped := hn.mapped
  opened name y hy := by
    have ho := hn.opened name y hy
    exact ⟨ho.opened, ho.fds, ho.paths, ho.file⟩
  apart := hn.apart
  tables tab htab := hn.tables tab (htabs tab htab)

/-- `drop_index` keeps the invariant. -/
theorem Named.dropIndex (hn : s.Named) (tab : String) (names : List String) (hdr : List UInt8)
    {ps : List PageId} (hps : ∀ h, s.ihs (getIndexName tab names) = some h → ∀ p ∈ ps, p.fd = h.fd) :
    (s.dropIndex tab names hdr ps).Named := by
  obtain heq | ⟨info, index, hinfo, hcases⟩ := s.dropIndex_cases tab names hdr ps
  · rw [heq]
    exact hn
  · have hset := hn.setTabs (Function.update s.tabs tab
        (some { info with indexes := info.indexes.erase index })) fun name hname => by
      by_cases hne : name = tab
      · rw [hne, hinfo]
        exact Option.some_ne_none info
      · rwa [Function.update_of_ne hne] at hname
    obtain heq | ⟨x, hih, heq⟩ := hcases
    · rw [heq]
      exact hset
    · rw [heq]
      have ho := hset.opened (getIndexName tab names) x (.inr hih)
      obtain ⟨s₁, hcall, hd⟩ := ho.closeAndDestroyCall hdr (hps x hih)
      rw [← closeAndDestroyCall_ok hcall]
      dsimp only
      have hfhs : s₁.fhs (getIndexName tab names) = none := by
        rw [hd.handles.fhs]
        exact (hn.apart (getIndexName tab names)).resolve_right (by rw [hih]; exact nofun)
      refine hset.giveUp hd ho ⟨hfhs, Function.update_self ..⟩ (fun name hne => ⟨?_, ?_⟩)
        fun name hname => ?_
      · rw [hd.handles.fhs]
      · rw [hd.handles.ihs]
        exact Function.update_of_ne hne ..
      · rw [hd.handles.fhs]
        exact hset.tables name (hd.handles.tabs ▸ hname)

/-- `drop_table` keeps the invariant. -/
theorem Named.dropTable (hn : s.Named) {tab : String} {hdr : List UInt8} {ps : List PageId}
    (hps : ∀ h, s.fhs tab = some h → ∀ p ∈ ps, p.fd = h.fd)
    (hr : s.dropTable tab hdr ps = some s') : s'.Named := by
  unfold SmStore.dropTable at hr
  split at hr
  · next info x hinfo hx =>
    split at hr
    · cases hr
    · cases hr
      have hdel := deleteAllPage_deleted hn.mapped (hps x hx)
      have hnd := hn.touched ⟨hdel.handles, hdel.descriptors, hdel.exist, hdel.mapped⟩
      have hx' : (s.deleteAllPage ps).fhs tab = some x := by rw [hdel.handles.fhs]; exact hx
      have ho := hnd.opened tab x (.inl hx')
      obtain ⟨s₁, hcall, hd⟩ := ho.closeAndDestroyCall hdr (List.forall_mem_nil _)
      rw [← closeAndDestroyCall_ok hcall]
      refine hnd.giveUp hd ho ⟨Function.update_self .., ?_⟩ (fun name hne => ⟨?_, ?_⟩)
        fun name hname => ?_
      · rw [hd.handles.ihs]
        exact (hnd.apart tab).resolve_left (by rw [hx']; exact nofun)
      · rw [hd.handles.fhs]
        exact Function.update_of_ne hne ..
      · rw [hd.handles.ihs]
      · by_cases hne : name = tab
        · subst hne
          simp at hname
        · rw [Function.update_of_ne hne, hd.handles.tabs] at hname
          rw [Function.update_of_ne hne, hd.handles.fhs]
          exact hnd.tables name hname
  · cases hr

/-- **One step.** -/
theorem Named.step (hn : s.Named) {a : SmStep} (hr : s.Step a s') : s'.Named := by
  cases a with
  | createTable tab cols hdr =>
    rw [show s' = _ from hr]
    exact hn.createTable tab cols hdr
  | dropTable tab hdr ps =>
    exact hn.dropTable (fun h hh p hp => ((hr.1 h hh p).mp hp).1) hr.2
  | createIndex tab names hdr leafHdr root =>
    rw [show s' = _ from hr]
    exact hn.createIndex tab names hdr leafHdr root
  | dropIndex tab names hdr ps =>
    rw [hr.2]
    exact hn.dropIndex tab names hdr fun h hh p hp => ((hr.1 h hh p).mp hp).1
  | fetchPage x n v =>
    obtain ⟨-, f, hf⟩ := hr
    exact hn.touched (touched_fetchPage hn.mapped hf)
  | newPage x v =>
    obtain ⟨-, f, p, hf⟩ := hr
    exact hn.touched (touched_newPage hn.mapped hf)
  | change f bytes =>
    rw [hr.2]
    exact hn.touched (touched_setFrame hn.mapped rfl)
  | unpinPage p isDirty =>
    rw [show s' = _ from hr]
    exact hn.touched (touched_unpinPage hn.mapped p isDirty)
  | flushPage p =>
    rw [show s' = _ from hr]
    exact hn.touched (touched_flushPage hn.mapped p)
  | deletePage p =>
    rw [show s' = _ from hr]
    exact hn.touched (touched_deletePage hn.mapped p)
  | writeHdr x hdr =>
    rw [hr.2]
    exact hn.touched (touched_writeBytes hn.mapped _ hdr)

/-- A new database has no handle. -/
theorem Initial.named (hi : s.Initial) : s.Named where
  mapped p f hp := by simp [hi.pool p] at hp
  opened name h hh := by simp [IsOpen, hi.fhs name, hi.ihs name] at hh
  apart name := .inl (hi.fhs name)
  tables tab htab := absurd (hi.tabs tab) htab

end Run

end SmStore

/-- **Every state of a run is tidy.** -/
theorem smManager_tidy {s : SmStore} (hs : smManager.Reachable s) : s.Tidy := by
  refine SmStore.Named.tidy (hs.invariant (I := SmStore.Named) (fun s hi => ?_) fun s a s' hn hr => ?_)
  · exact SmStore.Initial.named hi
  · exact hn.step hr

end Rmdb
