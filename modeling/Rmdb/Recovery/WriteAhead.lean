import Rmdb.Recovery.TableStore

namespace Rmdb

open Lib

/-!
# The write-ahead rule

A page may go to disk as soon as it is unpinned, so the log record of a change has to be in the log
file before that.  `DeleteExecutor` and `UpdateExecutor` append the record before they touch the page.
`InsertExecutor` needs the rid for its record: it lets `insert_record` change and unpin the page, and
appends the record afterwards.

* `TableStore.WriteAhead` — every effect on the disk is logged;
* `TableStore.InFlight` — the window of an insert: changed, but not logged yet;
* `write_ahead_holds` — in a run in which no page is written inside its window, and no insert writes
  the header page, the rule holds in every state;
* `insert_on_disk_before_log` — a page evicted inside the window.
-/

namespace ExecutorPc

/-- The operation of an `InsertExecutor` that has changed the page in a frame and not logged it. -/
def unlogged : ExecutorPc → Option (Nat × FrameId)
  | .insertUnpin n _ f _ | .insertLog n _ f _ => some (n, f)
  | _ => none

/-- The operation of a `DeleteExecutor` or `UpdateExecutor` that has been logged. -/
def ahead : ExecutorPc → Option Nat
  | .changeFetch n _ _ _ _ | .change n _ _ _ _ _ | .changeUnpin n _ _ _ _ | .changeLsn n _ _ _ =>
    some n
  | _ => none

end ExecutorPc

namespace TableStore

variable {s s' : TableStore} {t n : Nat} {f v : FrameId} {p : PageId} {fd : Int}

/-- The record of operation `n` is in the log file. -/
def Logged (s : TableStore) (n : Nat) : Prop := ∃ r, (n, r) ∈ s.logged ∧ r ∈ s.log.file

/-- **The write-ahead rule.** Every operation whose effect is on the disk, in a page or in a header
    page of a table file, is in the log file. -/
structure WriteAhead (s : TableStore) : Prop where
  pages : ∀ p, ∀ n ∈ (s.disk p).effects, s.Logged n
  headers : ∀ fd, ∀ n ∈ (s.diskHdr fd).effects, s.Logged n

/-- An `InsertExecutor` has changed the page in frame `f` and has not appended its log record. -/
def InFlight (s : TableStore) (f : FrameId) : Prop :=
  ∃ t n, (s.threads t).pc.unlogged = some (n, f)

/-- Taking the frame does not write a page in flight. -/
def EvictSafe (s : TableStore) (f : FrameId) : Prop := (s.frames f).isDirty = true → ¬ s.InFlight f

/-- The page that thread `t` is about to fetch. -/
def nextFetch (s : TableStore) (t : Nat) : Option PageId :=
  match (s.threads t).pc with
  | .insertCreate _ _ => some ⟨(s.threads t).fd, (s.hdr (s.threads t).fd).firstFreePageNo⟩
  | .readFetch _ (rid :: _) | .changeFetch _ _ rid _ _ => some ⟨(s.threads t).fd, rid.pageNo⟩
  | _ => none

/-- The insert of thread `t` does not write the header page: there is a free page, and it is not
    filled. -/
def HdrKept (s : TableStore) (t : Nat) : Prop :=
  match (s.threads t).pc with
  | .insertCreate _ _ => (s.hdr (s.threads t).fd).firstFreePageNo ≠ -1
  | .insertChange _ _ f _ =>
    (s.frames f).page.numRecords + 1 ≠ (s.hdr (s.threads t).fd).numRecordsPerPage
  | _ => True

/-- The step writes no page in flight, and is no insert that writes the header page. -/
def Ordered (s : TableStore) : StoreAction → Prop
  | .run t v => s.HdrKept t ∧ ∀ p, s.nextFetch t = some p → s.pageTable p = none → s.EvictSafe v
  | .fetchPage p v => s.pageTable p = none → s.EvictSafe v
  | .newPage _ v => s.EvictSafe v
  | .flushPage p => ∀ f, s.pageTable p = some f → ¬ s.InFlight f
  | .deletePage p => ∀ f, s.pageTable p = some f → s.EvictSafe f
  | _ => True

/-- Where an effect may be: what is on the disk or in an open header is logged, what is in a frame is
    logged or in flight there, and a delete or an update is logged before it changes its page. -/
structure Inv (s : TableStore) : Prop where
  disk : ∀ p, ∀ n ∈ (s.disk p).effects, s.Logged n
  diskHdr : ∀ fd, ∀ n ∈ (s.diskHdr fd).effects, s.Logged n
  hdr : ∀ fd, ∀ n ∈ (s.hdr fd).effects, s.Logged n
  frames : ∀ f, ∀ n ∈ (s.frames f).page.effects,
    s.Logged n ∨ ∃ t, (s.threads t).pc.unlogged = some (n, f)
  ahead : ∀ t n, (s.threads t).pc.ahead = some n → s.Logged n

/-- The invariant holds at the start. -/
theorem Initial.inv (h : s.Initial) : s.Inv := by
  obtain ⟨hframes, -, hdisk, hhdr, -, -, hidle⟩ := h
  refine ⟨?_, ?_, ?_, ?_, ?_⟩
  · intro p n hn
    simp [hdisk p] at hn
  · intro fd n hn
    simp [(hhdr fd).2] at hn
  · intro fd n hn
    simp [(hhdr fd).1] at hn
  · intro f n hn
    simp [(hframes f).2.2] at hn
  · intro t n hn
    simp [hidle t, ExecutorPc.ahead] at hn

/-! ### What the steps are made of -/

/-- A frame that is not in flight has logged effects only. -/
theorem Inv.frame_logged (h : s.Inv) (hf : ¬ s.InFlight f) :
    ∀ n ∈ (s.frames f).page.effects, s.Logged n := by
  intro n hn
  obtain hl | ⟨t, ht⟩ := h.frames f n hn
  · exact hl
  · exact absurd ⟨t, n, ht⟩ hf

/-- A thread moves on.  What it had in flight still is or has been logged, and it is ahead only with
    what has been logged. -/
theorem Inv.setThread (h : s.Inv) {th : Executor}
    (hun : ∀ n f, (s.threads t).pc.unlogged = some (n, f) →
      s.Logged n ∨ th.pc.unlogged = some (n, f))
    (hah : ∀ n, th.pc.ahead = some n → s.Logged n) :
    { s with threads := Function.update s.threads t th }.Inv := by
  refine ⟨h.disk, h.diskHdr, h.hdr, ?_, ?_⟩
  · intro f n hn
    obtain hl | ⟨u, hu⟩ := h.frames f n hn
    · exact .inl hl
    · by_cases hut : u = t
      · subst hut
        obtain hl | hp := hun n f hu
        · exact .inl hl
        · exact .inr ⟨u, by simpa using hp⟩
      · exact .inr ⟨u, by simpa [hut] using hu⟩
  · intro u n hu
    by_cases hut : u = t
    · subst hut
      exact hah n (by simpa using hu)
    · exact h.ahead u n (by simpa [hut] using hu)

/-- A thread that has nothing in flight moves on. -/
theorem Inv.goto_of_none (h : s.Inv) {pc : ExecutorPc} (hun : (s.threads t).pc.unlogged = none)
    (hah : ∀ n, pc.ahead = some n → s.Logged n) : (s.goto t pc).Inv := by
  refine h.setThread (fun n f hn => ?_) hah
  rw [hun] at hn
  cases hn

/-- A thread begins a statement. -/
theorem Inv.begin (h : s.Inv) {th : Executor} (hidle : (s.threads t).pc = .idle)
    (hah : th.pc.ahead = none) (k : Nat) :
    { s with nextOp := k, threads := Function.update s.threads t th }.Inv := by
  have hset : { s with threads := Function.update s.threads t th }.Inv := by
    refine h.setThread (fun n f hn => ?_) fun n hn => ?_
    · simp [hidle, ExecutorPc.unlogged] at hn
    · simp [hah] at hn
  exact ⟨hset.disk, hset.diskHdr, hset.hdr, hset.frames, hset.ahead⟩

/-- A page in a frame changes by operations that are logged or in flight there. -/
theorem Inv.modifyFrame (h : s.Inv) {g : TablePage → TablePage}
    (hg : ∀ n ∈ (g (s.frames f).page).effects, n ∈ (s.frames f).page.effects ∨ s.Logged n ∨
      ∃ t, (s.threads t).pc.unlogged = some (n, f)) : (s.modifyFrame f g).Inv := by
  refine ⟨h.disk, h.diskHdr, h.hdr, ?_, h.ahead⟩
  intro f' n hn
  by_cases hff : f' = f
  · subst hff
    obtain hold | hnew := hg n (by simpa [TableStore.modifyFrame] using hn)
    · exact h.frames f' n hold
    · exact hnew
  · exact h.frames f' n (by simpa [TableStore.modifyFrame, hff] using hn)

/-- Only descriptors of the frames change: pins, dirty bits. -/
theorem Inv.setFrames (h : s.Inv) {frames : FrameId → TableFrame}
    (hf : ∀ f, (frames f).page = (s.frames f).page) : { s with frames := frames }.Inv := by
  refine ⟨h.disk, h.diskHdr, h.hdr, ?_, h.ahead⟩
  intro f n hn
  exact h.frames f n (by simpa [hf f] using hn)

/-- The page table does not matter to it. -/
theorem Inv.setPageTable (h : s.Inv) (table : PageId → Option FrameId) :
    { s with pageTable := table }.Inv :=
  ⟨h.disk, h.diskHdr, h.hdr, h.frames, h.ahead⟩

/-- A page that is not in flight may be written. -/
theorem Inv.writeFrame (h : s.Inv) (hf : ¬ s.InFlight f) (p : PageId) : (s.writeFrame f p).Inv := by
  have hdirty : ∀ g, (Function.update s.frames f { s.frames f with isDirty := false } g).page =
      (s.frames g).page := by
    intro g
    by_cases hg : g = f
    · subst hg
      simp
    · simp [hg]
  refine ⟨?_, h.diskHdr, h.hdr, (h.setFrames hdirty).frames, h.ahead⟩
  intro q n hn
  by_cases hq : q = p
  · subst hq
    exact h.frame_logged hf n (by simpa [TableStore.writeFrame] using hn)
  · exact h.disk q n (by simpa [TableStore.writeFrame, hq] using hn)

/-- A frame is replaced whose page may be written. -/
theorem Inv.dropFrame (h : s.Inv) (hf : s.EvictSafe f) : (s.dropFrame f).Inv := by
  unfold TableStore.dropFrame
  by_cases hd : (s.frames f).isDirty = true
  · simp only [hd, if_true]
    exact (h.writeFrame (hf hd) _).setPageTable _
  · simp only [hd]
    exact h.setPageTable _

/-- What is loaded into a frame has logged effects only. -/
theorem Inv.loadFrame (h : s.Inv) (hf : s.EvictSafe f) {page : TableStore → TablePage}
    (hpage : ∀ n ∈ (page (s.dropFrame f)).effects, (s.dropFrame f).Logged n) (p : PageId) :
    (s.loadFrame f p page).Inv := by
  have hd := h.dropFrame hf
  refine ⟨hd.disk, hd.diskHdr, hd.hdr, ?_, hd.ahead⟩
  intro g n hn
  by_cases hg : g = f
  · subst hg
    exact .inl (hpage n (by simpa [TableStore.loadFrame] using hn))
  · exact hd.frames g n (by simpa [TableStore.loadFrame, hg] using hn)

/-- A page is unpinned. -/
theorem Inv.unpinPage (h : s.Inv) (p : PageId) (isDirty : Bool) : (s.unpinPage p isDirty).Inv := by
  unfold TableStore.unpinPage
  split
  · exact h
  · split
    · exact h
    · refine h.setFrames fun g => ?_
      rename_i f _ _
      by_cases hg : g = f
      · subst hg
        simp
      · simp [hg]

/-- Unpinning a page moves no thread. -/
theorem unpinPage_threads (s : TableStore) (p : PageId) (isDirty : Bool) :
    (s.unpinPage p isDirty).threads = s.threads := by
  unfold TableStore.unpinPage
  split
  · rfl
  · split <;> rfl

/-- A page is fetched. -/
theorem Inv.fetchPage (h : s.Inv) (hsafe : s.pageTable p = none → s.EvictSafe v)
    (hr : s.fetchPage p v = some (f, s')) : s'.Inv := by
  unfold TableStore.fetchPage at hr
  split at hr
  · next g _ =>
    cases hr
    refine h.setFrames fun g => ?_
    by_cases hg : g = f
    · subst hg
      simp
    · simp [hg]
  · next hnone =>
    split at hr
    · cases hr
      exact h.loadFrame (hsafe hnone) ((h.dropFrame (hsafe hnone)).disk p) p
    · cases hr

/-- A page is made. -/
theorem Inv.newPage (h : s.Inv) (hsafe : s.EvictSafe v) (hr : s.newPage fd v = some (p, s')) :
    s'.Inv := by
  unfold TableStore.newPage at hr
  split at hr
  · cases hr
    have hcount : { s with fd2pageno := Function.update s.fd2pageno fd (s.fd2pageno fd + 1) }.Inv :=
      ⟨h.disk, h.diskHdr, h.hdr, h.frames, h.ahead⟩
    refine hcount.loadFrame hsafe ?_ _
    intro n hn
    simp [TablePage.zero] at hn
  · cases hr

/-- The open header may be written. -/
theorem Inv.writeHdr (h : s.Inv) (fd : Int) : (s.writeHdr fd).Inv := by
  refine ⟨h.disk, ?_, h.hdr, h.frames, h.ahead⟩
  intro fd' n hn
  by_cases hfd : fd' = fd
  · subst hfd
    exact h.hdr fd' n (by simpa [TableStore.writeHdr] using hn)
  · exact h.diskHdr fd' n (by simpa [TableStore.writeHdr, hfd] using hn)

/-- The header is changed by an operation that is logged. -/
theorem Inv.updateHdr (h : s.Inv) (hn : s.Logged n) (g : TableHdr → TableHdr) :
    (s.updateHdr fd n g).Inv := by
  suffices hset : { s with
      hdr := Function.update s.hdr fd
        { g (s.hdr fd) with effects := (s.hdr fd).effects ++ [n] } }.Inv from hset.writeHdr fd
  refine ⟨h.disk, h.diskHdr, ?_, h.frames, h.ahead⟩
  intro fd' m hm
  by_cases hfd : fd' = fd
  · subst hfd
    simp only [Function.update_self, List.mem_append, List.mem_singleton] at hm
    obtain hm | rfl := hm
    · exact h.hdr fd' m hm
    · exact hn
  · exact h.hdr fd' m (by simpa [hfd] using hm)

/-- More is logged. -/
theorem Inv.log (h : s.Inv) {log : LogManager} {logged : List (Nat × LogRecord)}
    {threads : Nat → Executor} (hlogged : s.logged ⊆ logged) (hlog : s.log.file ⊆ log.file)
    (hpc : ∀ u, (threads u).pc = (s.threads u).pc) :
    { s with log := log, logged := logged, threads := threads }.Inv := by
  have hmono : ∀ n, s.Logged n →
      { s with log := log, logged := logged, threads := threads }.Logged n := by
    rintro n ⟨r, hr, hfile⟩
    exact ⟨r, hlogged hr, hlog hfile⟩
  refine ⟨?_, ?_, ?_, ?_, ?_⟩
  · exact fun p n hn => hmono n (h.disk p n hn)
  · exact fun fd n hn => hmono n (h.diskHdr fd n hn)
  · exact fun fd n hn => hmono n (h.hdr fd n hn)
  · intro f n hn
    obtain hl | ⟨u, hu⟩ := h.frames f n hn
    · exact .inl (hmono n hl)
    · exact .inr ⟨u, (congrArg ExecutorPc.unlogged (hpc u)).trans hu⟩
  · intro u n hu
    exact hmono n (h.ahead u n ((congrArg ExecutorPc.ahead (hpc u)).symm.trans hu))

/-- The log file only grows. -/
theorem file_subset (lm : LogManager) (record : LogRecord) :
    lm.file ⊆ (lm.addLogToBuffer record).2.file := by
  rw [(lm.addLogToBuffer_file record).1, List.append_assoc]
  exact List.subset_append_left _ _

/-- An operation is logged once its record is appended: `add_log_to_buffer` writes through. -/
theorem logged_appendLog (s : TableStore) (t m : Nat) (c : LoggedChange) :
    (s.appendLog t m c).Logged m := by
  refine ⟨_, List.mem_append_right _ (List.mem_singleton.mpr rfl), ?_⟩
  show _ ∈ (s.log.addLogToBuffer _).2.file
  rw [(s.log.addLogToBuffer_file _).1]
  refine List.mem_append_right _ (List.mem_singleton.mpr ?_)
  rw [s.log.addLogToBuffer_number]

/-- A record is appended. -/
theorem Inv.appendLog (h : s.Inv) (t m : Nat) (c : LoggedChange) : (s.appendLog t m c).Inv := by
  refine h.log (List.subset_append_left _ _) (file_subset _ _) fun u => ?_
  by_cases hu : u = t
  · subst hu
    simp
  · simp [hu]

/-! ### The steps of a thread -/

/-- `delete_record` of an operation that is logged. -/
theorem Inv.deleteRecord (h : s.Inv) (hn : s.Logged n) (rid : Rid) (lsn : Lsn) :
    (s.deleteRecord fd n rid f lsn).Inv := by
  -- the page joins the chain of free pages or not; then it is changed
  have hstep : ∀ {s₁ : TableStore}, s₁.Inv → s₁.Logged n →
      (s₁.modifyFrame f fun x => (x.deleteFrom n rid.slotNo.toNat).setLsn n lsn).Inv := by
    intro s₁ h₁ hn₁
    refine h₁.modifyFrame fun m hm => ?_
    simp only [TablePage.setLsn, TablePage.deleteFrom, List.mem_append, List.mem_singleton,
      or_assoc, or_self] at hm
    obtain hm | rfl := hm
    · exact .inl hm
    · exact .inr (.inl hn₁)
  unfold TableStore.deleteRecord
  by_cases hfull : (s.frames f).page.numRecords = (s.hdr fd).numRecordsPerPage
  · simp only [hfull, if_true]
    refine hstep (Inv.updateHdr (h.modifyFrame fun m hm => ?_) hn _) hn
    simp only [TablePage.setNextFree, List.mem_append, List.mem_singleton] at hm
    obtain hm | rfl := hm
    · exact .inl hm
    · exact .inr (.inl hn)
  · simp only [hfull, if_false]
    exact hstep h hn

/-- `delete_record` moves no thread. -/
theorem deleteRecord_threads (s : TableStore) (rid : Rid) (lsn : Lsn) :
    (s.deleteRecord fd n rid f lsn).threads = s.threads := by
  unfold TableStore.deleteRecord
  by_cases hfull : (s.frames f).page.numRecords = (s.hdr fd).numRecordsPerPage
  · simp only [hfull, if_true]
    rfl
  · simp only [hfull, if_false]
    rfl

/-- Fetching a page moves no thread. -/
theorem fetchPage_threads (hr : s.fetchPage p v = some (f, s')) : s'.threads = s.threads := by
  unfold TableStore.fetchPage at hr
  split at hr
  · cases hr
    simp
  · split at hr
    · cases hr
      simp only [TableStore.loadFrame, TableStore.dropFrame]
      split <;> simp [TableStore.writeFrame]
    · cases hr

/-- A thread that fetched its page moves on, to a place that is ahead with the same operation. -/
theorem Inv.fetch_goto (h : s.Inv) {pc : ExecutorPc}
    (hsafe : s.pageTable p = none → s.EvictSafe v) (hr : s.fetchPage p v = some (f, s'))
    (hun : (s.threads t).pc.unlogged = none) (hah : pc.ahead = (s.threads t).pc.ahead) :
    (s'.goto t pc).Inv := by
  have hthreads := fetchPage_threads hr
  have h' := h.fetchPage hsafe hr
  refine h'.goto_of_none (by rw [hthreads, hun]) fun n hn => h'.ahead t n ?_
  rw [hthreads, ← hah, hn]

/-- The place in the program and the page are apart. -/
theorem goto_modifyFrame (s : TableStore) (t : Nat) (pc : ExecutorPc) (f : FrameId)
    (g : TablePage → TablePage) :
    (s.modifyFrame f g).goto t pc = (s.goto t pc).modifyFrame f g := rfl

/-- **The window opens.** `insert_record` changes the page; the page is not filled, so the header
    stays. -/
theorem Inv.insertChange (h : s.Inv) {rec : List UInt8} {slot : Nat} {rid : Rid}
    (hpc : (s.threads t).pc = .insertChange n rec f slot) (hhdr : s.HdrKept t) :
    ((s.insertRecord (s.threads t).fd n rec f slot).goto t (.insertUnpin n rec f rid)).Inv := by
  simp only [HdrKept, hpc] at hhdr
  have hins : s.insertRecord (s.threads t).fd n rec f slot =
      s.modifyFrame f fun x => x.insertInto n slot rec := by
    unfold TableStore.insertRecord
    rw [if_neg]
    simpa [TableStore.modifyFrame, TablePage.insertInto] using hhdr
  have hmove : (s.goto t (.insertUnpin n rec f rid)).Inv :=
    h.goto_of_none (by simp [hpc, ExecutorPc.unlogged]) fun m hm => (by cases hm)
  rw [hins, goto_modifyFrame]
  refine hmove.modifyFrame fun m hm => ?_
  simp only [TablePage.insertInto, List.mem_append, List.mem_singleton] at hm
  obtain hm | rfl := hm
  · exact .inl hm
  · exact .inr (.inr ⟨t, by simp [TableStore.goto, ExecutorPc.unlogged]⟩)

/-- The page LSN and the unpin of `insert_record`: still in the window. -/
theorem Inv.insertUnpin (h : s.Inv) {rec : List UInt8} {rid : Rid} (lsn : Lsn) (q : PageId)
    (hpc : (s.threads t).pc = .insertUnpin n rec f rid) :
    (((s.modifyFrame f fun x => x.setLsn n lsn).unpinPage q true).goto t
      (.insertLog n rec f rid)).Inv := by
  have hlsn : (s.modifyFrame f fun x => x.setLsn n lsn).Inv := by
    refine h.modifyFrame fun m hm => ?_
    simp only [TablePage.setLsn, List.mem_append, List.mem_singleton] at hm
    obtain hm | rfl := hm
    · exact .inl hm
    · exact .inr (.inr ⟨t, by simp [hpc, ExecutorPc.unlogged]⟩)
  refine (hlsn.unpinPage q true).setThread (fun m g hm => .inr ?_) fun m hm => (by cases hm)
  rw [unpinPage_threads] at hm
  simpa [TableStore.modifyFrame, hpc, ExecutorPc.unlogged] using hm

/-- **The window closes.** The record of the insert is appended. -/
theorem Inv.insertLog (h : s.Inv) {rec : List UInt8} {rid : Rid} (c : LoggedChange)
    (hpc : (s.threads t).pc = .insertLog n rec f rid) : ((s.appendLog t n c).goto t .idle).Inv := by
  refine (h.appendLog t n c).setThread (fun m g hm => .inl ?_) fun m hm => (by cases hm)
  simp only [TableStore.appendLog, Function.update_self, hpc, ExecutorPc.unlogged,
    Option.some.injEq, Prod.mk.injEq] at hm
  rw [← hm.1]
  exact s.logged_appendLog t n c

/-- The record of a delete or an update is appended before the page is fetched. -/
theorem Inv.changeLog (h : s.Inv) {c : RecordChange} {rid : Rid} {todo : List Rid}
    {old : List UInt8} (change : LoggedChange) (hpc : (s.threads t).pc = .changeLog c rid todo old) :
    ({ s.appendLog t s.nextOp change with nextOp := s.nextOp + 1 }.goto t
      (.changeFetch s.nextOp c rid todo old)).Inv := by
  have happ := h.appendLog t s.nextOp change
  have hcount : { s.appendLog t s.nextOp change with nextOp := s.nextOp + 1 }.Inv :=
    ⟨happ.disk, happ.diskHdr, happ.hdr, happ.frames, happ.ahead⟩
  refine hcount.goto_of_none (by simp [TableStore.appendLog, hpc, ExecutorPc.unlogged]) ?_
  intro m hm
  cases hm
  exact s.logged_appendLog t s.nextOp change

/-- A delete or an update changes its page and moves on. -/
theorem Inv.change_goto (h : s.Inv) {pc : ExecutorPc} {g : TablePage → TablePage}
    (hun : (s.threads t).pc.unlogged = none) (hn : (s.threads t).pc.ahead = some n)
    (hah : ∀ m, pc.ahead = some m → m = n)
    (hg : ∀ x, (g x).effects = x.effects ++ [n]) : ((s.modifyFrame f g).goto t pc).Inv := by
  have hlogged : s.Logged n := h.ahead t n hn
  have hpage : (s.modifyFrame f g).Inv := by
    refine h.modifyFrame fun m hm => ?_
    rw [hg, List.mem_append, List.mem_singleton] at hm
    obtain hm | rfl := hm
    · exact .inl hm
    · exact .inr (.inl hlogged)
  refine hpage.goto_of_none hun fun m hm => ?_
  rw [hah m hm]
  exact hlogged

/-- The unpin of a delete or an update, or after `get_record`. -/
theorem Inv.unpin_goto (h : s.Inv) {pc : ExecutorPc} (q : PageId)
    (hun : (s.threads t).pc.unlogged = none)
    (hah : ∀ m, pc.ahead = some m → (s.threads t).pc.ahead = some m) :
    ((s.unpinPage q true).goto t pc).Inv := by
  have hunpin := h.unpinPage q true
  refine hunpin.goto_of_none ?_ fun m hm => hunpin.ahead t m ?_
  · rw [unpinPage_threads, hun]
  · rw [unpinPage_threads, hah m hm]

/-- **One step of a thread.** -/
theorem Inv.runThread (h : s.Inv) (hhdr : s.HdrKept t)
    (hsafe : ∀ p, s.nextFetch t = some p → s.pageTable p = none → s.EvictSafe v)
    (hr : s.runThread t v = some s') : s'.Inv := by
  unfold TableStore.runThread at hr
  simp only at hr
  split at hr
  case h_1 => cases hr
  case h_2 n rec hpc =>
    -- `insert_record` fetches a page with room, so it writes no header page
    simp only [HdrKept, hpc] at hhdr
    simp only [nextFetch, hpc, Option.some.injEq, forall_eq'] at hsafe
    unfold TableStore.createPageHandle at hr
    rw [if_neg hhdr] at hr
    split at hr
    · cases hr
    · next hfetch =>
      cases hr
      exact h.fetch_goto hsafe hfetch (by simp [hpc, ExecutorPc.unlogged])
        (by simp [hpc, ExecutorPc.ahead])
  case h_3 n rec f slot hpc =>
    -- the record is written before it is logged
    cases hr
    exact h.insertChange hpc hhdr
  case h_4 n rec f rid hpc =>
    cases hr
    exact h.insertUnpin _ _ hpc
  case h_5 n rec f rid hpc =>
    -- its log record comes after the page
    cases hr
    exact h.insertLog _ hpc
  case h_6 c hpc =>
    cases hr
    exact h.goto_of_none (by simp [hpc, ExecutorPc.unlogged]) fun m hm => (by cases hm)
  case h_7 c rid todo hpc =>
    -- `update_record` and `delete_record` read the old record first
    simp only [nextFetch, hpc, Option.some.injEq, forall_eq'] at hsafe
    split at hr
    · cases hr
    · next hfetch =>
      cases hr
      exact h.fetch_goto hsafe hfetch (by simp [hpc, ExecutorPc.unlogged])
        (by simp [hpc, ExecutorPc.ahead])
  case h_8 c rid todo f hpc =>
    cases hr
    exact h.unpin_goto _ (by simp [hpc, ExecutorPc.unlogged]) fun m hm => (by cases hm)
  case h_9 c rid todo old hpc =>
    -- and log before they change the page
    cases hr
    exact h.changeLog _ hpc
  case h_10 n c rid todo old hpc =>
    simp only [nextFetch, hpc, Option.some.injEq, forall_eq'] at hsafe
    split at hr
    · cases hr
    · next hfetch =>
      cases hr
      exact h.fetch_goto hsafe hfetch (by simp [hpc, ExecutorPc.unlogged])
        (by simp [hpc, ExecutorPc.ahead])
  case h_11 n rid todo old f hpc =>
    -- the change has its record already
    cases hr
    have hn : s.Logged n := h.ahead t n (by simp [hpc, ExecutorPc.ahead])
    have hdel : (s.deleteRecord (s.threads t).fd n rid f (s.threads t).prevLsn).Inv :=
      h.deleteRecord hn rid _
    refine hdel.goto_of_none ?_ fun m hm => hdel.ahead t m ?_
    · rw [deleteRecord_threads, hpc]
      rfl
    · rw [deleteRecord_threads, hpc]
      exact hm
  case h_12 n set rid todo old f hpc =>
    cases hr
    exact h.change_goto (by simp [hpc, ExecutorPc.unlogged]) (by simp [hpc, ExecutorPc.ahead])
      (fun m hm => (by cases hm; rfl)) fun x => rfl
  case h_13 n rid todo f hpc =>
    cases hr
    exact h.unpin_goto _ (by simp [hpc, ExecutorPc.unlogged]) fun m hm => (by cases hm)
  case h_14 n set rid todo f hpc =>
    cases hr
    exact h.unpin_goto _ (by simp [hpc, ExecutorPc.unlogged])
      fun m hm => (by rw [hpc]; exact hm)
  case h_15 n c todo f hpc =>
    cases hr
    exact h.change_goto (by simp [hpc, ExecutorPc.unlogged]) (by simp [hpc, ExecutorPc.ahead])
      (fun m hm => (by cases hm)) fun x => rfl

/-- **One step of the system.** -/
theorem Inv.step (h : s.Inv) {a : StoreAction} (ho : s.Ordered a) (hr : s.step a = some s') :
    s'.Inv := by
  cases a with
  | beginInsert t txnId prevLsn fd tab rec =>
    simp only [TableStore.step] at hr
    split at hr
    · next hpc =>
      cases hr
      exact h.begin hpc rfl _
    · cases hr
  | beginChange t txnId prevLsn fd tab c rids =>
    simp only [TableStore.step] at hr
    split at hr
    · next hpc =>
      cases hr
      exact h.begin hpc rfl s.nextOp
    · cases hr
  | run t v =>
    -- an executor, whose changes are still to be logged
    exact h.runThread ho.1 ho.2 hr
  | throw t =>
    simp only [TableStore.step] at hr
    split at hr
    · next hthrows =>
      cases hr
      -- an exception comes before the change or after its record
      have hun : (s.threads t).pc.unlogged = none := by
        cases hpc : (s.threads t).pc <;> simp_all [throws, ExecutorPc.unlogged]
      exact h.goto_of_none hun fun m hm => (by cases hm)
    · cases hr
  | fetchPage p v =>
    obtain ⟨⟨f, s₁⟩, hfetch, rfl⟩ := Option.map_eq_some_iff.mp hr
    exact h.fetchPage ho hfetch
  | newPage fd v =>
    obtain ⟨⟨p, s₁⟩, hnew, rfl⟩ := Option.map_eq_some_iff.mp hr
    exact h.newPage ho hnew
  | unpinPage p isDirty =>
    cases hr
    exact h.unpinPage p isDirty
  | flushPage p =>
    cases hr
    unfold TableStore.flushPage
    split
    · exact h
    · next f hf => exact h.writeFrame (ho f hf) p
  | deletePage p =>
    cases hr
    unfold TableStore.deletePage
    split
    · exact h
    · next f hf =>
      split
      · exact h.dropFrame (ho f hf)
      · exact h
  | writeHdr fd =>
    cases hr
    exact h.writeHdr fd
  | otherChange f lsn next num bitmap slots =>
    cases hr
    exact h.modifyFrame fun m hm => .inl hm
  | otherLog r =>
    cases hr
    exact h.log (List.Subset.refl _) (file_subset _ _) fun u => rfl

/-- Each page on disk has its records in the log file. -/
theorem Inv.writeAhead (h : s.Inv) : s.WriteAhead := ⟨h.disk, h.diskHdr⟩

end TableStore

/-- The runs all of whose steps are ordered. -/
def orderedTableStore : TransitionSystem TableStore StoreAction where
  init := TableStore.Initial
  step s a s' := tableStore.step s a s' ∧ s.Ordered a

/-- **The write-ahead rule.** In a run in which no page is written to disk while an `InsertExecutor`
    has changed it and not appended its log record, and no insert writes the header page, every effect
    on the disk is in the log file: of inserts, deletes and updates, in every state. -/
theorem write_ahead_holds (s : TableStore) (h : orderedTableStore.Reachable s) : s.WriteAhead := by
  have hinv : s.Inv := by
    refine h.invariant (I := TableStore.Inv) (fun s hi => ?_) fun s a s' hs hstep => ?_
    · exact TableStore.Initial.inv hi
    · exact hs.step hstep.2 hstep.1
  exact hinv.writeAhead

/-- A table with one page that has room for ten records, opened as descriptor 3. -/
def oneFreePage : TableStore where
  frames _ := { id := ⟨-1, -1⟩, page := .zero, isDirty := false, pinCount := 0 }
  pageTable _ := none
  fd2pageno _ := 2
  disk _ := .zero
  hdr _ := { numPages := 2, numRecordsPerPage := 10, firstFreePageNo := 1, effects := [] }
  diskHdr _ := { numPages := 2, numRecordsPerPage := 10, firstFreePageNo := 1, effects := [] }
  log := .new
  logged := []
  nextOp := 0
  threads _ := { txnId := 0, prevLsn := 0, fd := 3, tabName := "t", pc := .idle }

/-- A table with one page, nothing logged. -/
theorem oneFreePage_initial : oneFreePage.Initial :=
  ⟨fun _ => ⟨rfl, rfl, rfl⟩, fun _ => rfl, fun _ => rfl, fun _ => ⟨rfl, rfl⟩, rfl, rfl, fun _ => rfl⟩

/-- `InsertExecutor` up to the end of `insert_record`: the page is fetched, changed and unpinned. -/
def insertUpToLog : List StoreAction :=
  [.beginInsert 0 0 0 3 "t" [7], .run 0 0, .run 0 0, .run 0 0]

/-- One more step of an ordered run. -/
theorem orderedTableStore_step {s s' : TableStore} (h : orderedTableStore.Reachable s)
    (a : StoreAction) (hr : s.step a = some s') (ho : s.Ordered a) : orderedTableStore.Reachable s' :=
  h.step ⟨hr, ho⟩

/-- An insert whose record is appended before its page is evicted. -/
theorem logged_insert_evicted : ∃ s, orderedTableStore.Reachable s ∧
    (s.disk ⟨3, 1⟩).effects ≠ [] ∧ s.WriteAhead := by
  have h0 : orderedTableStore.Reachable oneFreePage := .init oneFreePage_initial
  have h1 := orderedTableStore_step h0 (.beginInsert 0 0 0 3 "t" [7]) rfl trivial
  -- the frame that is taken for the page is clean
  have h2 := orderedTableStore_step h1 (.run 0 0) rfl
    ⟨show (1 : Int) ≠ -1 by decide, fun _ _ _ hd => absurd hd (by decide)⟩
  have h3 := orderedTableStore_step h2 (.run 0 0) rfl
    ⟨show (0 : Int) + 1 ≠ (10 : Nat) by decide, fun _ hp => (by cases hp)⟩
  have h4 := orderedTableStore_step h3 (.run 0 0) rfl ⟨trivial, fun _ hp => (by cases hp)⟩
  have h5 := orderedTableStore_step h4 (.run 0 0) rfl ⟨trivial, fun _ hp => (by cases hp)⟩
  -- the window is closed: no thread has anything in flight
  have h6 := orderedTableStore_step h5 (.fetchPage ⟨3, 2⟩ 0) rfl fun _ _ => by
    rintro ⟨t, n, ht⟩
    cases t with
    | zero => cases ht
    | succ t => cases ht
  exact ⟨_, h6, by decide, write_ahead_holds _ h6⟩

/-- **A page ahead of its log record.** Between `insert_record` and `add_log_to_buffer` another
    client fetches a page, and the pool takes the frame of the insert for it. -/
theorem insert_on_disk_before_log : ¬ ∀ s, tableStore.Reachable s → s.WriteAhead := by
  intro hall
  obtain ⟨s, hrun, hdisk, hlog⟩ : ∃ s,
      (insertUpToLog ++ [StoreAction.fetchPage ⟨3, 2⟩ 0]).foldlM TableStore.step oneFreePage = some s ∧
        0 ∈ (s.disk ⟨3, 1⟩).effects ∧ s.logged = [] := ⟨_, rfl, by decide, rfl⟩
  have hreach : tableStore.Reachable s :=
    TransitionSystem.Reachable.foldlM (fun _ _ _ h => h) (.init oneFreePage_initial) hrun
  obtain ⟨r, hr, -⟩ := (hall s hreach).pages ⟨3, 1⟩ 0 hdisk
  rw [hlog] at hr
  cases hr

end Rmdb
