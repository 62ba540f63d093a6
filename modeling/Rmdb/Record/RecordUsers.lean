import Mathlib.Algebra.Order.BigOperators.Group.List
import Rmdb.Record.RecordPins
import Rmdb.Storage.FramePins

namespace Rmdb

open Lib BufferPoolManager

/-!
# Several users of a record file

Any number of calls run on one record file at the same time, command by command, while others use the
buffer pool: they delete pages, take frames for pages of other files and unpin what they like.  A call that
ends leaves its history behind.

* `rmUsers` — the runs;
* `RmUsers.Inv` — in every state the pin count of a frame is what the others have made of it and what the
  calls have got and not given back;
* `recordPins_of_reachable` — so a file all of whose calls have ended smoothly can be dropped.
-/

/-- A call in progress: what it has exchanged, and what is left of its program. -/
structure RmRunning where
  call : RmCall
  past : RmHistory
  rest : Program rmInterface (Except ContextError Unit)

/-- A record file and its calls.  `others` counts, for each frame of the pool, the pins that others have
    got, less those that they have taken. -/
structure RmUsers where
  file : RmFileHandle
  running : List RmRunning
  finished : List (RmCall × RmHistory)
  others : FrameId → Int

/-- A command on the file.  A lock may be granted or not. -/
def RmCmd.Performs (s : RmFileHandle) : (c : RmCmd) → c.Answer → RmFileHandle → Prop
  | .lock _ _, _, s' => s' = s
  | c, a, s' => ∃ context, RmProgram.answer context c s = (a, s')

/-- The steps of the users, and of the others. -/
inductive RmUsers.Step (w : RmUsers) : RmUsers → Prop
  | start (c : RmCall) : Step w { w with running := ⟨c, [], c.program.run⟩ :: w.running }
  | command {l₁ l₂ : List RmRunning} {call : RmCall} {past : RmHistory} {c : RmCmd}
      {next : c.Answer → Program rmInterface (Except ContextError Unit)} {a : c.Answer} {s' : RmFileHandle}
      (hw : w.running = l₁ ++ ⟨call, past, .call c next⟩ :: l₂) (hc : c.Performs w.file a s') :
      Step w { w with file := s', running := l₁ ++ ⟨call, past ++ [⟨c, a⟩], next a⟩ :: l₂ }
  | finish {l₁ l₂ : List RmRunning} {call : RmCall} {past : RmHistory} {r : Except ContextError Unit}
      (hw : w.running = l₁ ++ ⟨call, past, .done r⟩ :: l₂) :
      Step w { w with running := l₁ ++ l₂, finished := (call, past) :: w.finished }
  | other (s : PoolStep DiskManager) (hs : s.Allowed w.file.pool) (hfd : s.Elsewhere w.file.fd) :
      Step w { w with
        file := { w.file with pool := s.apply DiskManager.ops w.file.pool }
        others := fun f => w.others f +
          (((s.apply DiskManager.ops w.file.pool).pages f).pinCount - (w.file.pool.pages f).pinCount) }

/-- **A record file under any interleaving**, from a state in which none of its pages is pinned. -/
def rmUsers : TransitionSystem RmUsers Unit where
  init w := w.file.pool.PinInv ∧ (∀ f, (w.file.pool.pages f).id.fd = w.file.fd →
    (w.file.pool.pages f).pinCount = 0) ∧ w.running = [] ∧ w.finished = [] ∧
      ∀ f, w.others f = (w.file.pool.pages f).pinCount
  step w _ w' := w.Step w'

/-! ### One command -/

section Commands

variable {s s' : RmFileHandle}

/-- What a command does to the pool. -/
structure RmCmd.Does (s s' : RmFileHandle) (t : List (PinEvent FrameId)) : Prop where
  fd : s'.fd = s.fd
  pool : s'.pool.PinInv
  gains : Gains s.pool s'.pool t (·.fd = s.fd)

/-- **A command** changes the pin counts of the frames by its event. -/
theorem RmCmd.Performs.does {c : RmCmd} {a : c.Answer} (hc : c.Performs s a s') (h : s.pool.PinInv) :
    RmCmd.Does s s' (pinEvents [⟨c, a⟩]) := by
  cases c with
  | lock exclusive rid =>
    obtain rfl : s' = s := hc
    exact ⟨rfl, h, .refl _⟩
  | fetchPage m =>
    obtain ⟨context, hanswer⟩ := hc
    obtain ⟨rfl, rfl⟩ := Prod.mk.inj hanswer
    refine ⟨rfl, (PoolCall.fetch_spec h _).1, ?_⟩
    have hnew : ∀ p : PageId, p = ⟨s.fd, m⟩ → p.fd = s.fd := by
      rintro _ rfl
      rfl
    -- nothing is fetched, or one frame has a pin more
    rcases fetchPage_gains DiskManager.ops h ⟨s.fd, m⟩ with ⟨hg, hnone⟩ | ⟨f, hf, hg, -⟩
    · have hevent : pinEvents [⟨RmCmd.fetchPage m, (s.pool.fetchPage DiskManager.ops ⟨s.fd, m⟩).1⟩] = [] := by
        rcases hr : (s.pool.fetchPage DiskManager.ops ⟨s.fd, m⟩).1 with e | _ | f
        · rfl
        · rfl
        · exact absurd hr (hnone f)
      exact hevent ▸ hg.mono hnew
    · have hevent : pinEvents [⟨RmCmd.fetchPage m, (s.pool.fetchPage DiskManager.ops ⟨s.fd, m⟩).1⟩] =
          [.fetch f] := by
        rw [hf]
        rfl
      exact hevent ▸ hg.mono hnew
  | newPage =>
    obtain ⟨context, hanswer⟩ := hc
    obtain ⟨rfl, rfl⟩ := Prod.mk.inj hanswer
    refine ⟨rfl, (PoolCall.new_spec h _).1, ?_⟩
    -- the same of a new page
    rcases newPage_gains DiskManager.ops h s.fd with ⟨hg, hnone⟩ | ⟨f, p, hf, hg, -⟩
    · have hevent : pinEvents [⟨RmCmd.newPage, (s.pool.newPage DiskManager.ops s.fd).1⟩] = [] := by
        rcases hr : (s.pool.newPage DiskManager.ops s.fd).1 with e | _ | r
        · rfl
        · rfl
        · exact absurd hr (hnone r)
      exact hevent ▸ hg
    · have hevent : pinEvents [⟨RmCmd.newPage, (s.pool.newPage DiskManager.ops s.fd).1⟩] =
          [.fetch f] := by
        rw [hf]
        rfl
      exact hevent ▸ hg
  | unpinPage m isDirty =>
    obtain ⟨context, hanswer⟩ := hc
    obtain ⟨rfl, rfl⟩ := Prod.mk.inj hanswer
    refine ⟨rfl, (PoolCall.unpin_spec h ⟨s.fd, m⟩ isDirty).1, ?_⟩
    -- the page table has no entry, or its frame has a pin less
    rcases unpinPage_gains (b := s.pool) (N := (·.fd = s.fd)) ⟨s.fd, m⟩ isDirty with
      ⟨hfalse, heq⟩ | ⟨f, htrue, hf, hg⟩
    · simp only [hfalse, heq]
      exact .refl _
    · simp only [htrue, hf]
      exact hg
  | flushPage p =>
    obtain ⟨context, hanswer⟩ := hc
    obtain ⟨rfl, rfl⟩ := Prod.mk.inj hanswer
    exact ⟨rfl, (PoolCall.flush_spec h p).1, .flushPage DiskManager.ops p⟩
  | write page g =>
    -- the bytes of a frame change, its pins and its id do not
    obtain ⟨context, hanswer⟩ := hc
    obtain ⟨rfl, rfl⟩ := Prod.mk.inj hanswer
    have hset : Gains s.pool (s.pool.setPage page.frame
        { s.pool.pages page.frame with data := g (s.pool.pages page.frame).data }) [] (·.fd = s.fd) :=
      .setPage rfl rfl rfl
    exact ⟨rfl, h.setPage rfl rfl id, hset.pins, hset.ids⟩
  | writeFileHdr =>
    -- past the pool
    obtain ⟨context, hanswer⟩ := hc
    obtain ⟨rfl, rfl⟩ := Prod.mk.inj hanswer
    exact ⟨rfl, h.setDisk _, .of_same (fun _ => rfl) fun _ => rfl⟩
  | read page =>
    obtain ⟨context, hanswer⟩ := hc
    obtain ⟨rfl, rfl⟩ := Prod.mk.inj hanswer
    have hsame : Gains s.pool s.pool [] (·.fd = s.fd) := .refl _
    exact ⟨rfl, h, hsame.pins, hsame.ids⟩
  | pageNo page | fileHdr | setFileHdr g =>
    obtain ⟨context, hanswer⟩ := hc
    obtain ⟨rfl, rfl⟩ := Prod.mk.inj hanswer
    exact ⟨rfl, h, .refl _⟩

end Commands

/-! ### Runs -/

namespace RmUsers

/-- The pins of a frame that the calls in progress have got and not given back. -/
def held (w : RmUsers) (f : FrameId) : Int := (w.running.map fun x => gain (pinEvents x.past) f).sum

/-- Those that the calls have left that have ended. -/
def left (w : RmUsers) (f : FrameId) : Int := (w.finished.map fun x => gain (pinEvents x.2) f).sum

/-- All calls that have ended have kept the pins, and those in progress have unpinned nothing but what they
    have fetched. -/
def Tidy (w : RmUsers) : Prop :=
  (∀ x ∈ w.finished, KeepsPins (pinEvents x.2)) ∧
    ∀ x ∈ w.running, Covered PinEvent.unpinned (fun _ => 0) (pinEvents x.past)

variable {w w' : RmUsers}

/-- Calls that keep the pins leave none. -/
theorem left_eq_zero (h : ∀ x ∈ w.finished, KeepsPins (pinEvents x.2)) (f : FrameId) : w.left f = 0 := by
  refine List.sum_eq_zero fun m hm => ?_
  obtain ⟨x, hx, rfl⟩ := List.mem_map.mp hm
  exact (h x hx).pinsAfter.gain f

/-- Calls in progress hold no negative number of pins. -/
theorem held_nonneg (h : ∀ x ∈ w.running, Covered PinEvent.unpinned (fun _ => 0) (pinEvents x.past))
    (f : FrameId) : 0 ≤ w.held f := by
  refine List.sum_nonneg fun m hm => ?_
  obtain ⟨x, hx, rfl⟩ := List.mem_map.mp hm
  have hcount := (h x hx).pinsAfter_eq f
  omega

/-- **A step backwards**: before a tidy state there was one. -/
theorem Step.tidy (hstep : w.Step w') (h : w'.Tidy) : w.Tidy := by
  obtain ⟨hfinished, hrunning⟩ := h
  cases hstep with
  | start c => exact ⟨hfinished, fun x hx => hrunning x (List.mem_cons_of_mem _ hx)⟩
  | @command l₁ l₂ call past c next a s' hw hc =>
    refine ⟨hfinished, fun x hx => ?_⟩
    rw [hw] at hx
    rcases List.mem_append.mp hx with hx | hx
    · exact hrunning x (by simp [hx])
    · rcases List.mem_cons.mp hx with rfl | hx
      · -- the call has exchanged less
        have hlong := hrunning ⟨call, past ++ [⟨c, a⟩], next a⟩ (by simp)
        rw [pinEvents_append, covered_append] at hlong
        exact hlong.1
      · exact hrunning x (by simp [hx])
  | @finish l₁ l₂ call past r hw =>
    refine ⟨fun x hx => hfinished x (List.mem_cons_of_mem _ hx), fun x hx => ?_⟩
    rw [hw] at hx
    rcases List.mem_append.mp hx with hx | hx
    · exact hrunning x (List.mem_append_left _ hx)
    · rcases List.mem_cons.mp hx with rfl | hx
      · exact (hfinished (call, past) List.mem_cons_self).pinsAfter.covered
      · exact hrunning x (List.mem_append_right _ hx)
  | other s hs hfd => exact ⟨hfinished, hrunning⟩

/-- **What every step keeps.** -/
structure Inv (w : RmUsers) : Prop where
  pool : w.file.pool.PinInv
  /-- A history that goes on to an end is one of the call. -/
  running : ∀ x ∈ w.running, ∀ h r, x.rest.Runs h r → x.call.program.run.Runs (x.past ++ h) r
  finished : ∀ x ∈ w.finished, ∃ r, x.1.program.run.Runs x.2 r
  /-- The pins of every frame are those of the others and those of the calls. -/
  pins : ∀ f, (w.file.pool.pages f).pinCount = w.others f + w.held f + w.left f
  /-- Others have no pin on a page of the file. -/
  foreign : w.Tidy → ∀ f, (w.file.pool.pages f).id.fd = w.file.fd → w.others f ≤ 0

/-- The invariant holds at the start. -/
theorem inv_init (hw : rmUsers.init w) : w.Inv := by
  obtain ⟨hpool, hpins, hrunning, hfinished, hothers⟩ := hw
  refine ⟨hpool, fun x hx => ?_, fun x hx => ?_, fun f => ?_, fun _ f hf => ?_⟩
  · rw [hrunning] at hx
    cases hx
  · rw [hfinished] at hx
    cases hx
  · simp [held, left, hrunning, hfinished, hothers]
  · rw [hothers, hpins f hf]

/-- In a tidy state the others have not taken more pins than they had from an unpinned frame. -/
theorem Inv.others_nonpos (h : w.Inv) (htidy : w.Tidy) {f : FrameId}
    (h0 : (w.file.pool.pages f).pinCount = 0) : w.others f ≤ 0 := by
  have hpins := h.pins f
  have hheld := held_nonneg htidy.2 f
  rw [h0, left_eq_zero htidy.1] at hpins
  omega

/-- **A command.** -/
theorem Inv.command (h : w.Inv) {l₁ l₂ : List RmRunning} {call : RmCall} {past : RmHistory} {c : RmCmd}
    {next : c.Answer → Program rmInterface (Except ContextError Unit)} {a : c.Answer} {s' : RmFileHandle}
    (hw : w.running = l₁ ++ ⟨call, past, .call c next⟩ :: l₂) (hc : c.Performs w.file a s') :
    Inv { w with file := s', running := l₁ ++ ⟨call, past ++ [⟨c, a⟩], next a⟩ :: l₂ } := by
  have hmem : (⟨call, past, .call c next⟩ : RmRunning) ∈ w.running := by simp [hw]
  obtain ⟨hfd, hpool, hgains⟩ := hc.does h.pool
  refine ⟨hpool, fun x hx => ?_, h.finished, fun f => ?_, fun htidy f hf => ?_⟩
  · have hx' : x ∈ w.running ∨ x = ⟨call, past ++ [⟨c, a⟩], next a⟩ := by
      rw [hw]
      rcases List.mem_append.mp hx with hx | hx
      · exact Or.inl (by simp [hx])
      · rcases List.mem_cons.mp hx with rfl | hx
        · exact Or.inr rfl
        · exact Or.inl (by simp [hx])
    rcases hx' with hx | rfl
    · exact h.running x hx
    · intro l r hr
      rw [List.append_assoc]
      exact h.running _ hmem _ r (.call trivial hr)
  · have hpins := h.pins f
    simp only [held, left, hw, List.map_append, List.map_cons, List.sum_append, List.sum_cons, hgains.pins,
      pinEvents_append, gain_append] at hpins ⊢
    omega
  · -- a frame has a page of the file already, or it gets one while nobody has a pin on it
    have hbefore := (Step.command hw hc).tidy htidy
    rcases hgains.ids f with hid | ⟨h0, -⟩
    · refine h.foreign hbefore f ?_
      rw [← hid, ← hfd]
      exact hf
    · exact h.others_nonpos hbefore h0

/-- **One step.** -/
theorem Inv.step (h : w.Inv) (hstep : w.Step w') : w'.Inv := by
  have hbefore := hstep.tidy
  cases hstep with
  | start c =>
    refine ⟨h.pool, fun x hx => ?_, h.finished, fun f => ?_, fun htidy => h.foreign (hbefore htidy)⟩
    · rcases List.mem_cons.mp hx with rfl | hx
      · exact fun l r hr => hr
      · exact h.running x hx
    · simpa [held, left] using h.pins f
  | command hw hc => exact h.command hw hc
  | @finish l₁ l₂ call past r hw =>
    have hmem : (⟨call, past, .done r⟩ : RmRunning) ∈ w.running := by simp [hw]
    refine ⟨h.pool, fun x hx => h.running x ?_, fun x hx => ?_, fun f => ?_,
      fun htidy => h.foreign (hbefore htidy)⟩
    · rw [hw]
      rcases List.mem_append.mp hx with hx | hx <;> simp [hx]
    · rcases List.mem_cons.mp hx with rfl | hx
      · have hr := h.running _ hmem [] r (.done r)
        rw [List.append_nil] at hr
        exact ⟨r, hr⟩
      · exact h.finished x hx
    · -- what it held is left
      have hpins := h.pins f
      simp only [held, left, hw, List.map_append, List.map_cons, List.sum_append, List.sum_cons] at hpins ⊢
      omega
  | other s hs hfd =>
    refine ⟨(PoolStep.apply_spec h.pool s hs).1, h.running, h.finished, fun f => ?_, fun htidy f hf => ?_⟩
    · have hpins := h.pins f
      simp only [held, left] at hpins ⊢
      omega
    · obtain ⟨hfile, hle⟩ := hfd.spec h.pool hf
      have hold := h.foreign (hbefore htidy) f hfile
      show w.others f + _ ≤ 0
      omega

/-- It holds in every state reached. -/
theorem inv_of_reachable (hw : rmUsers.Reachable w) : w.Inv :=
  hw.invariant (fun _ => inv_init) fun _ _ _ => Inv.step

/-- A finished call has kept the pins exactly when its history is smooth. -/
theorem Inv.keepsPins_iff (h : w.Inv) {x : RmCall × RmHistory} (hx : x ∈ w.finished) :
    KeepsPins (pinEvents x.2) ↔ x.1.Smooth x.2 := by
  obtain ⟨r, hr⟩ := h.finished x hx
  exact x.1.keepsPins_iff _ r hr

/-- **The pins of the file** are those of the calls in progress, if all others have ended smoothly. -/
theorem Inv.pinCount_le (h : w.Inv) (htidy : w.Tidy) {f : FrameId}
    (hf : (w.file.pool.pages f).id.fd = w.file.fd) : (w.file.pool.pages f).pinCount ≤ w.held f := by
  have hpins := h.pins f
  have hforeign := h.foreign htidy f hf
  rw [left_eq_zero htidy.1] at hpins
  omega

end RmUsers

/-- **Pins under any interleaving.**  A call that has ended has kept the pins just if it was smooth.  As
    long as all have been, the pin count of every frame is what the others have made of it and what the
    calls in progress hold; a frame with a page of the file has no pins but theirs, if they unpin what they
    have fetched; and when there is none `delete_all_page` goes through, if the disk takes the dirty pages. -/
theorem recordPins_of_reachable {w : RmUsers} (hw : rmUsers.Reachable w) :
    (∀ x ∈ w.finished, KeepsPins (pinEvents x.2) ↔ x.1.Smooth x.2) ∧
    ((∀ x ∈ w.finished, x.1.Smooth x.2) →
      (∀ f, (w.file.pool.pages f).pinCount = w.others f + w.held f) ∧
      ((∀ x ∈ w.running, Returned x.past) →
        ∀ f, (w.file.pool.pages f).id.fd = w.file.fd → (w.file.pool.pages f).pinCount ≤ w.held f) ∧
      (w.running = [] → (w.file.pool.deleteAllPage DiskManager.ops w.file.fd).1 ≠ .ok false ∧
        ((∀ p f, p.fd = w.file.fd → w.file.pool.pageTable.lookup p = some f →
            (w.file.pool.pages f).isDirty = true → DiskManager.ops.Addressable w.file.pool.disk p) →
          (w.file.pool.deleteAllPage DiskManager.ops w.file.fd).1 = .ok true))) := by
  have h := RmUsers.inv_of_reachable hw
  refine ⟨fun x hx => h.keepsPins_iff hx, fun hsmooth => ?_⟩
  have hkept : ∀ x ∈ w.finished, KeepsPins (pinEvents x.2) := fun x hx =>
    (h.keepsPins_iff hx).mpr (hsmooth x hx)
  refine ⟨fun f => ?_, fun hreturned f hf => ?_, fun hidle => ?_⟩
  · rw [h.pins, RmUsers.left_eq_zero hkept, Int.add_zero]
  · exact h.pinCount_le ⟨hkept, fun x hx => (hreturned x hx).2⟩ hf
  · have hzero : ∀ f, (w.file.pool.pages f).id.fd = w.file.fd → (w.file.pool.pages f).pinCount ≤ 0 :=
      fun f hf => by
        have hle := h.pinCount_le ⟨hkept, fun x hx => by rw [hidle] at hx; cases hx⟩ hf
        simpa [RmUsers.held, hidle] using hle
    have hno : ¬ w.file.pool.PinInTable w.file.fd := by
      rintro ⟨p, f, hfd, hp, hpin⟩
      have hle := hzero f ((congrArg PageId.fd (h.pool.mapped p f hp).2).trans hfd)
      omega
    refine ⟨fun hfalse => ?_, fun hio => (h.pool.deleteAllPage_dropped DiskManager.lawful hio hno).1⟩
    rcases w.file.pool.deleteAllPage_cases DiskManager.ops w.file.fd with ⟨⟨f, hf, hpin⟩, -⟩ | ⟨-, heq⟩
    · obtain ⟨p, hfd, hp⟩ := mem_targets.mp hf
      have hpos := h.pool.pins f
      exact hno ⟨p, f, hfd, hp, by omega⟩
    · have hmap : ∀ x : Except DiskError Unit, (x.map fun _ => true) ≠ .ok false := by
        rintro (e | u)
        · simp [Except.map]
        · simp [Except.map]
      rw [heq] at hfalse
      exact hmap _ hfalse

/-! ### A call alone -/

namespace RmUsers

variable {w : RmUsers}

/-- The calls of the record file answer as commands do. -/
theorem performs_answer {s : RmFileHandle} (context : RmContext) (c : RmCmd) :
    c.Performs s (RmProgram.answer context c s).1 (RmProgram.answer context c s).2 := by
  cases c with
  | lock exclusive rid => exact rfl
  | _ => exact ⟨context, rfl⟩

/-- A call that goes on without the others comes to its end. -/
theorem reachable_exec (context : RmContext) (call : RmCall)
    (p : Program rmInterface (Except ContextError Unit)) {past : RmHistory}
    (hw : rmUsers.Reachable { w with running := ⟨call, past, p⟩ :: w.running }) :
    rmUsers.Reachable { w with
      file := (p.exec (RmProgram.answer context) w.file).2
      finished := (call, past ++ p.trace (RmProgram.answer context) w.file) :: w.finished } := by
  induction p generalizing past w with
  | done r =>
    have hend := hw.step (a := ()) (.finish (List.nil_append _).symm)
    simpa [Program.trace, Program.exec] using hend
  | call c next ih =>
    have hstep := hw.step (a := ()) (.command (List.nil_append _).symm (performs_answer context c))
    have hend := ih _ (w := { w with file := (RmProgram.answer context c w.file).2 }) hstep
    rwa [List.append_assoc] at hend

/-- **A call without the others** is a run. -/
theorem reachable_alone (hw : rmUsers.Reachable w) (context : RmContext) (call : RmCall) :
    rmUsers.Reachable { w with
      file := (RmProgram.alone context call.program w.file).2
      finished := (call, call.program.run.trace (RmProgram.answer context) w.file) :: w.finished } :=
  reachable_exec context call _ (hw.step (a := ()) (.start call))

end RmUsers

/-- A pool of one frame that has page 1 of file 3, unpinned. -/
def onePagePool : BufferPoolManager DiskManager :=
  [PoolCall.new 3, .unpin ⟨3, 1⟩ false].foldl (PoolCall.run DiskManager.ops)
    (.new 1 (fun _ => 0) ⟨fun _ => none, [], fun _ => none, fun _ => none, fun _ => 1⟩)

/-- A record file with this page. -/
def onePageUsers : RmUsers := ⟨⟨3, ⟨4, 2, 10, rmNoPage, 2⟩, onePagePool⟩, [], [], fun _ => 0⟩

/-- The sample state is reached. -/
theorem onePageUsers_reachable : rmUsers.Reachable onePageUsers := by
  -- the frames but the first one are as the constructor has left them
  have hpin : ∀ f, (onePagePool.pages f).pinCount = 0 := fun f => by
    cases f with
    | zero => rfl
    | succ f => rfl
  refine .init ⟨?_, fun f _ => hpin f, rfl, rfl, fun f => (hpin f).symm⟩
  exact (PoolCall.unpin_spec (PoolCall.new_spec (pinInv_new _ _ _) 3).1 ⟨3, 1⟩ false).1

/-- The file after a call alone. -/
def RmUsers.after (w : RmUsers) (call : RmCall) : RmUsers :=
  { w with
    file := (RmProgram.alone ⟨fun _ => true, 0⟩ call.program w.file).2
    finished := (call, call.program.run.trace (RmProgram.answer ⟨fun _ => true, 0⟩) w.file) :: w.finished }

/-- `get_page_lsn` gives its page back. -/
theorem recordPins_of_reachable_getPageLsn :
    ((onePageUsers.after (.getPageLsn 1)).file.pool.pages 0).pinCount ≤ 0 ∧
    ((onePageUsers.after (.getPageLsn 1)).file.pool.deleteAllPage DiskManager.ops 3).1 ≠ .ok false := by
  have hreach : rmUsers.Reachable (onePageUsers.after (.getPageLsn 1)) :=
    RmUsers.reachable_alone onePageUsers_reachable _ _
  obtain ⟨-, hpins, hidle⟩ := (recordPins_of_reachable hreach).2 fun x hx => by
    obtain rfl := List.mem_singleton.mp hx
    -- the page is fetched into frame 0, read and unpinned there
    show Returned [⟨RmCmd.fetchPage 1, Except.ok (some 0)⟩, ⟨RmCmd.read ⟨0, 1⟩, _⟩,
      ⟨RmCmd.unpinPage 1 false, some 0⟩]
    exact ⟨by simp [RmCmd.IsMissed], by simp [pinEvents, RmCmd.pinEvent, Covered, PinEvent.apply]⟩
  exact ⟨hpins (fun x hx => by cases hx) 0 rfl, (hidle rfl).1⟩

/-- **A pin is left**: after `is_record` alone the pages of the file cannot be dropped. -/
theorem isRecord_leaves_pin : ∃ w, rmUsers.Reachable w ∧ w.running = [] ∧
    (¬ ∀ x ∈ w.finished, KeepsPins (pinEvents x.2)) ∧
    (w.file.pool.deleteAllPage DiskManager.ops w.file.fd).1 = .ok false := by
  refine ⟨onePageUsers.after (.isRecord ⟨1, 0⟩), RmUsers.reachable_alone onePageUsers_reachable _ _, rfl,
    fun hall => ?_, rfl⟩
  have hexcess := (hall _ List.mem_cons_self).excess
  have hone : excess (pinEvents ((RmCall.isRecord ⟨1, 0⟩).program.run.trace
      (RmProgram.answer ⟨fun _ => true, 0⟩) onePageUsers.file)) = 1 := rfl
  rw [hone] at hexcess
  cases hexcess

end Rmdb
