import Rmdb.Record.RecordPrograms

namespace Rmdb

open Lib

/-!
# The pins of record operations

Each operation of a record file keeps a pin by hand: it fetches its page, works on it and unpins it.
Some leave the page pinned, some change it when it is not theirs any more.  A pin is one of the frame into
which the page was fetched, and `unpin_page` takes it only if the page table still leads there: in the
meantime other users may have erased the entry of the page, or made it again for another frame.

* `pinEvents` — what a history does with the pins of the pool's frames;
* `KeepsPins` — the pin counts are as the other users make them, and a page is changed only under a pin
  that is later released as dirty;
* `RmCall.Smooth`, `RmCall.keepsPins_iff` — exactly which histories of which operations do this.
-/

/-- A history of the record layer. -/
abbrev RmHistory := List rmInterface.Exchange

namespace RmCmd

/-- What a command does with the pins of a frame, or with its bytes. -/
def pinEvent : (c : RmCmd) → c.Answer → Option (PinEvent FrameId)
  | .fetchPage _, (.ok (some f) : Except DiskError (Option FrameId)) => some (.fetch f)
  | .newPage, (.ok (some (f, _)) : Except DiskError (Option (FrameId × PageId))) => some (.fetch f)
  | .unpinPage _ isDirty, (some f : Option FrameId) => some (.unpin f isDirty)
  | .read page, _ => some (.read page.frame)
  | .write page _, _ => some (.write page.frame)
  | _, _ => none

/-- The command gets a page. -/
def GetsPage : (c : RmCmd) → c.Answer → Prop
  | .fetchPage _, (.ok (some _) : Except DiskError (Option FrameId)) => True
  | .newPage, (.ok (some _) : Except DiskError (Option (FrameId × PageId))) => True
  | _, _ => False

/-- A lock is refused, or the disk does not take a page. -/
def IsRefused : (c : RmCmd) → c.Answer → Prop
  | .lock _ _, (granted : Bool) => granted = false
  | .flushPage _, (.error _ : Except DiskError Bool) => True
  | .writeFileHdr, (.error _ : Except DiskError Unit) => True
  | _, _ => False

/-- `unpin_page` returns false: the page is not in the table, or has no pin. -/
def IsMissed : (c : RmCmd) → c.Answer → Prop
  | .unpinPage _ _, (o : Option FrameId) => o = none
  | _, _ => False

end RmCmd

/-- What a history does with the pins. -/
def pinEvents (h : RmHistory) : List (PinEvent FrameId) := h.filterMap fun x => x.cmd.pinEvent x.answer

/-- There is an exchange of this kind. -/
def Occurs (kind : (c : RmCmd) → c.Answer → Prop) (h : RmHistory) : Prop := ∃ x ∈ h, kind x.cmd x.answer

/-- The operation gets a page. -/
abbrev GotPage (h : RmHistory) : Prop := Occurs RmCmd.GetsPage h

/-- A lock is refused, or a write to the disk. -/
abbrev Refused (h : RmHistory) : Prop := Occurs RmCmd.IsRefused h

/-- A pin is not taken back. -/
abbrev Missed (h : RmHistory) : Prop := Occurs RmCmd.IsMissed h

@[simp] theorem pinEvents_nil : pinEvents [] = [] := rfl

/-- The pool's events of two histories, one behind the other. -/
@[simp] theorem pinEvents_append (h h' : RmHistory) : pinEvents (h ++ h') = pinEvents h ++ pinEvents h' :=
  List.filterMap_append

section Occurs

variable {kind : (c : RmCmd) → c.Answer → Prop}

@[simp] theorem occurs_nil : ¬ Occurs kind [] := fun ⟨_, hx, _⟩ => (by cases hx)

/-- It happens at the first exchange or in the rest. -/
@[simp] theorem occurs_cons (x : rmInterface.Exchange) (h : RmHistory) :
    Occurs kind (x :: h) ↔ kind x.cmd x.answer ∨ Occurs kind h := List.exists_mem_cons_iff ..

/-- It happens in one of the two parts. -/
@[simp] theorem occurs_append (h h' : RmHistory) : Occurs kind (h ++ h') ↔ Occurs kind h ∨ Occurs kind h' := by
  simp only [Occurs, List.mem_append, or_and_right, exists_or]

end Occurs

/-! ### What is expected -/

/-- **The pins are kept.** -/
structure KeepsPins (t : List (PinEvent FrameId)) : Prop where
  /-- While other users work that unpin what they have pinned, the pin counts of the frames become what
      these users make of them. -/
  kept : ∀ T : Interleaving FrameId, T.own = t → Covered PinEvent.unpinned (fun _ => 0) T.others →
    ∀ c, pinsAfter c T.events = pinsAfter c T.others
  /-- A page is changed only under a pin of the operation, -/
  covered : Covered PinEvent.changed (fun _ => 0) t
  /-- which is later released as dirty. -/
  released : DirtyReleased t

/-- A nested trace that releases changed pages dirty keeps the pins. -/
theorem KeepsPins.of_nested {t : List (PinEvent FrameId)} (h : Nested [] t) (hd : DirtyReleased t) :
    KeepsPins t where
  kept T hT hothers c := by
    subst hT
    exact h.kept.interleaved (h.covered_zero fun _ _ => Or.inr) hothers c
  covered := h.covered_zero fun e q hq => Or.inl (by
    cases e with
    | write p => exact hq
    | _ => cases hq)
  released := hd

/-- Without other users the pin counts are kept. -/
theorem KeepsPins.pinsAfter {t : List (PinEvent FrameId)} (h : KeepsPins t) : Kept t := by
  intro c
  have hown : Interleaving.own (t.map fun e => (true, e)) = t := by
    simp [Interleaving.own, List.filter_map, Function.comp_def]
  have hothers : Interleaving.others (t.map fun e => (true, e)) = [] := by
    simp [Interleaving.others, List.filter_map, Function.comp_def]
  have hevents : Interleaving.events (t.map fun e => (true, e)) = t := by
    simp [Interleaving.events, Function.comp_def]
  have := h.kept _ hown (by rw [hothers]; trivial) c
  rwa [hevents, hothers] at this

/-- A trace that keeps the pins has no excess. -/
theorem KeepsPins.excess {t : List (PinEvent FrameId)} (h : KeepsPins t) : excess t = 0 :=
  excess_eq_zero h.pinsAfter.balanced

/-- Nothing has been done with a pin. -/
theorem keepsPins_nil : KeepsPins [] := .of_nested rfl trivial

/-- A pin is left. -/
theorem not_keepsPins_of_excess {t : List (PinEvent FrameId)} (hpos : 0 < excess t) : ¬ KeepsPins t :=
  fun hkeeps => absurd hkeeps.excess (Int.ne_of_gt hpos)

/-- **Each `unpin_page` takes a pin of its own operation**: the page table leads to the frame into which
    the operation has fetched the page, and the pin is still there. -/
def Returned (h : RmHistory) : Prop :=
  ¬ Missed h ∧ Covered PinEvent.unpinned (fun _ => 0) (pinEvents h)

/-- The pages of a history are fetched, used and unpinned one after the other. -/
def Bracketed (h : RmHistory) : Prop := Nested [] (pinEvents h) ∧ DirtyReleased (pinEvents h)

/-- **A history that unpins its pages**, though the pool may not find them. -/
structure Returns (h : RmHistory) : Prop where
  left : 0 ≤ excess (pinEvents h)
  missed : Missed h → 0 < excess (pinEvents h)
  bracketed : Returned h → Bracketed h

/-- A history without events of the pool returns. -/
theorem Returns.nil {h : RmHistory} (hmissed : ¬ Missed h) (hevents : pinEvents h = []) : Returns h where
  left := by rw [hevents]; rfl
  missed h := absurd h hmissed
  bracketed _ := by
    unfold Bracketed
    rw [hevents]
    exact ⟨rfl, trivial⟩

/-- Then the pins are kept just if `unpin_page` finds them. -/
theorem Returns.keepsPins_iff {h : RmHistory} (hr : Returns h) : KeepsPins (pinEvents h) ↔ Returned h := by
  refine ⟨fun hkeeps => ⟨fun hmissed => ?_, hkeeps.pinsAfter.covered⟩, fun hret => ?_⟩
  · exact not_keepsPins_of_excess (hr.missed hmissed) hkeeps
  · exact .of_nested (hr.bracketed hret).1 (hr.bracketed hret).2

/-- **A page is fetched, used and unpinned**, and the rest of the history unpins its pages, too. -/
theorem Returns.bracket {h h' : RmHistory} {f : FrameId} {u : List (PinEvent FrameId)} {n : Int} {d : Bool}
    (hevents : pinEvents h = .fetch f :: u) (hmissed : ¬ Missed h) (huses : Uses f u)
    (hdirty : DirtyReleased (u ++ [.unpin f d])) (hrest : Returns h') (o : Option FrameId) :
    Returns (h ++ ⟨.unpinPage n d, o⟩ :: h') := by
  cases o with
  | none =>
    -- the page table has lost the page: the pin is left
    have hall : pinEvents (h ++ ⟨.unpinPage n d, none⟩ :: h') = .fetch f :: (u ++ pinEvents h') := by
      rw [pinEvents_append, hevents]
      rfl
    have hpos : 0 < excess (pinEvents (h ++ ⟨.unpinPage n d, none⟩ :: h')) := by
      have := hrest.left
      rw [hall, excess_fetch, excess_append, huses.excess]
      omega
    exact ⟨Int.le_of_lt hpos, fun _ => hpos, fun hret => absurd (by simp [RmCmd.IsMissed]) hret.1⟩
  | some g =>
    have hall : pinEvents (h ++ ⟨.unpinPage n d, some g⟩ :: h') =
        .fetch f :: (u ++ .unpin g d :: pinEvents h') := by
      rw [pinEvents_append, hevents]
      rfl
    have hexcess : excess (pinEvents (h ++ ⟨.unpinPage n d, some g⟩ :: h')) = excess (pinEvents h') := by
      rw [hall, excess_fetch, excess_append, huses.excess, excess_unpin]
      omega
    have hmiss : Missed (h ++ ⟨.unpinPage n d, some g⟩ :: h') ↔ Missed h' := by
      simp [RmCmd.IsMissed, hmissed]
    refine ⟨hexcess ▸ hrest.left, fun hm => hexcess ▸ hrest.missed (hmiss.mp hm), fun hret => ?_⟩
    obtain ⟨hnone, hcovered⟩ := hret
    rw [hall, huses.covered_bracket] at hcovered
    obtain ⟨rfl, hcovered⟩ := hcovered
    obtain ⟨hnested, hreleased⟩ := hrest.bracketed ⟨mt hmiss.mpr hnone, hcovered⟩
    unfold Bracketed
    rw [hall, List.append_cons, ← List.cons_append]
    exact ⟨(huses.nested d).append hnested, DirtyReleased.append (t := .fetch g :: _) hdirty hreleased⟩

namespace RmProgram

/-! ### Getting a page -/

/-- What holds of every history of a program and its result. -/
def Always {α : Type} (x : RmProgram α) (Q : RmHistory → Except ContextError α → Prop) : Prop :=
  Program.Always x.run Q

variable {α β : Type} {f : FrameId} {Q : RmHistory → Except ContextError α → Prop}

/-- What holds of every history of a sequence, by its first part. -/
theorem always_bind {x : RmProgram α} {k : α → RmProgram β} {Q : RmHistory → Except ContextError β → Prop} :
    Always (x >>= k) Q ↔ Always x fun h r =>
      match r with
      | .error e => Q h (.error e)
      | .ok a => Always (k a) fun h' r => Q (h ++ h') r := by
  refine (Program.always_bindE (x := x) (k := k)).trans ?_
  refine forall_congr' fun h => forall_congr' fun r => imp_congr_right fun _ => ?_
  cases r with
  | error e => exact Iff.rfl
  | ok a => exact Iff.rfl

/-- A result without an exchange. -/
@[simp] theorem always_pure (a : α) : Always (pure a) Q ↔ Q [] (.ok a) := Program.always_done _

/-- An error without an exchange. -/
@[simp] theorem always_throw (e : ContextError) : Always (throw e) Q ↔ Q [] (.error e) :=
  Program.always_done _

/-- One command, whatever the answer. -/
theorem always_ask (c : RmCmd) {Q : RmHistory → Except ContextError c.Answer → Prop} :
    Always (ask c) Q ↔ ∀ a, Q [⟨c, a⟩] (.ok a) := by
  refine (Program.always_call (I := rmInterface) c _).trans ?_
  exact forall_congr' fun a => (true_imp_iff).trans (Program.always_done _)

/-- A command, and what comes after it. -/
theorem always_ask_bind (c : RmCmd) {k : c.Answer → RmProgram α} :
    Always (ask c >>= k) Q ↔ ∀ a, Always (k a) fun h r => Q (⟨c, a⟩ :: h) r :=
  always_bind.trans (always_ask c)

/-- An answer of the disk, thrown if it is an error. -/
theorem always_orThrow {x : Except DiskError α} : Always (orThrow x) Q ↔
    match x with
    | .ok a => Q [] (.ok a)
    | .error e => Q [] (.error (.rm (.disk e))) := by
  cases x with
  | ok a => exact always_pure a
  | error e => exact always_throw _

/-- A weaker statement about the same histories. -/
theorem Always.mono {x : RmProgram α} {Q' : RmHistory → Except ContextError α → Prop} (h : Always x Q)
    (hQ : ∀ h r, Q h r → Q' h r) : Always x Q' := Program.Always.mono h hQ

/-- Both branches of a test. -/
theorem Always.ite {c : Prop} [Decidable c] {x y : RmProgram α} (hx : Always x Q) (hy : Always y Q) :
    Always (if c then x else y) Q := by
  split
  · exact hx
  · exact hy

/-- The pages of a history, for a program that gets one. -/
inductive Gets (h : RmHistory) : Except ContextError RmPageHandle → Prop
  /-- No page can be had. -/
  | noPage (e : ContextError) (hgot : ¬ GotPage h) (hevents : pinEvents h = []) : Gets h (.error e)
  /-- There is one, but a write to the disk fails. -/
  | lost (e : ContextError) (f : FrameId) (u : List (PinEvent FrameId)) (hgot : GotPage h)
      (hrefused : Refused h) (huses : Uses f u) (hevents : pinEvents h = .fetch f :: u) : Gets h (.error e)
  | page (page : RmPageHandle) (u : List (PinEvent FrameId)) (hgot : GotPage h) (hrefused : ¬ Refused h)
      (hmissed : ¬ Missed h) (huses : Uses page.frame u) (hevents : pinEvents h = .fetch page.frame :: u) :
      Gets h (.ok page)

/-- **`fetch_page_handle`.** -/
theorem always_fetchPageHandle {n : Int} {Q : RmHistory → Except ContextError RmPageHandle → Prop}
    (hnone : ∀ h e, ¬ GotPage h → ¬ Missed h → pinEvents h = [] → Q h (.error e))
    (hpage : ∀ h f, GotPage h → ¬ Refused h → ¬ Missed h → pinEvents h = [.fetch f] → Q h (.ok ⟨f, n⟩)) :
    Always (fetchPageHandle n) Q := by
  unfold fetchPageHandle fetchPage
  split
  · exact (always_throw _).mpr (hnone _ _ (by simp) (by simp) rfl)
  · refine always_bind.mpr (always_ask_bind _ |>.mpr fun a => always_orThrow.mpr ?_)
    rcases (a : Except DiskError (Option FrameId)) with e | _ | f
    · exact hnone _ _ (by simp [RmCmd.GetsPage]) (by simp [RmCmd.IsMissed]) rfl
    · exact (always_throw _).mpr (hnone _ _ (by simp [RmCmd.GetsPage]) (by simp [RmCmd.IsMissed]) rfl)
    · exact (always_pure _).mpr (hpage _ f (by simp [RmCmd.GetsPage]) (by simp [RmCmd.IsRefused])
        (by simp [RmCmd.IsMissed]) rfl)

/-- `fetch_page_handle` gets its page or keeps nothing. -/
theorem fetchPageHandle_gets (n : Int) : Always (fetchPageHandle n) Gets :=
  always_fetchPageHandle (fun _ e hgot _ hevents => .noPage e hgot hevents)
    fun _ f hgot hrefused hmissed hevents =>
      .page ⟨f, n⟩ [] hgot hrefused hmissed (by simp [Uses]) hevents

/-! ### Working on a page -/

/-- The program uses a page that it has and no other; it throws if something is refused, and else it
    returns a result of a certain kind. -/
def Works (f : FrameId) (x : RmProgram α) (P : α → Prop := fun _ => True) : Prop :=
  Always x fun h r => Uses f (pinEvents h) ∧ ¬ GotPage h ∧ ¬ Missed h ∧
    match r with
    | .ok a => ¬ Refused h ∧ P a
    | .error _ => Refused h

/-- A result without an exchange. -/
theorem Works.pure (f : FrameId) {P : α → Prop} {a : α} (ha : P a) : Works f (Pure.pure a) P :=
  (always_pure _).mpr ⟨by simp [Uses], by simp, by simp, by simp, ha⟩

/-- Two steps at one page. -/
theorem Works.bind {x : RmProgram α} {k : α → RmProgram β} {P : β → Prop} (hx : Works f x)
    (hk : ∀ a, Works f (k a) P) : Works f (x >>= k) P := by
  refine always_bind.mpr (hx.mono fun h r => ?_)
  rintro ⟨huses, hgot, hmissed, hrefused⟩
  cases r with
  | error e => exact ⟨huses, hgot, hmissed, hrefused⟩
  | ok a =>
    refine (hk a).mono fun h' r' => ?_
    rintro ⟨huses', hgot', hmissed', hrefused'⟩
    refine ⟨?_, by simp [hgot, hgot'], by simp [hmissed, hmissed'], ?_⟩
    · rw [pinEvents_append]
      exact fun e he => (List.mem_append.mp he).elim (huses e) (huses' e)
    · cases r' with
      | error e => exact (occurs_append _ _).mpr (Or.inr hrefused')
      | ok b => exact ⟨by simp [hrefused.1, hrefused'.1], hrefused'.2⟩

/-- One command that does no more than use the page. -/
theorem Works.ask (c : RmCmd) (hgot : ∀ a, ¬ c.GetsPage a) (hmissed : ∀ a, ¬ c.IsMissed a)
    (hrefused : ∀ a, ¬ c.IsRefused a) (hevent : ∀ a, ∀ e ∈ c.pinEvent a, e = .read f ∨ e = .write f) :
    Works f (ask c) := by
  refine (always_ask c).mpr fun a =>
    ⟨fun e he => ?_, by simp [hgot], by simp [hmissed], by simp [hrefused], trivial⟩
  obtain ⟨x, hx, hxe⟩ := List.mem_filterMap.mp he
  rw [List.mem_singleton] at hx
  subst hx
  exact hevent a e hxe

section Commands

attribute [local simp] RmCmd.pinEvent RmCmd.GetsPage RmCmd.IsRefused RmCmd.IsMissed

/-- A read of the page. -/
theorem works_read (page : RmPageHandle) : Works page.frame (RmProgram.ask (.read page)) :=
  .ask _ (fun _ => id) (fun _ => id) (fun _ => id) (by simp)

/-- A write to the page. -/
theorem works_write (page : RmPageHandle) (g : PageData → PageData) :
    Works page.frame (RmProgram.ask (.write page g)) :=
  .ask _ (fun _ => id) (fun _ => id) (fun _ => id) (by simp)

/-- The page number, which pins nothing. -/
theorem works_pageNo (page : RmPageHandle) (f : FrameId) : Works f (RmProgram.ask (.pageNo page)) :=
  .ask _ (fun _ => id) (fun _ => id) (fun _ => id) (by simp)

/-- The file header, which pins nothing. -/
theorem works_fileHdr (f : FrameId) : Works f (RmProgram.ask .fileHdr) :=
  .ask _ (fun _ => id) (fun _ => id) (fun _ => id) (by simp)

/-- A change of the file header in memory. -/
theorem works_setFileHdr (f : FrameId) (g : RmFileHdr → RmFileHdr) :
    Works f (RmProgram.ask (.setFileHdr g)) :=
  .ask _ (fun _ => id) (fun _ => id) (fun _ => id) (by simp)

/-- A lock call, granted or refused. -/
theorem works_lock (f : FrameId) (exclusive : Bool) (rid : Rid) : Works f (lock exclusive rid) := by
  refine (always_ask_bind _).mpr fun a => ?_
  rcases (a : Bool) with _ | _
  · exact (always_throw _).mpr ⟨by simp [pinEvents, Uses], by simp, by simp, by simp⟩
  · exact (always_pure _).mpr ⟨by simp [pinEvents, Uses], by simp, by simp, by simp⟩

/-- `write_page` of the file header, which may fail. -/
theorem works_writeFileHdr (f : FrameId) : Works f writeFileHdr := by
  refine (always_ask_bind _).mpr fun a => always_orThrow.mpr ?_
  rcases (a : Except DiskError Unit) with e | _
  · exact ⟨by simp [pinEvents, Uses], by simp, by simp, by simp⟩
  · exact ⟨by simp [pinEvents, Uses], by simp, by simp, by simp⟩

/-- `flush_page`, which keeps the pins. -/
theorem works_flushPage (f : FrameId) (p : PageId) : Works f (flushPage p) := by
  refine (always_ask_bind _).mpr fun a => always_orThrow.mpr ?_
  rcases (a : Except DiskError Bool) with e | _
  · exact ⟨by simp [pinEvents, Uses], by simp, by simp, by simp⟩
  · exact ⟨by simp [pinEvents, Uses], by simp, by simp, by simp⟩

end Commands

/-- The page leaves the free list. -/
theorem works_unlinkIfFull (page : RmPageHandle) : Works page.frame (unlinkIfFull page) := by
  refine (works_fileHdr _).bind fun hdr => (works_read page).bind fun x => ?_
  split
  · exact (works_setFileHdr _ _).bind fun _ => works_writeFileHdr _
  · exact .pure _ trivial

/-- The page joins the free list again. -/
theorem works_linkIfFull (page : RmPageHandle) : Works page.frame (linkIfFull page) := by
  refine (works_fileHdr _).bind fun hdr => (works_read page).bind fun x => ?_
  split
  · exact (works_fileHdr _).bind fun _ => (works_pageNo page _).bind fun _ => (works_write page _).bind
      fun _ => (works_setFileHdr _ _).bind fun _ => works_writeFileHdr _
  · exact .pure _ trivial

/-- A command without a page, a refusal or a pin. -/
theorem Gets.silent {x : rmInterface.Exchange} {h : RmHistory} {r : Except ContextError RmPageHandle}
    (hget : ¬ x.cmd.GetsPage x.answer) (hrefuse : ¬ x.cmd.IsRefused x.answer)
    (hmiss : ¬ x.cmd.IsMissed x.answer) (hevent : x.cmd.pinEvent x.answer = none) (hr : Gets h r) :
    Gets (x :: h) r := by
  have hevents : pinEvents (x :: h) = pinEvents h := List.filterMap_cons_none hevent
  cases hr with
  | noPage e hgot hnil => exact .noPage e (by simp [hget, hgot]) (hevents.trans hnil)
  | lost e f u hgot hrefused huses hu =>
    exact .lost e f u (by simp [hgot]) (by simp [hrefused]) huses (hevents.trans hu)
  | page page u hgot hrefused hmissed huses hu =>
    exact .page page u (by simp [hgot]) (by simp [hrefuse, hrefused]) (by simp [hmiss, hmissed]) huses
      (hevents.trans hu)

/-- **`create_new_page_handle`.** -/
theorem createNewPageHandle_gets : Always createNewPageHandle Gets := by
  refine always_bind.mpr ((always_ask_bind _).mpr fun a => always_orThrow.mpr ?_)
  rcases (a : Except DiskError (Option (FrameId × PageId))) with e | _ | ⟨f, p⟩
  · exact .noPage _ (by simp [RmCmd.GetsPage]) rfl
  · exact (always_throw _).mpr (.noPage _ (by simp [RmCmd.GetsPage]) rfl)
  · -- the rest works on the new page
    have hworks : Works f (do
        let hdr ← RmProgram.ask .fileHdr
        RmProgram.ask (.write ⟨f, p.pageNo⟩ (PageData.initPage hdr))
        let _ ← flushPage p
        RmProgram.ask (.setFileHdr fun h =>
          { h with numPages := h.numPages + 1, firstFreePageNo := p.pageNo })
        writeFileHdr
        return (⟨f, p.pageNo⟩ : RmPageHandle)) fun page => page.frame = f :=
      (works_fileHdr _).bind fun _ => (works_write ⟨f, p.pageNo⟩ _).bind fun _ =>
        (works_flushPage _ p).bind fun _ => (works_setFileHdr _ _).bind fun _ =>
          (works_writeFileHdr _).bind fun _ => .pure _ rfl
    refine hworks.mono fun h r => ?_
    rintro ⟨huses, -, hmissed, hr⟩
    cases r with
    | error e =>
      exact .lost e f (pinEvents h) (by simp [RmCmd.GetsPage]) (by simpa [RmCmd.IsRefused] using hr)
        huses rfl
    | ok page =>
      obtain ⟨hrefused, rfl⟩ := hr
      exact .page page (pinEvents h) (by simp [RmCmd.GetsPage]) (by simpa [RmCmd.IsRefused] using hrefused)
        (by simpa [RmCmd.IsMissed] using hmissed) huses rfl

/-- **`create_page_handle`.** -/
theorem createPageHandle_gets : Always createPageHandle Gets := by
  refine (always_ask_bind _).mpr fun hdr => ?_
  split
  · exact createNewPageHandle_gets.mono fun h r hr => hr.silent id id id rfl
  · exact (fetchPageHandle_gets _).mono fun h r hr => hr.silent id id id rfl

/-! ### Giving it back -/

/-- The program uses a page that it has and calls `unpin_page` in the end, if nothing is refused. -/
def Ends (f : FrameId) (x : RmProgram α) : Prop :=
  Always x fun h _ => (Refused h ∧ Uses f (pinEvents h)) ∨
    (¬ Refused h ∧ ∃ h₁ n o, h = h₁ ++ [⟨RmCmd.unpinPage n true, o⟩] ∧ ¬ Missed h₁ ∧ Uses f (pinEvents h₁))

/-- Work at the page and the end of its use. -/
theorem Works.bind_ends {x : RmProgram α} {k : α → RmProgram β} (hx : Works f x)
    (hk : ∀ a, Ends f (k a)) : Ends f (x >>= k) := by
  refine always_bind.mpr (hx.mono fun h r => ?_)
  rintro ⟨huses, -, hmissed, hr⟩
  have huses_append : ∀ {h'}, Uses f (pinEvents h') → Uses f (pinEvents (h ++ h')) := fun {h'} huses' => by
    rw [pinEvents_append]
    exact fun e he => (List.mem_append.mp he).elim (huses e) (huses' e)
  cases r with
  | error e => exact Or.inl ⟨hr, huses⟩
  | ok a =>
    refine (hk a).mono fun h' r' => ?_
    rintro (⟨hrefused, huses'⟩ | ⟨hrefused, h₁, n, o, rfl, hmissed', huses'⟩)
    · exact Or.inl ⟨by simp [hrefused], huses_append huses'⟩
    · refine Or.inr ⟨?_, h ++ h₁, n, o, (List.append_assoc ..).symm, by simp [hmissed, hmissed'],
        huses_append huses'⟩
      exact mt (occurs_append _ _).mp (not_or.mpr ⟨hr.1, hrefused⟩)

/-- A use ends with the unpin. -/
theorem ends_unpinPage (n : Int) (x : RmProgram α) (hx : ∃ a, x = pure a) :
    Ends f (unpinPage n true >>= fun _ => x) := by
  obtain ⟨a, rfl⟩ := hx
  refine always_bind.mpr ((always_ask_bind _).mpr fun o => (always_pure _).mpr ((always_pure a).mpr ?_))
  exact Or.inr ⟨by simp [RmCmd.IsRefused], [], n, o, rfl, by simp, by simp [Uses]⟩

/-- **A page is got, worked on and given back**: the pins are kept just if there is no page, or nothing is
    refused and `unpin_page` finds the pin. -/
theorem keepsPins_bracket {x : RmProgram RmPageHandle} {k : RmPageHandle → RmProgram β}
    (hx : Always x Gets) (hk : ∀ page, Ends page.frame (k page)) :
    Always (x >>= k) fun h _ => KeepsPins (pinEvents h) ↔ ¬ GotPage h ∨ (¬ Refused h ∧ Returned h) := by
  -- a page that is used and not unpinned
  have hleft : ∀ {f : FrameId} {u : List (PinEvent FrameId)}, Uses f u → ¬ KeepsPins (.fetch f :: u) :=
    fun huses => not_keepsPins_of_excess (by
      rw [excess_fetch, huses.excess]
      exact Int.one_pos)
  refine always_bind.mpr (hx.mono fun h r hgets => ?_)
  cases hgets with
  | noPage e hgot hevents =>
    rw [hevents]
    exact iff_of_true keepsPins_nil (Or.inl hgot)
  | lost e f u hgot hrefused huses hevents =>
    rw [hevents]
    exact iff_of_false (hleft huses) (by simp [hgot, hrefused])
  | page page u hgot hrefused hmissed huses hevents =>
    have hall : ∀ {v : List (PinEvent FrameId)}, Uses page.frame v → Uses page.frame (u ++ v) :=
      fun hv e he => (List.mem_append.mp he).elim (huses e) (hv e)
    refine (hk page).mono fun h' r' => ?_
    rintro (⟨hrefused', huses'⟩ | ⟨hrefused', h₁, n, o, rfl, hmissed', huses'⟩)
    · rw [pinEvents_append, hevents, List.cons_append]
      exact iff_of_false (hleft (hall huses')) (by simp [hgot, hrefused'])
    · have hreturns : Returns ((h ++ h₁) ++ [⟨RmCmd.unpinPage n true, o⟩]) :=
        .bracket (by rw [pinEvents_append, hevents]; rfl) (by simp [hmissed, hmissed']) (hall huses')
          (hall huses').dirtyReleased (.nil (by simp) rfl) o
      rw [← List.append_assoc, hreturns.keepsPins_iff]
      have hgot' : GotPage (h ++ h₁ ++ [⟨RmCmd.unpinPage n true, o⟩]) := by simp [hgot]
      have hno : ¬ Refused (h ++ h₁ ++ [⟨RmCmd.unpinPage n true, o⟩]) := by
        rw [List.append_assoc]
        exact mt (occurs_append _ _).mp (not_or.mpr ⟨hrefused, hrefused'⟩)
      exact ⟨fun hret => Or.inr ⟨hno, hret⟩, fun hor => (hor.resolve_left (not_not.mpr hgot')).2⟩

end RmProgram

/-! ### The operations -/

/-- A call of an operation of a record file, or of `RmScan::next` for so many rounds of its loop. -/
inductive RmCall where
  | isRecord (rid : Rid)
  | getRecord (rid : Rid)
  | insertRecord (buf : List UInt8) (lsn : Lsn)
  | insertRecordAt (rid : Rid) (buf : List UInt8)
  | deleteRecord (rid : Rid) (lsn : Lsn)
  | updateRecord (rid : Rid) (buf : List UInt8) (lsn : Lsn)
  | getPageLsn (pageNo : Int)
  | scanNext (rounds : Nat) (rid : Rid)

namespace RmCall

open RmProgram

/-- The program of a call. -/
def program : RmCall → RmProgram Unit
  | isRecord rid => do let _ ← RmProgram.isRecord rid
  | getRecord rid => do let _ ← RmProgram.getRecord rid
  | insertRecord buf lsn => do let _ ← RmProgram.insertRecord buf lsn
  | insertRecordAt rid buf => RmProgram.insertRecordAt rid buf
  | deleteRecord rid lsn => RmProgram.deleteRecord rid lsn
  | updateRecord rid buf lsn => RmProgram.updateRecord rid buf lsn
  | getPageLsn pageNo => do let _ ← RmProgram.getPageLsn pageNo
  | scanNext rounds rid => do let _ ← RmProgram.scanNext rounds rid

/-- The histories in which a call keeps the pins: `is_record`, `insert_record` at a given place and
    `update_record` if they cannot have their page; `insert_record` and `delete_record` if they cannot, or
    nothing is refused and `unpin_page` finds the pin; the others if `unpin_page` finds it. -/
def Smooth (c : RmCall) (h : RmHistory) : Prop :=
  match c with
  | isRecord _ | insertRecordAt _ _ | updateRecord _ _ _ => ¬ GotPage h
  | insertRecord _ _ | deleteRecord _ _ => ¬ GotPage h ∨ (¬ Refused h ∧ Returned h)
  | getRecord _ | getPageLsn _ | scanNext _ _ => Returned h

/-- The result of the last call does not matter. -/
theorem always_discard {α : Type} {x : RmProgram α} {Q : RmHistory → Prop}
    (h : Always x fun h _ => Q h) : Always (do let _ ← x) fun h _ => Q h := by
  refine always_bind.mpr (h.mono fun h r hQ => ?_)
  cases r with
  | error e => exact hQ
  | ok a =>
    refine (always_pure _).mpr ?_
    rwa [List.append_nil]

/-- `insert_record` asks for its lock under the pin, so a refusal leaves the pin. -/
theorem insertRecord_keepsPins (buf : List UInt8) (lsn : Lsn) : Always (RmProgram.insertRecord buf lsn)
    fun h _ => KeepsPins (pinEvents h) ↔ ¬ GotPage h ∨ (¬ Refused h ∧ Returned h) := by
  refine keepsPins_bracket createPageHandle_gets fun page => ?_
  exact (works_fileHdr _).bind_ends fun _ => (works_read page).bind_ends fun _ =>
    (works_pageNo page _).bind_ends fun _ => (works_lock _ _ _).bind_ends fun _ =>
      (works_write page _).bind_ends fun _ => (works_unlinkIfFull page).bind_ends fun _ =>
        (works_pageNo page _).bind_ends fun _ => (works_write page _).bind_ends fun _ =>
          ends_unpinPage _ _ ⟨_, rfl⟩

/-- A lock that is asked for first: without it there is no page. -/
theorem always_lock_bind {α : Type} {exclusive : Bool} {rid : Rid} {k : Unit → RmProgram α}
    {Q : Prop → Prop → Prop → List (PinEvent FrameId) → Prop} (hnone : Q False True True [])
    (hk : Always (k ()) fun h _ => Q (GotPage h) (Refused h) (Returned h) (pinEvents h)) :
    Always (lock exclusive rid >>= k) fun h _ => Q (GotPage h) (Refused h) (Returned h) (pinEvents h) := by
  refine always_bind.mpr ((always_ask_bind _).mpr fun a => ?_)
  rcases (a : Bool) with _ | _
  · refine (always_throw _).mpr ?_
    simpa [RmCmd.GetsPage, RmCmd.IsRefused, RmCmd.IsMissed, Returned, pinEvents, RmCmd.pinEvent, Covered]
      using hnone
  · refine (always_pure _).mpr (hk.mono fun h r hQ => ?_)
    simpa [RmCmd.GetsPage, RmCmd.IsRefused, RmCmd.IsMissed, Returned, pinEvents, RmCmd.pinEvent] using hQ

/-- `delete_record` asks for its lock first; under the pin only a write of the file header can fail. -/
theorem deleteRecord_keepsPins (rid : Rid) (lsn : Lsn) : Always (RmProgram.deleteRecord rid lsn)
    fun h _ => KeepsPins (pinEvents h) ↔ ¬ GotPage h ∨ (¬ Refused h ∧ Returned h) := by
  refine always_lock_bind (Q := fun got refused returned t => KeepsPins t ↔ ¬ got ∨ (¬ refused ∧ returned))
    (iff_of_true keepsPins_nil (Or.inl id)) ?_
  refine keepsPins_bracket (fetchPageHandle_gets rid.pageNo) fun page => ?_
  exact (works_linkIfFull page).bind_ends fun _ => (works_write page _).bind_ends fun _ =>
    (works_write page _).bind_ends fun _ => (works_pageNo page _).bind_ends fun _ =>
      ends_unpinPage _ (pure ()) ⟨_, rfl⟩

/-- `update_record` has no `unpin_page`, so it keeps the pins only without a page. -/
theorem updateRecord_keepsPins (rid : Rid) (buf : List UInt8) (lsn : Lsn) :
    Always (RmProgram.updateRecord rid buf lsn) fun h _ => KeepsPins (pinEvents h) ↔ ¬ GotPage h := by
  refine always_lock_bind (Q := fun got _ _ t => KeepsPins t ↔ ¬ got) (iff_of_true keepsPins_nil id) ?_
  refine always_bind.mpr (always_fetchPageHandle (fun h e hgot _ hevents => ?_)
    fun h f hgot _ _ hevents => ?_)
  · rw [hevents]
    exact iff_of_true keepsPins_nil hgot
  · refine (always_ask_bind _).mpr fun _ => (always_ask_bind _).mpr fun _ =>
      always_bind.mpr ((always_ask_bind _).mpr fun o => (always_pure _).mpr ((always_ask _).mpr fun _ => ?_))
    rw [pinEvents_append, hevents]
    refine iff_of_false (fun hkeeps => ?_) (by simp [hgot])
    rcases (o : Option FrameId) with _ | g
    · -- the pin is left
      exact absurd (show (1 : Int) = 0 from hkeeps.excess) Int.one_ne_zero
    · -- the pin is gone, and the last write is not under one
      have hown := hkeeps.pinsAfter.covered
      have hcovered := hkeeps.covered
      obtain rfl : g = f := by
        by_contra hne
        simp [pinEvents, RmCmd.pinEvent, Covered, PinEvent.apply, hne] at hown
      simp [pinEvents, RmCmd.pinEvent, Covered, PinEvent.apply] at hcovered

/-- `get_record` keeps the pins exactly when its `unpin_page` takes its own pin. -/
theorem getRecord_keepsPins (rid : Rid) : Always (RmProgram.getRecord rid)
    fun h _ => KeepsPins (pinEvents h) ↔ Returned h := by
  refine always_lock_bind (Q := fun _ _ returned t => KeepsPins t ↔ returned)
    (iff_of_true keepsPins_nil trivial) ?_
  refine always_bind.mpr (always_fetchPageHandle (fun h e _ hmissed hevents => ?_)
    fun h f _ _ hmissed hevents => ?_)
  · exact (Returns.nil hmissed hevents).keepsPins_iff
  · refine (always_ask_bind _).mpr fun hdr => (always_ask_bind _).mpr fun x =>
      always_bind.mpr ((always_ask_bind _).mpr fun o => (always_pure _).mpr ((always_pure _).mpr ?_))
    have hreturns := Returns.bracket (n := rid.pageNo) (d := true) (u := [.read f])
      (h := h ++ [⟨RmCmd.fileHdr, hdr⟩, ⟨RmCmd.read ⟨f, rid.pageNo⟩, x⟩])
      (by rw [pinEvents_append, hevents]; rfl) (by simp [hmissed, RmCmd.IsMissed]) (by simp [Uses]) trivial
      (.nil (h := []) (by simp) rfl) o
    rw [List.append_assoc] at hreturns
    exact hreturns.keepsPins_iff

/-- `get_page_lsn` keeps the pins exactly when its `unpin_page` takes its own pin. -/
theorem getPageLsn_keepsPins (n : Int) : Always (RmProgram.getPageLsn n)
    fun h _ => KeepsPins (pinEvents h) ↔ Returned h := by
  refine always_bind.mpr (always_fetchPageHandle (fun h e _ hmissed hevents => ?_)
    fun h f _ _ hmissed hevents => ?_)
  · exact (Returns.nil hmissed hevents).keepsPins_iff
  · refine (always_ask_bind _).mpr fun x =>
      always_bind.mpr ((always_ask_bind _).mpr fun o => (always_pure _).mpr ((always_pure _).mpr ?_))
    have hreturns := Returns.bracket (n := n) (d := false) (u := [.read f]) (h := h ++ [⟨RmCmd.read ⟨f, n⟩, x⟩])
      (by rw [pinEvents_append, hevents]; rfl) (by simp [hmissed, RmCmd.IsMissed]) (by simp [Uses]) trivial
      (.nil (h := []) (by simp) rfl) o
    rw [List.append_assoc] at hreturns
    exact hreturns.keepsPins_iff

/-- A round of the loop of `RmScan::next`, and what comes after it. -/
theorem returns_round {hdr : RmFileHdr} {h h' : RmHistory} {f : FrameId} {n m : Int} {x : PageData}
    (hmissed : ¬ Missed h) (hevents : pinEvents h = [.fetch f]) (hrest : Returns h') (o : Option FrameId) :
    Returns (⟨RmCmd.fileHdr, hdr⟩ :: (h ++ ⟨RmCmd.read ⟨f, n⟩, x⟩ :: ⟨RmCmd.pageNo ⟨f, n⟩, m⟩ ::
      ⟨RmCmd.unpinPage m false, o⟩ :: h')) := by
  have hround := Returns.bracket (n := m) (d := false) (f := f) (u := [.read f])
    (h := ⟨RmCmd.fileHdr, hdr⟩ :: (h ++ [⟨RmCmd.read ⟨f, n⟩, x⟩, ⟨RmCmd.pageNo ⟨f, n⟩, m⟩]))
    (show pinEvents (h ++ _) = _ by rw [pinEvents_append, hevents]; rfl)
    (by simp [hmissed, RmCmd.IsMissed]) (by simp [Uses]) trivial hrest o
  simpa using hround

/-- **`RmScan::next`** unpins a page before it goes on to the next one. -/
theorem scanNext_returns (rounds : Nat) (rid : Rid) : Always (RmProgram.scanNext rounds rid)
    fun h _ => Returns h := by
  induction rounds generalizing rid with
  | zero => exact (always_pure _).mpr (.nil (by simp) rfl)
  | succ rounds ih =>
    refine (always_ask_bind _).mpr fun hdr => ?_
    split
    · refine always_bind.mpr (always_fetchPageHandle (fun h e _ hmissed hevents => ?_)
        fun h f _ _ hmissed hevents => ?_)
      · exact .nil (by simp [hmissed, RmCmd.IsMissed]) hevents
      refine (always_ask_bind _).mpr fun x => (always_ask_bind _).mpr fun m =>
        always_bind.mpr ((always_ask_bind _).mpr fun o => (always_pure _).mpr (Always.ite ?_ ?_))
      · exact (always_pure _).mpr (returns_round hmissed hevents (.nil (h := []) (by simp) rfl) o)
      · exact (ih _).mono fun h' _ hrest => returns_round hmissed hevents hrest o
    · exact (always_pure _).mpr (.nil (by simp [RmCmd.IsMissed]) rfl)

/-- `is_record` has no `unpin_page` either. -/
theorem isRecord_keepsPins (rid : Rid) : Always (RmProgram.isRecord rid)
    fun h _ => KeepsPins (pinEvents h) ↔ ¬ GotPage h := by
  refine always_bind.mpr (always_fetchPageHandle (fun h e hgot _ hevents => ?_)
    fun h f hgot _ _ hevents => ?_)
  · rw [hevents]
    exact iff_of_true keepsPins_nil hgot
  · refine (always_ask_bind _).mpr fun _ => (always_pure _).mpr ?_
    rw [pinEvents_append, hevents]
    exact iff_of_false (not_keepsPins_of_excess Int.one_pos) (by simp [hgot])

/-- The positional insert has no `unpin_page` either. -/
theorem insertRecordAt_keepsPins (rid : Rid) (buf : List UInt8) : Always (RmProgram.insertRecordAt rid buf)
    fun h _ => KeepsPins (pinEvents h) ↔ ¬ GotPage h := by
  refine always_bind.mpr (always_fetchPageHandle (fun h e hgot _ hevents => ?_)
    fun h f hgot _ _ hevents => ?_)
  · rw [hevents]
    exact iff_of_true keepsPins_nil hgot
  -- the page is fetched twice and unpinned at most once
  refine always_bind.mpr (always_bind.mpr (always_fetchPageHandle
    (fun h' e _ _ hevents' => ?_) fun h' f' _ _ _ hevents' => ?_))
  · rw [pinEvents_append, hevents, hevents']
    exact iff_of_false (not_keepsPins_of_excess Int.one_pos) (by simp [hgot])
  · refine (always_ask_bind _).mpr fun x => (always_pure _).mpr ?_
    have hrest : Always (do
        let hdr ← RmProgram.ask .fileHdr
        RmProgram.ask (.write ⟨f, rid.pageNo⟩ fun x => PageData.setSlot hdr x rid.slotNo.toNat buf)
        unpinPage rid.pageNo true) fun h'' _ => -1 ≤ excess (pinEvents h'') := by
      refine (always_ask_bind _).mpr fun _ => (always_ask_bind _).mpr fun _ => (always_ask_bind _).mpr
        fun o => (always_pure _).mpr ?_
      rcases (o : Option FrameId) with _ | g
      · show (-1 : Int) ≤ 0
        decide
      · exact Int.le_refl _
    have hleft : ∀ {t}, -1 ≤ excess t → ¬ KeepsPins (.fetch f :: .fetch f' :: .read f' :: t) := fun ht =>
      not_keepsPins_of_excess (by
        rw [excess_fetch, excess_fetch, excess_read]
        omega)
    refine Always.ite ((always_ask_bind _).mpr fun _ => hrest.mono fun h'' _ ht => ?_)
      (hrest.mono fun h'' _ ht => ?_)
    · simp only [pinEvents_append, hevents, hevents']
      exact iff_of_false (hleft (t := .write f :: pinEvents h'') ht) (by simp [hgot])
    · simp only [pinEvents_append, hevents, hevents']
      exact iff_of_false (hleft (t := pinEvents h'') ht) (by simp [hgot])

/-- **Which operations keep the pins.**  Whatever the other threads do and the lock manager, the pool and
    the disk answer, exactly the smooth histories leave the pin counts to the others and change a page
    only under a pin that is later released as dirty. -/
theorem keepsPins_iff (c : RmCall) (h : RmHistory) (r : Except ContextError Unit)
    (hrun : c.program.run.Runs h r) : KeepsPins (pinEvents h) ↔ c.Smooth h := by
  suffices hall : Always c.program fun h _ => KeepsPins (pinEvents h) ↔ c.Smooth h from hall h r hrun
  cases c with
  | isRecord rid => exact always_discard (isRecord_keepsPins rid)
  | getRecord rid => exact always_discard (getRecord_keepsPins rid)
  | insertRecord buf lsn => exact always_discard (insertRecord_keepsPins buf lsn)
  | insertRecordAt rid buf => exact insertRecordAt_keepsPins rid buf
  | deleteRecord rid lsn => exact deleteRecord_keepsPins rid lsn
  | updateRecord rid buf lsn => exact updateRecord_keepsPins rid buf lsn
  | getPageLsn n => exact always_discard (getPageLsn_keepsPins n)
  | scanNext rounds rid =>
    exact always_discard ((scanNext_returns rounds rid).mono fun _ _ hr => hr.keepsPins_iff)

end RmCall

end Rmdb
