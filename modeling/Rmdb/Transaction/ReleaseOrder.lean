import Rmdb.Recovery.LogManager
import Rmdb.Transaction.HeldLocks
import Rmdb.Transaction.Serializability

namespace Rmdb

open Lib

/-!
# The end of a transaction: locks, then the log

`TransactionManager::commit` and `abort` run the unlock loop first and append the `COMMIT` or `ABORT`
record after it, all under `latch_`.  Other transactions may be granted the locks in between, but
none of them can be logged as ended before.

* `Wrote` and `endRecords` — what a transaction has written so far, and the `COMMIT` and `ABORT`
  records in the log file;
* `ReleasedEarly` — a transaction has written under a lock that it has released, and its record is
  not in the log;
* `released_early_under_latch` — this happens inside the unlock loop only, and no other `COMMIT` or
  `ABORT` record reaches the log before the one of this transaction.
-/

/-- `t` has changed a record, and `id` is the lock on the record or on its table. -/
def Wrote (s : TxnSystem) (t : TxnId) (id : LockDataId) : Prop :=
  ∃ a, Event.access t a ∈ s.history ∧ a.isWrite = true ∧ id ∈ a.needs.map Prod.fst

/-- The `COMMIT` and `ABORT` records in the log file, with their transactions: `commit` and `abort`
    append theirs when the unlock loop is done, in the step that the history records as the end
    of the transaction. -/
def TxnSystem.endRecords (s : TxnSystem) : List (TxnId × LogBody) :=
  s.history.filterMap fun
    | .commit t => some (t, .commit)
    | .abort t => some (t, .abort)
    | .access _ _ | .release _ => none

/-- The `COMMIT` or `ABORT` record of `t` is in the log file. -/
def TxnSystem.Logged (s : TxnSystem) (t : TxnId) : Prop :=
  (t, LogBody.commit) ∈ s.endRecords ∨ (t, LogBody.abort) ∈ s.endRecords

/-- `t` has released a lock on something it wrote, and its end is not in the log. -/
def ReleasedEarly (s : TxnSystem) (t : TxnId) (id : LockDataId) : Prop :=
  Wrote s t id ∧ t ∉ s.mgr.lockers id ∧ ¬ s.Logged t

/-- A transaction whose end is in the history. -/
theorem TxnSystem.logged_iff {s : TxnSystem} {t : TxnId} :
    s.Logged t ↔ Event.commit t ∈ s.history ∨ Event.abort t ∈ s.history := by
  unfold TxnSystem.Logged TxnSystem.endRecords
  simp only [List.mem_filterMap]
  constructor
  · rintro (⟨e, he, h⟩ | ⟨e, he, h⟩)
    · cases e <;> cases h
      exact Or.inl he
    · cases e <;> cases h
      exact Or.inr he
  · rintro (h | h)
    · exact Or.inl ⟨_, h, rfl⟩
    · exact Or.inr ⟨_, h, rfl⟩

/-! ### The kinds of steps -/

/-- The transaction may not be touched any more. -/
def Phase.isEnded : Phase → Bool
  | .ended => true
  | .running _ | .failed | .rollingBack _ | .releasing _ _ | .stuck => false

/-- The transaction may still lock and access. -/
def Phase.isGrowing : Phase → Bool
  | .running _ | .failed | .rollingBack _ => true
  | .releasing _ _ | .ended | .stuck => false

/-- In the unlock loop. -/
def Phase.isReleasing : Phase → Bool
  | .releasing _ _ => true
  | .running _ | .failed | .rollingBack _ | .ended | .stuck => false

/-- What a step does to the queues, to its transaction and to the history. -/
inductive TxnSystem.Moves (s : TxnSystem) : TxnStep → TxnSystem → Prop
  | silent {a : TxnStep} (t : TxnId) (c : Client) (latch : Option TxnId) :
      c.txn = (s.clients t).txn →
      (s.clients t).phase.isGrowing = true → c.phase.isEnded = false →
      Moves s a (s.put t c s.mgr latch [])
  | lock {a : TxnStep} (t : TxnId) (c : Client) (latch : Option TxnId) (call : LockCall) :
      c.txn = (call.run (s.clients t).txn s.mgr).2.1 →
      (s.clients t).phase.isGrowing = true → c.phase.isEnded = false →
      Moves s a (s.put t c (call.run (s.clients t).txn s.mgr).2.2 latch [])
  | access {act : TxnStep} (t : TxnId) (c : Client) (latch : Option TxnId) (a : FileAccess)
      (todo : List Action) : c.txn = (s.clients t).txn →
      (s.clients t).phase = .running (.access a :: todo) ∨
        (s.clients t).phase = .rollingBack (.access a :: todo) →
      c.phase.isEnded = false → Moves s act (s.put t c s.mgr latch [.access t a])
  | unlock (t : TxnId) (id : LockDataId) (c : Client) :
      c.txn = (Rmdb.unlock (s.clients t).txn id s.mgr).2.1 →
      (s.clients t).phase.isReleasing = true → c.phase.isReleasing = true →
      Moves s (.unlock t id)
        (s.put t c (Rmdb.unlock (s.clients t).txn id s.mgr).2.2 s.latch [.release t])
  | finish (t : TxnId) (c : Client) (latch : Option TxnId) (e : Event TxnId FileAccess) :
      (s.clients t).phase.isReleasing = true → c.phase.isEnded = true →
      e = .commit t ∨ e = .abort t → Moves s (.finish t) (s.put t c s.mgr latch [e])

/-- A growing transaction has not ended. -/
theorem Phase.not_ended_of_growing {p : Phase} (h : p.isGrowing = true) : p.isEnded = false := by
  cases p <;> simp_all [Phase.isGrowing, Phase.isEnded]

/-- Nor has one that releases its locks. -/
theorem Phase.not_ended_of_releasing {p : Phase} (h : p.isReleasing = true) :
    p.isEnded = false := by
  cases p <;> simp_all [Phase.isReleasing, Phase.isEnded]

/-- The phases are apart. -/
theorem Phase.not_releasing_of_growing {p : Phase} (h : p.isGrowing = true) :
    p.isReleasing = false := by
  cases p <;> simp_all [Phase.isGrowing, Phase.isReleasing]

/-- What an action of a running transaction changes. -/
theorem TxnSystem.runAction_moves {s : TxnSystem} {t : TxnId} {a : Action} {todo : List Action}
    (hp : (s.clients t).phase = .running (a :: todo)) :
    s.Moves (.act t) (s.runAction t todo a) := by
  have hlive : (s.clients t).phase.isGrowing = true := by
    rw [hp]
    rfl
  cases a with
  | lock call =>
    simp only [TxnSystem.runAction]
    split
    · rename_i b txn mgr hrun
      have := Moves.lock (s := s) (a := .act t) t
        { s.clients t with txn := txn, phase := .running todo } s.latch call (by rw [hrun]) hlive rfl
      rwa [hrun] at this
    · rename_i e txn mgr hrun
      have := Moves.lock (s := s) (a := .act t) t
        { s.clients t with txn := txn, phase := .failed } s.latch call (by rw [hrun]) hlive rfl
      rwa [hrun] at this
  | access a => exact .access t _ _ a todo rfl (Or.inl hp) rfl

/-- What an undone action changes. -/
theorem TxnSystem.undoAction_moves {s : TxnSystem} {t : TxnId} {a : Action} {todo : List Action}
    (hp : (s.clients t).phase = .rollingBack (a :: todo)) :
    s.Moves (.act t) (s.undoAction t todo a) := by
  have hlive : (s.clients t).phase.isGrowing = true := by
    rw [hp]
    rfl
  cases a with
  | lock call =>
    simp only [TxnSystem.undoAction]
    split
    · rename_i b txn mgr hrun
      have := Moves.lock (s := s) (a := .act t) t
        { s.clients t with txn := txn, phase := .rollingBack todo } s.latch call (by rw [hrun])
        hlive rfl
      rwa [hrun] at this
    · rename_i e txn mgr hrun
      have := Moves.lock (s := s) (a := .act t) t
        { s.clients t with txn := txn, phase := .stuck } none call (by rw [hrun]) hlive rfl
      rwa [hrun] at this
  | access a => exact .access t _ _ a todo rfl (Or.inr hp) rfl

/-- What any step changes. -/
theorem TxnSystem.step_moves {s s' : TxnSystem} {a : TxnStep} (h : s.step a = some s') :
    s.Moves a s' := by
  cases a with
  | statement t stmt =>
    simp only [TxnSystem.step] at h
    split at h
    · rename_i hp
      cases h
      exact .silent t _ _ rfl (by rw [hp]; rfl) rfl
    · cases h
  | act t =>
    -- only these may touch a file or take a lock
    simp only [TxnSystem.step] at h
    split at h
    · cases h
      exact runAction_moves (by assumption)
    · cases h
      exact undoAction_moves (by assumption)
    · cases h
  | error t =>
    -- the steps up to the latch change the client only
    simp only [TxnSystem.step] at h
    split at h
    · rename_i hp
      cases h
      exact .silent t _ _ rfl (by rw [hp]; rfl) rfl
    · cases h
  | commit t =>
    simp only [TxnSystem.step] at h
    split at h
    · rename_i hp _
      cases h
      exact .silent t _ _ rfl (by rw [hp]; rfl) rfl
    · cases h
  | abort t =>
    simp only [TxnSystem.step] at h
    split at h
    · rename_i hp _
      cases h
      exact .silent t _ _ rfl (by rw [hp]; rfl) rfl
    · rename_i hp _
      cases h
      exact .silent t _ _ rfl (by rw [hp]; rfl) rfl
    · cases h
  | undo t newRid =>
    simp only [TxnSystem.step] at h
    split at h
    · rename_i hp _
      cases h
      exact .silent t _ _ rfl (by rw [hp]; rfl) rfl
    · cases h
  | rolledBack t =>
    simp only [TxnSystem.step] at h
    split at h
    · rename_i hp _
      cases h
      exact .silent t _ _ rfl (by rw [hp]; rfl) rfl
    · cases h
  | unlock t id =>
    -- only this releases a lock
    simp only [TxnSystem.step] at h
    split at h
    · rename_i hp
      split at h
      · cases h
        exact .unlock t id _ rfl (by rw [hp]; rfl) rfl
      · cases h
    · cases h
  | finish t =>
    -- only this puts an end into the history
    simp only [TxnSystem.step] at h
    split at h
    · rename_i commits hp
      split at h
      · cases h
        refine .finish t _ _ _ (by rw [hp]; rfl) rfl ?_
        cases commits
        · exact Or.inr rfl
        · exact Or.inl rfl
      · cases h
    · cases h

/-! ### Ends -/

/-- A transaction whose state is final, or whose record is in the log, is out of its unlock loop. -/
def TxnSystem.EndsLast (s : TxnSystem) : Prop :=
  ∀ t, (s.clients t).txn.finished = true ∨ s.Logged t → (s.clients t).phase.isEnded = true

/-- A transaction before its last phase has neither a final state nor a record. -/
theorem TxnSystem.EndsLast.live {s : TxnSystem} (h : s.EndsLast) {t : TxnId}
    (hp : (s.clients t).phase.isEnded = false) :
    (s.clients t).txn.finished = false ∧ ¬ s.Logged t := by
  have hno : ¬ ((s.clients t).txn.finished = true ∨ s.Logged t) := fun hc => by
    rw [h t hc] at hp
    cases hp
  rw [not_or, Bool.not_eq_true] at hno
  exact hno

/-- An end is in the history or new. -/
theorem TxnSystem.put_logged {s : TxnSystem} {t t' : TxnId} {c : Client} {mgr : LockManager}
    {latch : Option TxnId} {evs : History TxnId FileAccess} :
    (s.put t c mgr latch evs).Logged t' ↔
      s.Logged t' ∨ Event.commit t' ∈ evs ∨ Event.abort t' ∈ evs := by
  rw [TxnSystem.logged_iff, TxnSystem.logged_iff]
  simp only [TxnSystem.put, List.mem_append]
  tauto

/-- The step rule: the transaction that moves is not in its last phase, or gets there. -/
theorem TxnSystem.EndsLast.put {s : TxnSystem} (h : s.EndsLast) {t : TxnId} {c : Client}
    {mgr : LockManager} {latch : Option TxnId} {evs : History TxnId FileAccess}
    (hev : ∀ t', t' ≠ t → Event.commit t' ∉ evs ∧ Event.abort t' ∉ evs)
    (hc : c.txn.finished = true ∨ (s.put t c mgr latch evs).Logged t → c.phase.isEnded = true) :
    (s.put t c mgr latch evs).EndsLast := by
  intro t' ht'
  by_cases ht : t' = t
  · subst ht
    simp only [TxnSystem.put, if_true] at ht' ⊢
    exact hc ht'
  · rw [TxnSystem.put_logged] at ht'
    simp only [TxnSystem.put, if_neg ht] at ht' ⊢
    refine h t' (ht'.imp_right fun hl => hl.resolve_right ?_)
    rintro (hl | hl)
    · exact (hev t' ht).1 hl
    · exact (hev t' ht).2 hl

/-- Every step keeps ends last. -/
theorem TxnSystem.EndsLast.step {s s' : TxnSystem} (h : s.EndsLast) {a : TxnStep}
    (hs : s.step a = some s') : s'.EndsLast := by
  cases TxnSystem.step_moves hs with
  | silent t c latch htxn hp hp' =>
    obtain ⟨hfin, hlog⟩ := h.live (Phase.not_ended_of_growing hp)
    refine h.put (by simp) fun hc => ?_
    rw [TxnSystem.put_logged, htxn] at hc
    simp [hfin, hlog] at hc
  | lock t c latch call htxn hp hp' =>
    obtain ⟨hfin, hlog⟩ := h.live (Phase.not_ended_of_growing hp)
    refine h.put (by simp) fun hc => ?_
    rw [TxnSystem.put_logged, htxn, (call.run_active s.mgr hfin).1] at hc
    simp [hlog] at hc
  | access t c latch a todo htxn hp hp' =>
    have hp : (s.clients t).phase.isEnded = false := by
      rcases hp with hp | hp <;> rw [hp] <;> rfl
    obtain ⟨hfin, hlog⟩ := h.live hp
    refine h.put (by simp) fun hc => ?_
    rw [TxnSystem.put_logged, htxn] at hc
    simp [hfin, hlog] at hc
  | unlock t id c htxn hp hp' =>
    obtain ⟨hfin, hlog⟩ := h.live (Phase.not_ended_of_releasing hp)
    refine h.put (by simp) fun hc => ?_
    rw [TxnSystem.put_logged, htxn, (unlock_txn _ _ _).2.2.2.2] at hc
    simp [hfin, hlog] at hc
  | finish t c latch e hp hp' he =>
    refine h.put (fun t' ht => ?_) fun _ => hp'
    rcases he with rfl | rfl <;> simp [ht]

/-- In every state reached a transaction with a final state is out of its unlock loop. -/
theorem TxnSystem.endsLast {s : TxnSystem} (h : txnSystem.Reachable s) : s.EndsLast := by
  refine h.invariant (fun s hi => ?_) fun s a s' hs hstep => hs.step hstep
  cases hi
  intro t ht
  rw [TxnSystem.logged_iff] at ht
  simp [TxnSystem.start, Transaction.new, Transaction.finished] at ht

/-! ### Releases -/

/-- Who holds a lock waits in its queue. -/
theorem Held.mem_lockers {m : LockManager} {t : TxnId} {p : LockDataId × LockMode}
    (h : Held m t p) : t ∈ m.lockers p.1 := by
  obtain ⟨own, hown, -⟩ := h
  by_contra hno
  have hnone : (((m.lockTable p.1).getD .empty).requestQueue.find?
      (fun req => t = req.txnId)) = none := by
    rw [List.find?_eq_none]
    intro r hr he
    have : t = r.txnId := by simpa using he
    exact hno (this ▸ List.mem_map_of_mem hr)
  rw [LockManager.heldMode, LockRequestQueue.modeOf, hnone] at hown
  cases hown

/-- The locks of an access are held when it is made. -/
theorem TxnSystem.Inv.access_held {s : TxnSystem} (h : s.Inv) {t : TxnId} {a : FileAccess}
    {todo : List Action} (hp : (s.clients t).phase = .running (.access a :: todo) ∨
      (s.clients t).phase = .rollingBack (.access a :: todo)) {id : LockDataId}
    (hid : id ∈ a.needs.map Prod.fst) : t ∈ s.mgr.lockers id := by
  obtain ⟨p, hp', rfl⟩ := List.mem_map.mp hid
  have hphase := h.client t
  unfold PhaseInv at hphase
  refine Held.mem_lockers ?_
  rcases hp with hp | hp
  · rw [hp] at hphase
    exact hphase.2.1 p hp'
  · rw [hp] at hphase
    exact hphase.2.2.1 p hp'

@[simp] theorem TxnSystem.put_mgr (s : TxnSystem) (t : TxnId) (c : Client) (mgr : LockManager)
    (latch : Option TxnId) (evs : History TxnId FileAccess) :
    (s.put t c mgr latch evs).mgr = mgr := rfl

/-- A write is in the history or new. -/
theorem TxnSystem.put_wrote {s : TxnSystem} {t t' : TxnId} {c : Client} {mgr : LockManager}
    {latch : Option TxnId} {evs : History TxnId FileAccess} {id : LockDataId} :
    Wrote (s.put t c mgr latch evs) t' id ↔ Wrote s t' id ∨
      ∃ a, Event.access t' a ∈ evs ∧ a.isWrite = true ∧ id ∈ a.needs.map Prod.fst := by
  simp only [Wrote, TxnSystem.put, List.mem_append]
  constructor
  · rintro ⟨a, ha | ha, hw⟩
    · exact Or.inl ⟨a, ha, hw⟩
    · exact Or.inr ⟨a, ha, hw⟩
  · rintro (⟨a, ha, hw⟩ | ⟨a, ha, hw⟩)
    · exact ⟨a, Or.inl ha, hw⟩
    · exact ⟨a, Or.inr ha, hw⟩

/-- Outside the unlock loop a transaction holds a lock on everything it has written, until its end
    is in the log. -/
def TxnSystem.Guarded (s : TxnSystem) : Prop :=
  ∀ t id, Wrote s t id →
    t ∈ s.mgr.lockers id ∨ (s.clients t).phase.isReleasing = true ∨ s.Logged t

/-- The step rule, for the transaction that moves and for the others. -/
theorem TxnSystem.Guarded.put {s : TxnSystem} (h : s.Guarded) {t : TxnId} {c : Client}
    {mgr : LockManager} {latch : Option TxnId} {evs : History TxnId FileAccess}
    (hmgr : ∀ t' id, t' ≠ t → t' ∈ s.mgr.lockers id → t' ∈ mgr.lockers id)
    (hev : ∀ t' a, t' ≠ t → Event.access t' a ∉ evs)
    (hown : ∀ id, Wrote (s.put t c mgr latch evs) t id →
      t ∈ mgr.lockers id ∨ c.phase.isReleasing = true ∨ (s.put t c mgr latch evs).Logged t) :
    (s.put t c mgr latch evs).Guarded := by
  intro t' id hw
  by_cases ht : t' = t
  · subst ht
    simpa only [TxnSystem.put, if_true] using hown id hw
  · rw [TxnSystem.put_wrote] at hw
    have hw : Wrote s t' id := by
      refine hw.resolve_right ?_
      rintro ⟨a, ha, -⟩
      exact hev t' a ht ha
    rcases h t' id hw with hl | hp | hlog
    · exact Or.inl (hmgr t' id ht hl)
    · refine Or.inr (Or.inl ?_)
      simpa only [TxnSystem.put, if_neg ht] using hp
    · exact Or.inr (Or.inr (TxnSystem.put_logged.mpr (Or.inl hlog)))

/-- Every step keeps the locks on what is written. -/
theorem TxnSystem.Guarded.step {s s' : TxnSystem} (h : s.Guarded) (hinv : s.Inv)
    (hends : s.EndsLast) {a : TxnStep} (hs : s.step a = some s') : s'.Guarded := by
  -- what a growing transaction has written is locked
  have hgrowing : ∀ t id, (s.clients t).phase.isGrowing = true → Wrote s t id →
      t ∈ s.mgr.lockers id := by
    intro t id hp hw
    refine (h t id hw).resolve_right ?_
    rintro (hr | hl)
    · rw [Phase.not_releasing_of_growing hp] at hr
      cases hr
    · exact (hends.live (Phase.not_ended_of_growing hp)).2 hl
  cases TxnSystem.step_moves hs with
  | silent t c latch htxn hp hp' =>
    refine h.put (fun _ _ _ hl => hl) (by simp) fun id hw => Or.inl (hgrowing t id hp ?_)
    simpa [TxnSystem.put_wrote] using hw
  | lock t c latch call htxn hp hp' =>
    have hid := hinv.txnId t
    refine h.put (fun t' id ht hl => ?_) (by simp) fun id hw => Or.inl ?_
    · rwa [call.run_lockers_other s.mgr (hid.symm ▸ ht)]
    · have hbefore : t ∈ s.mgr.lockers id := by
        refine hgrowing t id hp ?_
        simpa [TxnSystem.put_wrote] using hw
      rcases call.run_lockers (s.clients t).txn s.mgr with ⟨hl, -⟩ | ⟨hl, hl', -⟩
      · rw [hl]
        exact hbefore
      · by_cases hid' : id = call.id
        · rw [hid', hl]
          exact List.mem_append_left _ (hid' ▸ hbefore)
        · rw [hl' id hid']
          exact hbefore
  | access t c latch a todo htxn hp hp' =>
    refine h.put (fun _ _ _ hl => hl) (fun t' a' ht ha => ?_) fun id hw => Or.inl ?_
    · cases List.mem_singleton.mp ha
      exact ht rfl
    · rw [TxnSystem.put_wrote] at hw
      rcases hw with hw | ⟨a', ha', -, hid⟩
      · have hp : (s.clients t).phase.isGrowing = true := by
          rcases hp with hp | hp <;> rw [hp] <;> rfl
        exact hgrowing t id hp hw
      · -- the write just made was made under its locks
        cases List.mem_singleton.mp ha'
        exact hinv.access_held hp hid
  | unlock t id c htxn hp hp' =>
    have hfin := (hends.live (Phase.not_ended_of_releasing hp)).1
    refine h.put (fun t' id' ht hl => ?_) (by simp) fun _ _ => Or.inr (Or.inl hp')
    rw [unlock_lockers hfin id hinv.mgr, hinv.txnId]
    exact ⟨hl, fun he => ht he.1⟩
  | finish t c latch e hp hp' he =>
    refine h.put (fun _ _ _ hl => hl) (fun t' a _ ha => ?_) fun _ _ => Or.inr (Or.inr ?_)
    · rcases he with rfl | rfl <;> simp at ha
    · rw [TxnSystem.put_logged]
      rcases he with rfl | rfl <;> simp

/-- What a transaction has written is locked until its end. -/
theorem TxnSystem.guarded {s : TxnSystem} (h : txnSystem.Reachable s) : s.Guarded := by
  have key : txnSystem.Reachable s ∧ s.Guarded := by
    refine TransitionSystem.Reachable.invariant
      (I := fun s => txnSystem.Reachable s ∧ s.Guarded) (fun s hi => ?_) (fun s a s' hs hstep => ?_) h
    · cases hi
      refine ⟨.init rfl, ?_⟩
      rintro t id ⟨a, ha, -⟩
      cases ha
    · exact ⟨.step hs.1 hstep, hs.2.step (txnSystem_inv hs.1) (TxnSystem.endsLast hs.1) hstep⟩
  exact key.2

/-! ### Nobody else ends in between -/

/-- A transaction in its unlock loop has the latch. -/
theorem TxnSystem.Inv.latch_of_releasing {s : TxnSystem} (h : s.Inv) {t : TxnId}
    (hp : (s.clients t).phase.isReleasing = true) : s.latch = some t := by
  have hc := h.client t
  unfold PhaseInv at hc
  cases hphase : (s.clients t).phase with
  | releasing left commits =>
    rw [hphase] at hc
    exact hc.1
  | _ =>
    rw [hphase] at hp
    cases hp

/-- One step, while a transaction is in its unlock loop: it stays there and nothing is added to the
    log, or its own record is. -/
theorem TxnSystem.releasing_step {s s' : TxnSystem} (hinv : s.Inv) {t : TxnId}
    (hp : (s.clients t).phase.isReleasing = true) {a : TxnStep} (hs : s.step a = some s') :
    s'.Logged t ∨ ((s'.clients t).phase.isReleasing = true ∧ s'.endRecords = s.endRecords) := by
  -- a step that logs no end and leaves the client alone, or in its loop
  have hstay : ∀ (t' : TxnId) (c : Client) (mgr : LockManager) (latch : Option TxnId)
      (evs : History TxnId FileAccess), (t = t' → c.phase.isReleasing = true) →
      (∀ e ∈ evs, ∃ a, e = .access t' a ∨ e = .release t') →
      ((s.put t' c mgr latch evs).clients t).phase.isReleasing = true ∧
        (s.put t' c mgr latch evs).endRecords = s.endRecords := by
    intro t' c mgr latch evs hc hev
    constructor
    · by_cases ht : t = t'
      · simpa only [TxnSystem.put, if_pos ht] using hc ht
      · simpa only [TxnSystem.put, if_neg ht] using hp
    · simp only [TxnSystem.endRecords, TxnSystem.put, List.filterMap_append]
      rw [List.append_right_eq_self, List.filterMap_eq_nil_iff]
      intro e he
      obtain ⟨a, rfl | rfl⟩ := hev e he
      · rfl
      · rfl
  have hother : ∀ t', (s.clients t').phase.isGrowing = true → t ≠ t' := by
    rintro t' hg rfl
    rw [Phase.not_releasing_of_growing hg] at hp
    cases hp
  cases TxnSystem.step_moves hs with
  | silent t' c latch htxn hg _ =>
    exact Or.inr (hstay t' c _ latch [] (fun he => absurd he (hother t' hg)) (by simp))
  | lock t' c latch call htxn hg _ =>
    exact Or.inr (hstay t' c _ latch [] (fun he => absurd he (hother t' hg)) (by simp))
  | access t' c latch a todo htxn hg _ =>
    have hg : (s.clients t').phase.isGrowing = true := by
      rcases hg with hg | hg <;> rw [hg] <;> rfl
    exact Or.inr (hstay t' c _ latch _ (fun he => absurd he (hother t' hg))
      (fun e he => ⟨a, Or.inl (List.mem_singleton.mp he)⟩))
  | unlock t' id c htxn hg hg' =>
    exact Or.inr (hstay t' c _ _ _ (fun _ => hg')
      (fun e he => ⟨.scan 0, Or.inr (List.mem_singleton.mp he)⟩))
  | finish t' c latch e hg hg' he =>
    -- only the holder of the latch can get here
    have hlatch := hinv.latch_of_releasing hp
    rw [hinv.latch_of_releasing hg] at hlatch
    cases hlatch
    refine Or.inl (TxnSystem.put_logged.mpr (Or.inr ?_))
    rcases he with rfl | rfl <;> simp

/-- An end stays in the history. -/
theorem TxnSystem.Logged.step {s s' : TxnSystem} {t : TxnId} (h : s.Logged t) {a : TxnStep}
    (hs : s.step a = some s') : s'.Logged t := by
  cases TxnSystem.step_moves hs <;> exact TxnSystem.put_logged.mpr (Or.inl h)

/-- **Early releases stay under the latch.** In every reachable state in which a transaction has
    released a lock on something it wrote before its `COMMIT` or `ABORT` record is in the log, the
    transaction is in the unlock loop of `commit` or `abort` and holds `latch_`; and however the
    system goes on, no `COMMIT` or `ABORT` record of any transaction is added to the log before
    its own. -/
theorem released_early_under_latch {s : TxnSystem} (h : txnSystem.Reachable s) {t : TxnId}
    {id : LockDataId} (hr : ReleasedEarly s t id) :
    (∃ left commits, (s.clients t).phase = .releasing left commits) ∧ s.latch = some t ∧
    ∀ as s', txnSystem.Run s as s' → ¬ s'.Logged t → s'.endRecords = s.endRecords := by
  obtain ⟨hw, hfree, hlog⟩ := hr
  have hp : (s.clients t).phase.isReleasing = true := by
    rcases TxnSystem.guarded h t id hw with hl | hp | hl
    · exact absurd hl hfree
    · exact hp
    · exact absurd hl hlog
  refine ⟨?_, (txnSystem_inv h).latch_of_releasing hp, fun as s' hrun => ?_⟩
  · cases hphase : (s.clients t).phase with
    | releasing left commits => exact ⟨left, commits, rfl⟩
    | _ =>
      rw [hphase] at hp
      cases hp
  · have key : txnSystem.Reachable s' ∧ (s'.Logged t ∨
        ((s'.clients t).phase.isReleasing = true ∧ s'.endRecords = s.endRecords)) := by
      induction hrun with
      | nil => exact ⟨h, Or.inr ⟨hp, rfl⟩⟩
      | snoc _ hstep ih =>
        obtain ⟨hreach, hcase⟩ := ih
        refine ⟨.step hreach hstep, ?_⟩
        rcases hcase with hl | ⟨hp', hrec⟩
        · exact Or.inl (hl.step hstep)
        · exact (TxnSystem.releasing_step (txnSystem_inv hreach) hp' hstep).imp_right
            (And.imp_right fun he => he.trans hrec)
    exact fun hno => (key.2.resolve_left hno).2

/-- Transaction 0 inserts a record, calls `commit` and has unlocked the record. -/
def insertUnlocked : List TxnStep :=
  [.statement 0 (.insert 3 ⟨1, 0⟩), .act 0, .act 0, .act 0, .commit 0,
    .unlock 0 (.ofRecord 3 ⟨1, 0⟩)]

/-- What has happened in `insertUnlocked`. -/
theorem insertUnlocked_run : ∃ s, insertUnlocked.foldlM TxnSystem.step TxnSystem.start = some s ∧
    txnSystem.Reachable s ∧ ReleasedEarly s 0 (.ofRecord 3 ⟨1, 0⟩) ∧ s.endRecords = [] ∧
    (lockSharedOnRecord (s.clients 1).txn ⟨1, 0⟩ 3 s.mgr).1 = .ok true := by
  have hrun : (insertUnlocked.foldlM TxnSystem.step TxnSystem.start).map
        (fun s => (s.history, s.mgr.lockers (.ofRecord 3 ⟨1, 0⟩), s.endRecords,
          (lockSharedOnRecord (s.clients 1).txn ⟨1, 0⟩ 3 s.mgr).1.toOption)) =
      some ([.access 0 (.insertRecord 3 ⟨1, 0⟩), .release 0], [], [], some true) := rfl
  obtain ⟨s, hs, heq⟩ := Option.map_eq_some_iff.mp hrun
  simp only [Prod.mk.injEq] at heq
  obtain ⟨hhist, hlockers, hrecords, hgrant⟩ := heq
  refine ⟨s, hs, TransitionSystem.Reachable.foldlM (fun _ _ _ h => h) (.init rfl) hs, ?_, hrecords,
    ?_⟩
  · refine ⟨⟨.insertRecord 3 ⟨1, 0⟩, by rw [hhist]; exact List.mem_cons_self, rfl, by decide⟩, ?_, ?_⟩
    · rw [hlockers]
      exact List.not_mem_nil
    · simp [TxnSystem.Logged, hrecords]
  · cases hr : (lockSharedOnRecord (s.clients 1).txn ⟨1, 0⟩ 3 s.mgr).1 with
    | error e =>
      rw [hr] at hgrant
      cases hgrant
    | ok b =>
      rw [hr] at hgrant
      cases hgrant
      rfl

/-- In `insertUnlocked` transaction 0 has the latch. -/
theorem released_early_under_latch_insert :
    ∃ s, insertUnlocked.foldlM TxnSystem.step TxnSystem.start = some s ∧ s.latch = some 0 := by
  obtain ⟨s, hs, hreach, hearly, -, -⟩ := insertUnlocked_run
  exact ⟨s, hs, (released_early_under_latch hreach hearly).2.1⟩

/-- **A lock is free before its transaction is in the log.** After `insertUnlocked` the record that
    transaction 0 has inserted is unlocked, transaction 1 is granted a lock on it, and the log has
    no record of the end of transaction 0. -/
theorem insert_unlocked_before_commit_record :
    ∃ s, txnSystem.Reachable s ∧ ReleasedEarly s 0 (.ofRecord 3 ⟨1, 0⟩) ∧ s.endRecords = [] ∧
      (lockSharedOnRecord (s.clients 1).txn ⟨1, 0⟩ 3 s.mgr).1 = .ok true := by
  obtain ⟨s, -, hrest⟩ := insertUnlocked_run
  exact ⟨s, hrest⟩

end Rmdb
