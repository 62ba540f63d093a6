import Rmdb.Server.Sessions

namespace Rmdb

open Lib

/-!
# The locks a session leaves behind

`client_handler` leaves its loop without a look at the transaction: at `read`, where an explicit
transaction may be open, and at `write`, before the commit at the end of the loop.

* `LocksInv` — a transaction that has ended has no request in any queue; one that goes on has its
  requests exactly where its lock set, or what the unlock loop has left of it, says;
* `session_end_releases_locks_iff` — a session that ends leaves no request behind, now or later,
  exactly if its transaction has ended or holds no lock;
* `exit_leaves_lock` — a client that leaves inside a transaction.
-/

/-! ### One thread -/

/-- Where the requests of a transaction are. -/
def LocksAt (lockMgr : LockManager) (txn : Transaction) : Pc → Prop
  | .releasing _ _ left => ∀ id, txn.txnId ∈ lockMgr.lockers id ↔ id ∈ left
  | .reading | .executing _ | .ending _ _ | .rollingBack _ _ | .replying | .closed =>
    LocksOwned lockMgr txn

/-- **The invariant of a thread.** -/
structure LocksInv (lockMgr : LockManager) (txn : Transaction) (pc : Pc) : Prop where
  ended : txn.finished = true → ∀ id, txn.txnId ∉ lockMgr.lockers id
  active : txn.finished = false → LocksAt lockMgr txn pc

/-- What a step of a thread may change for the queues. -/
structure LocksStep (th th' : Thread) : Prop where
  mgr : th'.lockMgr.Inv
  inv : LocksInv th'.lockMgr th'.txn th'.pc
  others : ∀ t, t ≠ th.txn.txnId → ∀ id, t ∈ th'.lockMgr.lockers id ↔ t ∈ th.lockMgr.lockers id

/-- The lock set belongs to the transaction outside the unlock loop. -/
def Pc.keepsLocks : Pc → Bool
  | .releasing _ _ _ => false
  | .reading | .executing _ | .ending _ _ | .rollingBack _ _ | .replying | .closed => true

theorem locksAt_of_keeps {lockMgr : LockManager} {txn : Transaction} {pc : Pc}
    (h : pc.keepsLocks = true) : LocksAt lockMgr txn pc ↔ LocksOwned lockMgr txn := by
  cases pc with
  | releasing commits caller left => cases h
  | _ => exact Iff.rfl

/-- Neither the queues nor the lock set change. -/
theorem LocksInv.stay {th th' : Thread} (hmgr : th.lockMgr.Inv)
    (h : LocksInv th.lockMgr th.txn th.pc) (hpc : th.pc.keepsLocks = true)
    (hlocks : th'.lockMgr = th.lockMgr) (hid : th'.txn.txnId = th.txn.txnId)
    (hset : th'.txn.lockSet = th.txn.lockSet) (hst : th'.txn.state = th.txn.state)
    (hpc' : th'.pc.keepsLocks = true) : LocksStep th th' := by
  have hfin : th'.txn.finished = th.txn.finished := by
    rw [Transaction.finished, Transaction.finished, hst]
  refine ⟨hlocks ▸ hmgr, ⟨fun hf => ?_, fun hf => ?_⟩, fun t _ id => by rw [hlocks]⟩
  · rw [hlocks, hid]
    exact h.ended (hfin ▸ hf)
  · rw [locksAt_of_keeps hpc', LocksOwned, hlocks, hid, hset]
    exact (locksAt_of_keeps hpc).mp (h.active (hfin ▸ hf))

/-- A lock call, in a statement or in the rollback. -/
theorem LocksInv.lock {th th' : Thread} (hmgr : th.lockMgr.Inv)
    (h : LocksInv th.lockMgr th.txn th.pc) (hpc : th.pc.keepsLocks = true) (c : LockCall)
    (htxn : th'.txn = (c.run th.txn th.lockMgr).2.1)
    (hlocks : th'.lockMgr = (c.run th.txn th.lockMgr).2.2)
    (hpc' : th'.pc.keepsLocks = true) : LocksStep th th' := by
  refine ⟨hlocks ▸ c.run_inv hmgr th.txn, ⟨fun hf => ?_, fun hf => ?_⟩,
    fun t ht id => by rw [hlocks]; exact c.run_lockers_other th.lockMgr ht id⟩
  · -- a transaction that has ended had ended before the call
    cases hfin : th.txn.finished with
    | true =>
      rw [htxn, hlocks, c.run_finished th.lockMgr hfin]
      exact h.ended hfin
    | false =>
      rw [htxn, (c.run_active th.lockMgr hfin).1] at hf
      cases hf
  · rw [locksAt_of_keeps hpc', htxn, hlocks]
    cases hfin : th.txn.finished with
    | true =>
      rw [htxn, c.run_finished th.lockMgr hfin, hfin] at hf
      cases hf
    | false => exact c.run_owned ((locksAt_of_keeps hpc).mp (h.active hfin))

/-- **One step.** -/
theorem Thread.Moves.locks {i : ℕ} {th th' : Thread} {a : ThreadStep} (hm : Thread.Moves i th a th')
    (hmgr : th.lockMgr.Inv) (h : LocksInv th.lockMgr th.txn th.pc) : LocksStep th th' := by
  cases hm with
  | done hpc => exact h.stay hmgr (by rw [hpc]; rfl) rfl rfl rfl rfl rfl
  | error hpc => exact h.stay hmgr (by rw [hpc]; rfl) rfl rfl rfl rfl rfl
  | @exec a todo hpc =>
    cases a with
    | lock c =>
      obtain ⟨htxn, hlocks, -, hnext⟩ := th.exec_lock todo c
      refine h.lock hmgr (by rw [hpc]; rfl) c htxn hlocks ?_
      rcases hnext with hnext | ⟨-, hnext⟩ <;> rw [hnext] <;> rfl
    | log change => exact h.stay hmgr (by rw [hpc]; rfl) rfl rfl rfl rfl rfl
    | write w => exact h.stay hmgr (by rw [hpc]; rfl) rfl rfl rfl rfl rfl
  | @undoLock caller c todo hpc =>
    obtain ⟨htxn, hlocks, -, hnext⟩ := th.undoLock_eq caller todo c
    refine h.lock hmgr (by rw [hpc]; rfl) c htxn hlocks ?_
    rcases hnext with hnext | ⟨-, hnext⟩ | hnext <;> rw [hnext] <;> (try rw [hpc]) <;> rfl
  | @leave caller todo hpc =>
    obtain ⟨htxn, hlocks, -, hnext⟩ := th.leaveRollback_eq caller
    refine h.stay hmgr (by rw [hpc]; rfl) hlocks (by rw [htxn]) (by rw [htxn]) (by rw [htxn]) ?_
    rcases hnext with ⟨-, hnext⟩ | hnext <;> rw [hnext] <;> (try rw [hpc]) <;> rfl
  | undone hpc => exact h.stay hmgr (by rw [hpc]; rfl) rfl rfl rfl rfl rfl
  | commit hpc _ =>
    -- the unlock loop starts with the whole lock set
    rw [hpc] at h
    exact ⟨hmgr, ⟨h.ended, h.active⟩, fun _ _ _ => Iff.rfl⟩
  | abort hpc _ => exact h.stay hmgr (by rw [hpc]; rfl) rfl rfl rfl rfl rfl
  | undo hpc _ => exact h.stay hmgr (by rw [hpc]; rfl) rfl rfl rfl rfl rfl
  | rolledBack hpc _ =>
    rw [hpc] at h
    exact ⟨hmgr, ⟨h.ended, h.active⟩, fun _ _ _ => Iff.rfl⟩
  | @unlock commits caller left id hpc hmem =>
    rw [hpc] at h
    obtain ⟨hid, -, -, -, hfin⟩ := unlock_txn th.txn id th.lockMgr
    cases hf : th.txn.finished with
    | true =>
      -- the transaction has ended before: nothing is released
      simp only [unlock_finished hf]
      refine ⟨hmgr, ⟨fun _ => h.ended hf, fun hf' => ?_⟩, fun _ _ _ => Iff.rfl⟩
      rw [hf] at hf'
      cases hf'
    | false =>
      have hl := unlock_lockers hf id hmgr
      refine ⟨unlock_inv hmgr th.txn id, ⟨fun hf' => ?_, fun _ id' => ?_⟩, fun t ht id' => ?_⟩
      · rw [hfin, hf] at hf'
        cases hf'
      · rw [hid, hl, h.active hf id', Finset.mem_erase]
        tauto
      · rw [hl]
        tauto
  | @finish commits caller hpc =>
    rw [hpc] at h
    have hno : ∀ id, th.txn.txnId ∉ th.lockMgr.lockers id := by
      cases hf : th.txn.finished with
      | true => exact h.ended hf
      | false =>
        intro id hmem
        exact absurd ((h.active hf id).mp hmem) (Finset.notMem_empty id)
    have hend : (th.finish commits caller).txn.finished = true := by
      cases commits <;> simp [Thread.finish, Transaction.finished]
    have hid : (th.finish commits caller).txn.txnId = th.txn.txnId := by
      cases commits <;> rfl
    refine ⟨hmgr, ⟨fun _ => hid ▸ hno, fun hf => ?_⟩, fun _ _ _ => Iff.rfl⟩
    rw [hend] at hf
    cases hf
  | fail hpc => exact h.stay hmgr (by rw [hpc]; rfl) rfl rfl rfl rfl rfl
  | autocommit hpc _ => exact h.stay hmgr (by rw [hpc]; rfl) rfl rfl rfl rfl rfl
  | next hpc _ => exact h.stay hmgr (by rw [hpc]; rfl) rfl rfl rfl rfl rfl

/-! ### All sessions -/

/-- **The invariant.** -/
structure Server.Locks (s : Server) : Prop where
  wf : s.Wf
  mgr : s.lockMgr.Inv
  /-- Nobody waits who has not begun. -/
  unknown : ∀ t, s.txnMap t = none → ∀ id, t ∉ s.lockMgr.lockers id
  session : ∀ i txn, (s.sessions i).txnId ≠ invalidTxnId →
    s.txnMap (s.sessions i).txnId = some txn → LocksInv s.lockMgr txn (s.sessions i).pc
  ended : ∀ t txn, s.txnMap t = some txn → txn.finished = true → ∀ id, t ∉ s.lockMgr.lockers id

theorem Server.locks_start : Server.start.Locks where
  wf := Server.wf_start
  mgr := LockManager.inv_empty
  unknown t _ id := by
    simp [Server.start, LockManager.lockers, LockManager.requests, LockManager.empty,
      LockRequestQueue.empty]
  session _ _ h := absurd rfl h
  ended _ _ h := by simp [Server.start] at h

variable {s : Server}

theorem Server.Locks.thread (h : s.Locks) {i : ℕ} {th : Thread} (hth : s.thread i = some th) :
    th.lockMgr.Inv ∧ LocksInv th.lockMgr th.txn th.pc := by
  obtain ⟨hvalid, hcur, hpc, hlocks, -⟩ := Server.thread_eq hth
  rw [hlocks, hpc]
  exact ⟨h.mgr, h.session i th.txn hvalid hcur⟩

/-- What a thread has done goes back to the server. -/
theorem Server.Locks.put (h : s.Locks) {i : ℕ} {th th' : Thread} (hth : s.thread i = some th)
    (hid : th'.txn.txnId = th.txn.txnId) (hs : LocksStep th th') : (s.put i th').Locks := by
  obtain ⟨-, hcur, -, hlocks, -⟩ := Server.thread_eq hth
  have hkey := h.wf.thread hth
  -- a step of this thread concerns the locks of its own transaction only
  have hothers : ∀ t, t ≠ (s.sessions i).txnId →
      ∀ id, t ∈ th'.lockMgr.lockers id ↔ t ∈ s.lockMgr.lockers id := by
    intro t ht id
    rw [hs.others t (hkey ▸ ht), hlocks]
  refine ⟨h.wf.put hth hid, hs.mgr, fun t ht id => ?_, fun j txn hvalid' hcur' => ?_,
    fun t txn ht hf id => ?_⟩
  · simp only [Server.put, Function.update_apply] at ht ⊢
    split at ht
    · cases ht
    · rename_i hne
      rw [hothers t hne]
      exact h.unknown t ht id
  · by_cases hij : j = i
    · subst hij
      simp only [Server.put, Function.update_self, Option.some.injEq] at hcur' ⊢
      rw [← hcur']
      exact hs.inv
    · simp only [Server.put, Function.update_of_ne hij] at hvalid' hcur' ⊢
      have hne := h.wf.ne_of_ne hvalid' hij
      rw [Function.update_of_ne hne] at hcur'
      have hinv := h.session j txn hvalid' hcur'
      have hsame : ∀ id, txn.txnId ∈ th'.lockMgr.lockers id ↔ txn.txnId ∈ s.lockMgr.lockers id := by
        rw [(h.wf.key _ _ hcur').1]
        exact hothers _ hne
      refine ⟨fun hf id => (hsame id).not.mpr (hinv.ended hf id), fun hf => ?_⟩
      have hact := hinv.active hf
      cases hpc : (s.sessions j).pc with
      | releasing commits caller left =>
        rw [hpc] at hact
        exact fun id => (hsame id).trans (hact id)
      | _ =>
        rw [hpc] at hact
        exact fun id => (hsame id).trans (hact id)
  · simp only [Server.put, Function.update_apply] at ht ⊢
    split at ht
    · rename_i he
      cases ht
      rw [he, ← hkey, ← hid]
      exact hs.inv.ended hf id
    · rename_i hne
      rw [hothers t hne]
      exact h.ended t txn ht hf id

/-- A transaction that begins waits nowhere. -/
theorem Server.Locks.setTransaction (h : s.Locks) {i : ℕ} (hpc : (s.sessions i).pc = .reading) :
    (s.setTransaction i).Locks := by
  have hwf := h.wf.setTransaction i
  have hfresh := h.wf.next_free
  have hbegin : (s.begin i).Wf → (s.begin i).Locks := by
    intro hwf
    refine ⟨hwf, h.mgr, fun t ht id => ?_, fun j txn hvalid' hcur' => ?_, fun t txn ht hf id => ?_⟩
    · simp only [Server.begin, Function.update_apply] at ht ⊢
      split at ht
      · cases ht
      · exact h.unknown t ht id
    · by_cases hij : j = i
      · subst hij
        simp only [Server.begin, Function.update_self, Option.some.injEq] at hcur' ⊢
        have hnew : txn.txnId = s.nextTxnId ∧ txn.lockSet = ∅ := by
          rw [← hcur']
          exact ⟨rfl, rfl⟩
        have hno := h.unknown _ hfresh
        rw [hpc]
        refine ⟨fun _ id => hnew.1 ▸ hno id, fun _ id => ?_⟩
        rw [hnew.1, hnew.2]
        exact iff_of_false (hno id) (Finset.notMem_empty id)
      · simp only [Server.begin, Function.update_of_ne hij] at hvalid' hcur' ⊢
        rw [Function.update_of_ne (h.wf.used_ne ((h.wf.session j).resolve_left hvalid'))] at hcur'
        exact h.session j txn hvalid' hcur'
    · simp only [Server.begin, Function.update_apply] at ht ⊢
      split at ht
      · rename_i he
        rw [he]
        exact h.unknown _ hfresh id
      · exact h.ended t txn ht hf id
  rcases s.setTransaction_cases i with ⟨heq, -⟩ | ⟨heq, -⟩
  · rw [heq] at hwf ⊢
    exact hbegin hwf
  · rw [heq]
    exact h

/-- A request touches no lock. -/
theorem LocksInv.dispatch {th : Thread} (hmgr : th.lockMgr.Inv)
    (h : LocksInv th.lockMgr th.txn th.pc) (hpc : th.pc = .reading) (req : Request) :
    LocksStep th (th.dispatch req) := by
  cases req <;> exact h.stay hmgr (by rw [hpc]; rfl) rfl rfl rfl rfl rfl

/-- **One step of the server.** -/
theorem Server.Locks.step (h : s.Locks) {a : ServerStep} {s' : Server}
    (hs : s.step a = some s') : s'.Locks := by
  have hwf := h.wf.step hs
  rcases Server.step_cases hs with ⟨i, req, th, rfl, hpc, -, hth, rfl⟩ | ⟨i, how, rfl, hpc, rfl⟩ |
    ⟨i, rfl, rfl⟩ | ⟨i, b, th, th', rfl, hth, hmoves, rfl⟩
  · have hlocks := h.setTransaction hpc
    obtain ⟨hmgr, hinv⟩ := hlocks.thread hth
    have hread : th.pc = .reading := by
      rw [(Server.thread_eq hth).2.2.1, s.setTransaction_pc, hpc]
    exact hlocks.put hth (th.dispatch_txnId req) (hinv.dispatch hmgr hread req)
  · refine ⟨hwf, h.mgr, h.unknown, fun j txn hvalid' hcur' => ?_, h.ended⟩
    by_cases hij : j = i
    · subst hij
      simp only [Function.update_self] at hvalid' hcur' ⊢
      have hinv := h.session j txn hvalid' hcur'
      rw [hpc] at hinv
      exact ⟨hinv.ended, hinv.active⟩
    · simp only [Function.update_of_ne hij] at hvalid' hcur' ⊢
      exact h.session j txn hvalid' hcur'
  · exact ⟨hwf, h.mgr, h.unknown, h.session, h.ended⟩
  · obtain ⟨hmgr, hinv⟩ := h.thread hth
    exact h.put hth hmoves.txnId (hmoves.locks hmgr hinv)

theorem server_locks (h : server.Reachable s) : s.Locks :=
  h.invariant (fun _ hi => hi ▸ Server.locks_start) fun _ _ _ hs hstep => hs.step hstep

/-! ### The end of a session -/

/-- No queue has a request of a transaction of session `i`. -/
def Server.Silent (s : Server) (i : ℕ) : Prop :=
  ∀ id, ∀ r ∈ s.lockMgr.requests id, s.threadId r.txnId ≠ some i

theorem Server.silent_iff {s : Server} {i : ℕ} :
    s.Silent i ↔ ∀ t, s.threadId t = some i → ∀ id, t ∉ s.lockMgr.lockers id := by
  constructor
  · intro h t ht id hmem
    obtain ⟨r, hr, rfl⟩ := List.mem_map.mp hmem
    exact h id r hr ht
  · intro h id r hr ht
    exact h r.txnId ht id (List.mem_map_of_mem hr)

theorem Thread.Moves.not_closed {i : ℕ} {th th' : Thread} {a : ThreadStep}
    (h : Thread.Moves i th a th') : th.pc ≠ .closed := by
  intro hpc
  cases h <;> simp_all

/-- Only a failed reply ends the loop. -/
theorem Thread.Moves.closes {i : ℕ} {th th' : Thread} {a : ThreadStep}
    (h : Thread.Moves i th a th') (hpc' : th'.pc = .closed) :
    th.pc = .replying ∧ th'.txn = th.txn ∧ th'.lockMgr = th.lockMgr := by
  have hno := h.not_closed
  cases h with
  | fail hpc => exact ⟨hpc, rfl, rfl⟩
  | @exec a todo hpc =>
    cases a with
    | lock c =>
      rcases (th.exec_lock todo c).2.2.2 with hnext | ⟨-, hnext⟩
      · rw [hnext] at hpc'
        cases hpc'
      · rw [hnext] at hpc'
        cases hpc'
    | log change => cases hpc'
    | write w => cases hpc'
  | @undoLock caller c todo hpc =>
    rcases (th.undoLock_eq caller todo c).2.2.2 with hnext | ⟨-, hnext⟩ | hnext
    · rw [hnext] at hpc'
      cases hpc'
    · rw [hnext] at hpc'
      cases hpc'
    · exact absurd (hnext.symm.trans hpc') hno
  | @leave caller todo hpc =>
    rcases (th.leaveRollback_eq caller).2.2.2 with ⟨-, hnext⟩ | hnext
    · rw [hnext] at hpc'
      cases hpc'
    · exact absurd (hnext.symm.trans hpc') hno
  | @finish commits caller hpc =>
    have hnext : (th.finish commits caller).pc =
        if caller = .autocommit then .reading else .replying := rfl
    rw [hnext] at hpc'
    split at hpc' <;> cases hpc'
  | _ => cases hpc'

/-- What the step that ends a session looks like. -/
theorem Server.step_closes {s s' : Server} {a : ServerStep} (hs : s.step a = some s') {i : ℕ}
    (hopen : (s.sessions i).pc ≠ .closed) (hclosed : (s'.sessions i).pc = .closed) :
    (s.sessions i).pc.keepsLocks = true ∧ s'.lockMgr = s.lockMgr ∧ s'.threadId = s.threadId := by
  rcases Server.step_cases hs with ⟨j, req, th, rfl, hpc, -, hth, rfl⟩ | ⟨j, how, rfl, hpc, rfl⟩ |
    ⟨j, rfl, rfl⟩ | ⟨j, b, th, th', rfl, hth, hmoves, rfl⟩
  · exfalso
    by_cases hij : i = j
    · subst hij
      simp only [Server.put, Function.update_self] at hclosed
      cases req <;> cases hclosed
    · -- another session reads: this one stays where it was
      simp only [Server.put, Function.update_of_ne hij, s.setTransaction_pc] at hclosed
      exact hopen hclosed
  · by_cases hij : i = j
    · subst hij
      exact ⟨by rw [hpc]; rfl, rfl, rfl⟩
    · simp only [Function.update_of_ne hij] at hclosed
      exact absurd hclosed hopen
  · exact absurd hclosed hopen
  · by_cases hij : i = j
    · subst hij
      simp only [Server.put, Function.update_self] at hclosed
      obtain ⟨hpc, -, hlocks⟩ := hmoves.closes hclosed
      obtain ⟨-, -, hpc', hlocks', -⟩ := Server.thread_eq hth
      exact ⟨by rw [← hpc', hpc]; rfl, hlocks.trans hlocks', rfl⟩
    · simp only [Server.put, Function.update_of_ne hij] at hclosed
      exact absurd hclosed hopen

/-- What is silent and closed stays so. -/
theorem Server.Silent.step (h : s.Locks) {i : ℕ} (hclosed : (s.sessions i).pc = .closed)
    (hsilent : s.Silent i) {a : ServerStep} {s' : Server} (hs : s.step a = some s') :
    (s'.sessions i).pc = .closed ∧ s'.Silent i := by
  rw [Server.silent_iff] at hsilent
  -- a thread of another session touches neither this session nor its transactions
  have hput : ∀ (s₁ : Server) (j : ℕ) (th th' : Thread), s₁.Wf → s₁.thread j = some th →
      (s₁.sessions i).pc = .closed → (∀ t, s₁.threadId t = some i → ∀ id, t ∉ s₁.lockMgr.lockers id) →
      i ≠ j → LocksStep th th' → ((s₁.put j th').sessions i).pc = .closed ∧ (s₁.put j th').Silent i := by
    intro s₁ j th th' hwf hth hcl hsil hij hstep
    obtain ⟨hvalid, -, -, hlocks, -⟩ := Server.thread_eq hth
    refine ⟨by simp only [Server.put, Function.update_of_ne hij, hcl], ?_⟩
    rw [Server.silent_iff]
    intro t ht id
    have hne : t ≠ th.txn.txnId := by
      rw [hwf.thread hth]
      rintro rfl
      have := (hwf.session j).resolve_left hvalid
      exact hij (Option.some.inj (ht.symm.trans this))
    show t ∉ th'.lockMgr.lockers id
    rw [hstep.others t hne, hlocks]
    exact hsil t ht id
  rcases Server.step_cases hs with ⟨j, req, th, rfl, hpc, -, hth, rfl⟩ | ⟨j, how, rfl, hpc, rfl⟩ |
    ⟨j, rfl, rfl⟩ | ⟨j, b, th, th', rfl, hth, hmoves, rfl⟩
  · have hij : i ≠ j := by
      rintro rfl
      rw [hpc] at hclosed
      cases hclosed
    have hset := h.setTransaction hpc
    obtain ⟨hmgr, hinv⟩ := hset.thread hth
    have hread : th.pc = .reading := by
      rw [(Server.thread_eq hth).2.2.1, s.setTransaction_pc, hpc]
    have hcl : ((s.setTransaction j).sessions i).pc = .closed := by
      rw [s.setTransaction_pc, hclosed]
    -- the transaction that may begin is one of session `j`
    have hsil : ∀ t, (s.setTransaction j).threadId t = some i →
        ∀ id, t ∉ (s.setTransaction j).lockMgr.lockers id := by
      intro t ht
      rcases s.setTransaction_cases j with ⟨heq, -⟩ | ⟨heq, -⟩
      · rw [heq] at ht ⊢
        simp only [Server.begin, Function.update_apply] at ht
        split at ht
        · exact absurd (Option.some.inj ht).symm hij
        · exact hsilent t ht
      · rw [heq] at ht ⊢
        exact hsilent t ht
    exact hput _ j th _ hset.wf hth hcl hsil hij (hinv.dispatch hmgr hread req)
  · have hij : i ≠ j := by
      rintro rfl
      rw [hpc] at hclosed
      cases hclosed
    refine ⟨by simp only [Function.update_of_ne hij, hclosed], ?_⟩
    rw [Server.silent_iff]
    exact hsilent
  · exact ⟨hclosed, Server.silent_iff.mpr hsilent⟩
  · have hij : i ≠ j := by
      rintro rfl
      exact hmoves.not_closed ((Server.thread_eq hth).2.2.1.trans hclosed)
    obtain ⟨hmgr, hinv⟩ := h.thread hth
    exact hput s j th th' h.wf hth hclosed hsilent hij (hmoves.locks hmgr hinv)

/-- **What a session leaves behind.** For every reachable state and every step that ends the loop
    of session `i` (the client exits or closes the socket, `read` fails, a reply cannot be written),
    no queue holds a request of a transaction of the session, in the state after the step and in
    every later one, exactly if the current transaction of the session has ended before or holds
    no lock. -/
theorem session_end_releases_locks_iff (h : server.Reachable s) {a : ServerStep} {s' : Server}
    (hs : s.step a = some s') {i : ℕ} (hopen : (s.sessions i).pc ≠ .closed)
    (hclosed : (s'.sessions i).pc = .closed) :
    (∀ as s'', server.Run s' as s'' → s''.Silent i) ↔
      ∀ txn, s.txn i = some txn →
        txn.state = .committed ∨ txn.state = .aborted ∨ txn.lockSet = ∅ := by
  have hlocks := server_locks h
  obtain ⟨hkeeps, hmgr, hthread⟩ := Server.step_closes hs hopen hclosed
  -- the current transaction of the session, before the step
  have hcurrent : ∀ txn, s.txn i = some txn → s.threadId txn.txnId = some i ∧
      txn.txnId = (s.sessions i).txnId ∧ LocksInv s.lockMgr txn (s.sessions i).pc := by
    intro txn htxn
    unfold Server.txn at htxn
    split at htxn
    · cases htxn
    · rename_i hvalid
      have hkey := (hlocks.wf.key _ _ htxn).1
      exact ⟨hkey ▸ (hlocks.wf.session i).resolve_left hvalid, hkey,
        hlocks.session i txn hvalid htxn⟩
  constructor
  · intro hsilent txn htxn
    obtain ⟨hown, -, hinv⟩ := hcurrent txn htxn
    have hnow := Server.silent_iff.mp (hsilent [] s' (.nil s')) txn.txnId (hthread ▸ hown)
    cases hfin : txn.finished with
    | true =>
      have hst : txn.state = .committed ∨ txn.state = .aborted := by
        simpa [Transaction.finished] using hfin
      exact hst.imp_right Or.inl
    | false =>
      have howned := (locksAt_of_keeps hkeeps).mp (hinv.active hfin)
      refine Or.inr (Or.inr (Finset.eq_empty_of_forall_notMem fun id hid => ?_))
      exact hnow id (hmgr ▸ (howned id).mpr hid)
  · intro hdone as s'' hrun
    have hsilent : s'.Silent i := by
      rw [Server.silent_iff, hthread, hmgr]
      intro t ht id
      obtain ⟨txn, hmap⟩ := hlocks.wf.known t i ht
      obtain ⟨j, hj, hcur⟩ := hlocks.wf.owned t txn hmap
      cases ht.symm.trans hj
      rcases hcur with rfl | hfin
      · -- the current transaction
        have hvalid : (s.sessions i).txnId ≠ invalidTxnId := by
          intro he
          exact absurd (he ▸ (hlocks.wf.key _ _ hmap).2.1) (by decide)
        have htxn : s.txn i = some txn := by rw [Server.txn, if_neg hvalid, hmap]
        obtain ⟨-, hid, hinv⟩ := hcurrent txn htxn
        cases hfin : txn.finished with
        | true => exact hlocks.ended _ txn hmap hfin id
        | false =>
          have hset : txn.lockSet = ∅ := by
            rcases hdone txn htxn with hst | hst | hset
            · simp [Transaction.finished, hst] at hfin
            · simp [Transaction.finished, hst] at hfin
            · exact hset
          have howned := (locksAt_of_keeps hkeeps).mp (hinv.active hfin)
          rw [← hid, howned id, hset]
          exact Finset.notMem_empty id
      · exact hlocks.ended t txn hmap hfin id
    have key : s''.Locks ∧ (s''.sessions i).pc = .closed ∧ s''.Silent i := by
      induction hrun with
      | nil => exact ⟨hlocks.step hs, hclosed, hsilent⟩
      | snoc _ hstep ih =>
        exact ⟨ih.1.step hstep, Server.Silent.step ih.1 ih.2.1 ih.2.2 hstep⟩
    exact key.2.2

/-- A client begins a transaction, locks a table, and does `last`. -/
def lockThen (last : List ServerStep) : List ServerStep :=
  [.receive 0 .begin, .run 0 (.reply true), .receive 0 (.statement [.lock (.sharedOnTable 3)]),
    .run 0 .act, .run 0 .act, .run 0 (.reply true)] ++ last

/-- A client that commits before it exits leaves nothing behind. -/
theorem exit_after_commit_leaves_nothing :
    ∃ s s', server.Reachable s ∧ s.step (.hangUp 0 .exit) = some s' ∧
      (s.txn 0).map Transaction.lockSet = some {.ofTable 3} ∧
      ∀ as s'', server.Run s' as s'' → s''.Silent 0 := by
  have hrun : ((lockThen [.receive 0 .commit, .run 0 .latch, .run 0 (.unlock (.ofTable 3)),
      .run 0 .finish, .run 0 (.reply true)]).foldlM Server.step Server.start).bind (fun s =>
        (s.step (.hangUp 0 .exit)).map fun s' =>
          ((s.txn 0).map Transaction.state, (s.txn 0).map Transaction.lockSet,
            (s.sessions 0).pc, (s'.sessions 0).pc)) =
      some (some .committed, some {.ofTable 3}, .reading, .closed) := by
    decide +kernel
  obtain ⟨s, hs, hrest⟩ := Option.bind_eq_some_iff.mp hrun
  obtain ⟨s', hs', heq⟩ := Option.map_eq_some_iff.mp hrest
  simp only [Prod.mk.injEq] at heq
  obtain ⟨hstate, hset, hpc, hpc'⟩ := heq
  have hreach : server.Reachable s :=
    TransitionSystem.Reachable.foldlM (fun _ _ _ h => h) (.init rfl) hs
  refine ⟨s, s', hreach, hs', hset, ?_⟩
  refine (session_end_releases_locks_iff hreach hs' (by rw [hpc]; decide) hpc').mpr ?_
  intro txn htxn
  rw [htxn] at hstate
  exact Or.inl (Option.some.inj hstate)

/-- **A dead session keeps its locks.** A client that exits inside its transaction: the loop of
    session 0 has ended and its transaction still has a request in the queue of the table. -/
theorem exit_leaves_lock :
    ∃ s, (lockThen [.hangUp 0 .exit]).foldlM Server.step Server.start = some s ∧
      server.Reachable s ∧ (s.sessions 0).pc = .closed ∧
      ∃ r ∈ s.lockMgr.requests (.ofTable 3), s.threadId r.txnId = some 0 := by
  have hrun : ((lockThen [.hangUp 0 .exit]).foldlM Server.step Server.start).map (fun s =>
      ((s.sessions 0).pc, s.lockMgr.requests (.ofTable 3), s.threadId 0)) =
      some (.closed, [{ txnId := 0, lockMode := .shared, granted := true }], some 0) := by
    decide +kernel
  obtain ⟨s, hs, heq⟩ := Option.map_eq_some_iff.mp hrun
  simp only [Prod.mk.injEq] at heq
  obtain ⟨hpc, hreq, hthread⟩ := heq
  have hreach : server.Reachable s :=
    TransitionSystem.Reachable.foldlM (fun _ _ _ h => h) (.init rfl) hs
  exact ⟨s, hs, hreach, hpc, _, by rw [hreq]; exact List.mem_singleton_self _, hthread⟩

end Rmdb
