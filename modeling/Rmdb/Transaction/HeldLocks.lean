import Rmdb.Transaction.LockInvariant

namespace Rmdb

/-!
# Who waits in which queue

Which transactions have a request in the queue of a lock, over the calls of the lock manager:

* `LockCall.run_lockers` — a lock function leaves the lockers of every queue as they are, or adds
  the calling transaction to one queue and the lock to its lock set;
* `unlock_lockers` — `unlock` takes the calling transaction out of one queue, unless the
  transaction has ended;
* `LocksOwned` — the lock set of a transaction lists exactly the queues it has a request in.
-/

/-- The transactions with a request in the queue of `id`. -/
def LockManager.lockers (m : LockManager) (id : LockDataId) : List TxnId :=
  (m.requests id).map LockRequest.txnId

/-- The lock set of a transaction lists exactly the queues it has a request in. -/
def LocksOwned (m : LockManager) (txn : Transaction) : Prop :=
  ∀ id, txn.txnId ∈ m.lockers id ↔ id ∈ txn.lockSet

/-- `COMMITTED` or `ABORTED`. -/
def Transaction.finished (txn : Transaction) : Bool :=
  txn.state = .committed ∨ txn.state = .aborted

/-! ### Lock functions -/

@[simp] theorem LockManager.lockers_setQueue_self (m : LockManager) (id : LockDataId)
    (q : LockRequestQueue) :
    (m.setQueue id q).lockers id = q.requestQueue.map LockRequest.txnId := by
  simp [LockManager.lockers, LockManager.requests]

theorem LockManager.lockers_setQueue_of_ne (m : LockManager) {id id' : LockDataId}
    (q : LockRequestQueue) (h : id' ≠ id) : (m.setQueue id q).lockers id' = m.lockers id' := by
  simp [LockManager.lockers, LockManager.requests, m.setQueue_of_ne q h]

/-- Raising the mode of a request leaves the lockers. -/
theorem setMode_lockers (q : LockRequestQueue) (t : TxnId) (mode : LockMode) :
    (q.setMode t mode).map LockRequest.txnId = q.requestQueue.map LockRequest.txnId := by
  unfold LockRequestQueue.setMode
  induction q.requestQueue with
  | nil => rfl
  | cons r l ih =>
    by_cases hr : t = r.txnId
    · simp [hr]
    · simp [hr, ih]

/-- What a lock function can do to the lockers and to the lock set. -/
theorem LockCall.run_lockers (c : LockCall) (txn : Transaction) (m : LockManager) :
    ((∀ id, (c.run txn m).2.2.lockers id = m.lockers id) ∧
      (c.run txn m).2.1.lockSet = txn.lockSet) ∨
    ((c.run txn m).2.2.lockers c.id = m.lockers c.id ++ [txn.txnId] ∧
      (∀ id, id ≠ c.id → (c.run txn m).2.2.lockers id = m.lockers id) ∧
      (c.run txn m).2.1.lockSet = insert c.id txn.lockSet) := by
  by_cases hact : txn.state = .default ∨ txn.state = .growing
  swap
  · rw [c.run_eq, lockOn_inactive hact]
    exact Or.inl ⟨fun _ => rfl, rfl⟩
  obtain ⟨txn', hchk, hid, hset⟩ := checkLock_active hact
  rw [c.run_eq]
  unfold lockOn
  rw [hchk]
  simp only [hid]
  have hkeep : ∀ (q : LockRequestQueue),
      q.requestQueue.map LockRequest.txnId = m.lockers c.id →
      ∀ id, (m.setQueue c.id q).lockers id = m.lockers id := by
    intro q hq id
    by_cases h : id = c.id
    · rw [h, m.lockers_setQueue_self, hq]
    · exact m.lockers_setQueue_of_ne q h
  cases c.decision (m.queueOf c.id) ((m.queueOf c.id).modeOf txn.txnId) with
  | holds => exact Or.inl ⟨hkeep _ rfl, hset⟩
  | refuse => exact Or.inl ⟨hkeep _ rfl, hset⟩
  | upgrade mode group => exact Or.inl ⟨hkeep _ (setMode_lockers _ _ _), hset⟩
  | grant mode group =>
    refine Or.inr ⟨?_, fun id h => m.lockers_setQueue_of_ne _ h, by simp only [hset]⟩
    rw [m.lockers_setQueue_self, List.map_append]
    rfl

/-- A lock function changes nothing in what the other transactions wait for. -/
theorem LockCall.run_lockers_other (c : LockCall) {txn : Transaction} (m : LockManager) {t : TxnId}
    (ht : t ≠ txn.txnId) (id : LockDataId) :
    t ∈ (c.run txn m).2.2.lockers id ↔ t ∈ m.lockers id := by
  rcases c.run_lockers txn m with ⟨h, -⟩ | ⟨h, h', -⟩
  · rw [h]
  · by_cases hid : id = c.id
    · rw [hid, h]
      simp [ht]
    · rw [h' id hid]

/-- A lock function keeps the lock set of the caller right. -/
theorem LockCall.run_owned (c : LockCall) {txn : Transaction} {m : LockManager}
    (h : LocksOwned m txn) : LocksOwned (c.run txn m).2.2 (c.run txn m).2.1 := by
  intro id
  rw [c.run_txnId]
  rcases c.run_lockers txn m with ⟨hl, hs⟩ | ⟨hl, hl', hs⟩
  · rw [hl, hs]
    exact h id
  · rw [hs, Finset.mem_insert]
    by_cases hid : id = c.id
    · rw [hid, hl]
      simp
    · rw [hl' id hid, h id]
      simp [hid]

/-- An ended transaction gets no lock. -/
theorem LockCall.run_finished (c : LockCall) {txn : Transaction} (m : LockManager)
    (h : txn.finished = true) : (c.run txn m).2 = (txn, m) := by
  rw [c.run_eq]
  refine lockOn_inactive ?_
  rintro (hst | hst)
  · rw [Transaction.finished, hst] at h
    exact absurd h (by decide)
  · rw [Transaction.finished, hst] at h
    exact absurd h (by decide)

/-- A lock call does not end a transaction. -/
theorem LockCall.run_active (c : LockCall) {txn : Transaction} (m : LockManager)
    (h : txn.finished = false) :
    (c.run txn m).2.1.finished = false ∧ (c.run txn m).2.1.txnMode = txn.txnMode := by
  rw [c.run_eq]
  unfold lockOn checkLock
  cases hst : txn.state <;> simp only <;> (try split) <;> simp_all [Transaction.finished]

/-! ### `unlock` -/

/-- Erasing the request of `t` takes `t`, and only `t`, out of the queue. -/
theorem mem_eraseP_lockers {reqs : List LockRequest} (hnd : (reqs.map LockRequest.txnId).Nodup)
    (t t' : TxnId) :
    t' ∈ (reqs.eraseP (fun r => t = r.txnId)).map LockRequest.txnId ↔
      t' ∈ reqs.map LockRequest.txnId ∧ t' ≠ t := by
  induction reqs with
  | nil => simp
  | cons r l ih =>
    rw [List.map_cons, List.nodup_cons] at hnd
    by_cases hr : t = r.txnId
    · subst hr
      simp only [decide_true, List.eraseP_cons_of_pos, List.map_cons, List.mem_cons]
      constructor
      · intro h
        exact ⟨Or.inr h, fun he => hnd.1 (he ▸ h)⟩
      · rintro ⟨h | h, hne⟩
        · exact absurd h hne
        · exact h
    · rw [List.eraseP_cons_of_neg (by simpa using hr), List.map_cons, List.map_cons,
        List.mem_cons, List.mem_cons, ih hnd.2]
      constructor
      · rintro (h | ⟨h, hne⟩)
        · exact ⟨Or.inl h, fun he => hr (he.symm.trans h)⟩
        · exact ⟨Or.inr h, hne⟩
      · rintro ⟨h | h, hne⟩
        · exact Or.inl h
        · exact Or.inr ⟨h, hne⟩

/-- An ended transaction releases nothing. -/
theorem unlock_finished {txn : Transaction} (h : txn.finished = true) (id : LockDataId)
    (m : LockManager) : unlock txn id m = (false, txn, m) := by
  have hs : txn.state = .committed ∨ txn.state = .aborted := by
    simpa [Transaction.finished] using h
  unfold unlock
  rcases hs with hs | hs
  · rw [hs]
  · rw [hs]

/-- `unlock` keeps the number and the lock set of the transaction, and whether it has ended. -/
theorem unlock_txn (txn : Transaction) (id : LockDataId) (m : LockManager) :
    (unlock txn id m).2.1.txnId = txn.txnId ∧ (unlock txn id m).2.1.lockSet = txn.lockSet ∧
    (unlock txn id m).2.1.writeSet = txn.writeSet ∧
    (unlock txn id m).2.1.txnMode = txn.txnMode ∧
    (unlock txn id m).2.1.finished = txn.finished := by
  unfold unlock
  cases m.lockTable id with
  | none => cases hs : txn.state <;> simp [Transaction.finished, hs]
  | some q => cases hs : txn.state <;> simp [Transaction.finished, hs]

/-- `unlock` takes the calling transaction out of one queue. -/
theorem unlock_lockers {txn : Transaction} (h : txn.finished = false) (id : LockDataId)
    {m : LockManager} (hm : m.Inv) (t : TxnId) (id' : LockDataId) :
    t ∈ (unlock txn id m).2.2.lockers id' ↔
      t ∈ m.lockers id' ∧ ¬ (t = txn.txnId ∧ id' = id) := by
  have hs : txn.state ≠ .committed ∧ txn.state ≠ .aborted := by
    simpa [Transaction.finished] using h
  -- the two ways through the live states: without a queue, and with one
  have hmgr : (unlock txn id m).2.2 = m ∧ m.lockTable id = none ∨
      ∃ q, m.lockTable id = some q ∧
        (unlock txn id m).2.2 = m.setQueue id (q.release txn.txnId) := by
    unfold unlock
    cases hq : m.lockTable id with
    | none => cases hst : txn.state <;> simp_all
    | some q => cases hst : txn.state <;> simp_all
  rcases hmgr with ⟨hmgr, hq⟩ | ⟨q, hq, hmgr⟩
  · rw [hmgr]
    refine ⟨fun hmem => ⟨hmem, ?_⟩, And.left⟩
    rintro ⟨-, rfl⟩
    simp [LockManager.lockers, LockManager.requests, hq, LockRequestQueue.empty] at hmem
  · rw [hmgr]
    by_cases hid : id' = id
    · subst hid
      have hreq : m.requests id' = q.requestQueue := by
        rw [LockManager.requests, hq, Option.getD_some]
      have hnd : (q.requestQueue.map LockRequest.txnId).Nodup := by
        rw [← hreq]
        exact (hm.queue id').nodup
      rw [m.lockers_setQueue_self]
      simp only [LockRequestQueue.release, mem_eraseP_lockers hnd, LockManager.lockers, hreq,
        and_true, ne_eq]
    · rw [m.lockers_setQueue_of_ne _ hid]
      simp [hid]

end Rmdb
