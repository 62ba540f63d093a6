import Rmdb.Transaction.HeldLocks

namespace Rmdb

open Lib

/-!
# Lock sets and queues (`TransactionManager::commit`, `abort`)

Any number of transactions call the lock functions, `unlock`, `commit` and `abort`, in any order.  The
rollback in `abort` can ask for any locks; so can a transaction that has ended.

* `OwnerView.step` — what a transaction can do;
* `LockOwner.Inv` — its lock set, its state and the queues agree;
* `OwnerView.step_inv` — every step keeps this, for the transaction and for the others;
* `lockSets_agree` — what follows for the lock sets, for later requests, and for the queues that `commit`
  and `abort` leave.
-/

/-- Where a transaction is in `TransactionManager`.  `active` says that it was `DEFAULT` or `GROWING` when
`commit` or `abort` was called. -/
inductive Ending where
  | outside
  /-- In the rollback loop of `abort`. -/
  | rollingBack (active : Bool)
  /-- In the unlock loop of `commit` or `abort`. -/
  | releasing (left : Finset LockDataId) (commits active : Bool)

/-- A transaction, and what has happened to it. -/
structure LockOwner where
  txn : Transaction
  ending : Ending
  /-- `unlock` has been called for it. -/
  unlocked : Bool
  /-- `unlock` has taken one of its requests out of a queue. -/
  released : Bool

/-- What a transaction can change: the lock table, `TransactionManager::latch_` and itself. -/
structure OwnerView where
  mgr : LockManager
  latch : Option TxnId
  owner : LockOwner

/-- What a transaction can do. -/
inductive EndAct where
  | lock (c : LockCall)
  | unlock (id : LockDataId)
  | commit
  | abort
  /-- The rollback loop is done. -/
  | rolledBack
  /-- The unlock loop is done. -/
  | finish

/-- The transaction may still be granted a lock. -/
def Transaction.Active (txn : Transaction) : Prop := txn.state = .default ∨ txn.state = .growing

instance (txn : Transaction) : Decidable txn.Active :=
  inferInstanceAs (Decidable (txn.state = .default ∨ txn.state = .growing))

namespace OwnerView

/-- A lock function, called by the transaction. -/
def locked (v : OwnerView) (c : LockCall) : OwnerView :=
  let r := c.run v.owner.txn v.mgr
  { v with mgr := r.2.2, owner := { v.owner with txn := r.2.1 } }

/-- `LockManager::unlock`, called for the transaction. -/
def unlocked (v : OwnerView) (id : LockDataId) : OwnerView :=
  let t := v.owner.txn.txnId
  let r := Rmdb.unlock v.owner.txn id v.mgr
  { v with
    mgr := r.2.2
    owner := { v.owner with
      txn := r.2.1
      unlocked := true
      released := v.owner.released || decide (t ∈ v.mgr.lockers id ∧ t ∉ r.2.2.lockers id) } }

/-- In `commit` or `abort`. -/
def setEnding (v : OwnerView) (ending : Ending) : OwnerView :=
  { v with owner := { v.owner with ending := ending } }

/-- The transaction when the unlock loop is done.  `commit` resets only a copy of the pointer to the lock
set. -/
def finished (v : OwnerView) (commits : Bool) : OwnerView :=
  let txn := v.owner.txn
  { v with
    latch := none
    owner := { v.owner with
      txn := if commits then { txn with state := .committed }
        else { txn with lockSet := ∅, writeSet := [], state := .aborted }
      ending := .outside } }

/-- One step of the transaction, where it is possible. -/
def step (v : OwnerView) : EndAct → Option OwnerView
  | .lock c =>
    match v.owner.ending, (c.run v.owner.txn v.mgr).1 with
    | .outside, _ => some (v.locked c)
    | .rollingBack _, .ok _ => some (v.locked c)
    -- the exception leaves `abort`, and the scoped lock with it
    | .rollingBack _, .error _ => some { (v.locked c).setEnding .outside with latch := none }
    | .releasing _ _ _, _ => none
  | .unlock id =>
    match v.owner.ending with
    | .outside => some (v.unlocked id)
    | .rollingBack _ => none
    | .releasing left commits active =>
      if id ∈ left then some ((v.unlocked id).setEnding (.releasing (left.erase id) commits active)) else none
  | .commit =>
    match v.owner.ending, v.latch with
    | .outside, none =>
      let txn := v.owner.txn
      some { v with
        latch := some txn.txnId
        owner := { v.owner with
          txn := { txn with writeSet := [] }
          ending := .releasing txn.lockSet true (decide txn.Active) } }
    | _, _ => none
  | .abort =>
    match v.owner.ending, v.latch with
    | .outside, none =>
      let txn := v.owner.txn
      some { v.setEnding (.rollingBack (decide txn.Active)) with latch := some txn.txnId }
    | _, _ => none
  | .rolledBack =>
    match v.owner.ending with
    | .rollingBack active => some (v.setEnding (.releasing v.owner.txn.lockSet false active))
    | _ => none
  | .finish =>
    match v.owner.ending with
    | .releasing left commits _ => if left = ∅ then some (v.finished commits) else none
    | _ => none

end OwnerView

/-- The lock table, the latch and the transactions. -/
structure LockClients where
  mgr : LockManager
  latch : Option TxnId
  owners : TxnId → LockOwner

namespace LockClients

/-- Every transaction as constructed, and no queue. -/
def start : LockClients where
  mgr := .empty
  latch := none
  owners t := { txn := .new t, ending := .outside, unlocked := false, released := false }

/-- What `t` sees. -/
def view (s : LockClients) (t : TxnId) : OwnerView := ⟨s.mgr, s.latch, s.owners t⟩

/-- What `t` has changed. -/
def put (s : LockClients) (t : TxnId) (v : OwnerView) : LockClients where
  mgr := v.mgr
  latch := v.latch
  owners := Function.update s.owners t v.owner

/-- A step of `t`. -/
def step (s : LockClients) (t : TxnId) (a : EndAct) : Option LockClients := ((s.view t).step a).map (s.put t)

end LockClients

/-- **The system**: any number of transactions, in any order. -/
def lockClients : TransitionSystem LockClients (TxnId × EndAct) where
  init s := s = .start
  step s a s' := s.step a.1 a.2 = some s'

/-! ### The lock functions and `unlock` -/

section Calls

variable {txn : Transaction} {m : LockManager} {id : LockDataId} {t : TxnId}

theorem Transaction.Active.not_finished (h : txn.Active) : txn.finished = false := by
  rcases h with h | h
  · simp [Transaction.finished, h]
  · simp [Transaction.finished, h]

/-- A lock function does nothing for the others, and says so. -/
theorem LockCall.run_not_active (c : LockCall) (h : ¬ txn.Active) (m : LockManager) :
    (c.run txn m).1 ≠ .ok true ∧ (c.run txn m).2 = (txn, m) := by
  rw [c.run_eq]
  refine ⟨?_, lockOn_inactive h⟩
  unfold lockOn checkLock
  unfold Transaction.Active at h
  cases hs : txn.state <;> simp_all

/-- A lock function leaves the transaction as it was, or in the growing phase. -/
theorem LockCall.run_phase (c : LockCall) (txn : Transaction) (m : LockManager) :
    (¬ txn.Active ∧ (c.run txn m).2.1 = txn) ∨ (txn.Active ∧ (c.run txn m).2.1.state = .growing) := by
  by_cases h : txn.Active
  · exact .inr ⟨h, c.run_state m h⟩
  · exact .inl ⟨h, by rw [(c.run_not_active h m).2]⟩

/-- The state after `unlock`. -/
theorem unlock_state (txn : Transaction) (id : LockDataId) (m : LockManager) :
    (unlock txn id m).2.1.state = if txn.state = .growing then .shrinking else txn.state := by
  unfold unlock
  cases m.lockTable id with
  | none => cases hs : txn.state <;> simp [hs]
  | some q => cases hs : txn.state <;> simp [hs]

/-- `unlock` changes nothing in what the other transactions wait for. -/
theorem unlock_lockers_other (hm : m.Inv) (ht : t ≠ txn.txnId) (id' : LockDataId) :
    t ∈ (unlock txn id m).2.2.lockers id' ↔ t ∈ m.lockers id' := by
  cases hfin : txn.finished with
  | true => rw [unlock_finished hfin]
  | false =>
    rw [unlock_lockers hfin id hm]
    simp [ht]

/-- After `unlock` only a transaction that has asked for no lock may still be granted one. -/
theorem unlock_active (h : (unlock txn id m).2.1.Active) : txn.state = .default := by
  unfold Transaction.Active at h
  rw [unlock_state] at h
  by_cases hgrowing : txn.state = .growing
  · simp [hgrowing] at h
  · simpa [hgrowing] using h

end Calls

/-! ### The invariant -/

/-- **The lock set, the state and the queues agree.** -/
structure LockOwner.Inv (m : LockManager) (t : TxnId) (o : LockOwner) : Prop where
  txnId : o.txn.txnId = t
  fresh : o.txn.state = .default → ∀ id, t ∉ m.lockers id
  owned : o.unlocked = false ∨ o.txn.Active → LocksOwned m o.txn
  released : o.released = true → ¬ o.txn.Active
  rollingBack : o.ending = .rollingBack true → o.txn.Active
  releasing : ∀ left commits active, o.ending = .releasing left commits active →
    (o.unlocked = false → left = o.txn.lockSet) ∧
      (active = true → o.txn.finished = false ∧ ∀ id, t ∈ m.lockers id → id ∈ left)

namespace LockOwner.Inv

variable {m m' : LockManager} {t : TxnId} {o : LockOwner} {v : OwnerView}

/-- The other transactions do not matter. -/
theorem frame (h : o.Inv m t) (hsame : ∀ id, t ∈ m'.lockers id ↔ t ∈ m.lockers id) : o.Inv m' t where
  txnId := h.txnId
  fresh hdefault id := by
    rw [hsame]
    exact h.fresh hdefault id
  owned hor id := by
    have howned := h.owned hor id
    rw [h.txnId] at howned ⊢
    rw [hsame]
    exact howned
  released := h.released
  rollingBack := h.rollingBack
  releasing left commits active hending := by
    obtain ⟨hleft, hactive⟩ := h.releasing left commits active hending
    refine ⟨hleft, fun ha => ⟨(hactive ha).1, fun id hid => (hactive ha).2 id ?_⟩⟩
    rwa [hsame] at hid

/-- `commit` and `abort` are over. -/
theorem outside (h : v.owner.Inv m t) : (v.setEnding .outside).owner.Inv m t where
  txnId := h.txnId
  fresh := h.fresh
  owned := h.owned
  released := h.released
  rollingBack := nofun
  releasing := nofun

/-- **A lock function keeps the invariant.** -/
theorem lock (h : v.owner.Inv v.mgr t) (c : LockCall)
    (hending : ∀ left commits active, v.owner.ending ≠ .releasing left commits active) :
    (v.locked c).owner.Inv (v.locked c).mgr t := by
  have hphase := c.run_phase v.owner.txn v.mgr
  have hactive : (c.run v.owner.txn v.mgr).2.1.Active → v.owner.txn.Active := by
    rcases hphase with ⟨-, heq⟩ | ⟨hact, -⟩
    · rw [heq]
      exact id
    · exact fun _ => hact
  constructor
  · show (c.run v.owner.txn v.mgr).2.1.txnId = t
    rw [c.run_txnId, h.txnId]
  · intro hdefault
    -- the transaction has asked for a lock just now
    rcases hphase with ⟨hnot, heq⟩ | ⟨-, hgrowing⟩
    · exact absurd (.inl (heq ▸ hdefault)) hnot
    · exact absurd (hgrowing.symm.trans hdefault) (by simp)
  · intro hor
    exact c.run_owned (h.owned (hor.imp_right hactive))
  · intro hreleased hact
    exact h.released hreleased (hactive hact)
  · intro hback
    rcases hphase with ⟨hnot, -⟩ | ⟨-, hgrowing⟩
    · exact absurd (h.rollingBack hback) hnot
    · exact .inr hgrowing
  · intro left commits active hreleasing
    exact absurd hreleasing (hending left commits active)

/-- **`unlock` keeps the invariant**, outside of `commit` and `abort` and in their loops. -/
theorem unlock (h : v.owner.Inv v.mgr t) (hm : v.mgr.Inv) {id : LockDataId} {ending : Ending}
    (hending : ending = .outside ∨ ∃ left commits active,
      v.owner.ending = .releasing left commits active ∧ ending = .releasing (left.erase id) commits active) :
    ((v.unlocked id).setEnding ending).owner.Inv (v.unlocked id).mgr t := by
  obtain ⟨htxnId, hset, -, -, hfinished⟩ := unlock_txn v.owner.txn id v.mgr
  have hsub : v.owner.txn.finished = false → ∀ id', t ∈ (v.unlocked id).mgr.lockers id' ↔
      t ∈ v.mgr.lockers id' ∧ id' ≠ id := by
    intro hfin id'
    refine (unlock_lockers hfin id hm t id').trans ?_
    simp [h.txnId]
  constructor
  · exact htxnId.trans h.txnId
  · -- a transaction that stays `DEFAULT` had no lock to give back
    intro hdefault id'
    have hstate := unlock_active (.inl hdefault)
    rw [hsub (Transaction.Active.not_finished (.inl hstate))]
    exact fun hmem => h.fresh hstate id' hmem.1
  · rintro (hfalse | hact) id'
    · cases hfalse
    · -- it has no lock, so that none has been taken away
      have hstate := unlock_active hact
      have howned := h.owned (.inr (.inl hstate)) id'
      show (Rmdb.unlock v.owner.txn id v.mgr).2.1.txnId ∈ (v.unlocked id).mgr.lockers id' ↔
        id' ∈ (Rmdb.unlock v.owner.txn id v.mgr).2.1.lockSet
      rw [htxnId, hset, ← howned, h.txnId, hsub (Transaction.Active.not_finished (.inl hstate))]
      exact ⟨And.left, fun hmem => absurd hmem (h.fresh hstate id')⟩
  · -- after a release it is `SHRINKING`
    intro hreleased hact
    have hstate := unlock_active hact
    have hor : v.owner.released = true ∨ v.owner.txn.txnId ∈ v.mgr.lockers id ∧
        v.owner.txn.txnId ∉ (Rmdb.unlock v.owner.txn id v.mgr).2.2.lockers id := by
      simpa [OwnerView.unlocked, OwnerView.setEnding] using hreleased
    rcases hor with hold | ⟨hmem, -⟩
    · exact h.released hold (.inl hstate)
    · rw [h.txnId] at hmem
      exact h.fresh hstate id hmem
  · rintro hback
    rcases hending with rfl | ⟨left, commits, active, -, rfl⟩ <;> cases hback
  · intro left' commits' active' hreleasing
    rcases hending with rfl | ⟨left, commits, active, hbefore, rfl⟩
    · cases hreleasing
    · -- in the loop, what is left in the queues is left in the lock set
      cases hreleasing
      refine ⟨nofun, fun hact => ?_⟩
      obtain ⟨hfin, hleft⟩ := (h.releasing left _ _ hbefore).2 hact
      refine ⟨hfinished.trans hfin, fun id' hmem => ?_⟩
      rw [hsub hfin] at hmem
      exact Finset.mem_erase.mpr ⟨hmem.2, hleft id' hmem.1⟩

/-- **The unlock loop begins** with the lock set. -/
theorem release (h : o.Inv m t) {txn : Transaction} {commits active : Bool}
    (htxn : txn = { o.txn with writeSet := txn.writeSet }) (hactive : active = true → o.txn.Active) :
    LockOwner.Inv m t { o with txn := txn, ending := .releasing o.txn.lockSet commits active } := by
  have hstate : txn.state = o.txn.state := by rw [htxn]
  have hset : txn.lockSet = o.txn.lockSet := by rw [htxn]
  have hid : txn.txnId = o.txn.txnId := by rw [htxn]
  have hact : txn.Active ↔ o.txn.Active := by
    unfold Transaction.Active
    rw [hstate]
  constructor
  · exact hid.trans h.txnId
  · intro hdefault
    exact h.fresh (hstate ▸ hdefault)
  · intro hor id
    show txn.txnId ∈ m.lockers id ↔ id ∈ txn.lockSet
    rw [hid, hset]
    exact h.owned (hor.imp_right hact.mp) id
  · intro hreleased
    rw [hact]
    exact h.released hreleased
  · nofun
  · intro left' commits' active' hending
    cases hending
    refine ⟨fun _ => hset.symm, fun ha => ⟨?_, fun id hmem => ?_⟩⟩
    · exact (hact.mpr (hactive ha)).not_finished
    · have howned := h.owned (.inr (hactive ha)) id
      rw [h.txnId] at howned
      exact howned.mp hmem

/-- **The unlock loop is done.** -/
theorem finish (h : v.owner.Inv m t) {commits active : Bool}
    (hending : v.owner.ending = .releasing ∅ commits active) : (v.finished commits).owner.Inv m t := by
  obtain ⟨hleft, -⟩ := h.releasing ∅ commits active hending
  have hover : ¬ (v.finished commits).owner.txn.Active := by
    unfold Transaction.Active OwnerView.finished
    cases commits <;> simp
  constructor
  · show (if commits then _ else _ : Transaction).txnId = t
    split <;> exact h.txnId
  · intro hdefault
    exact absurd (.inl hdefault) hover
  · rintro (hnever | hact)
    · have howned := h.owned (.inl hnever)
      cases commits with
      | true => exact howned
      | false =>
        -- the lock set has been empty all along
        intro id
        have hid := howned id
        rw [← hleft hnever] at hid
        exact hid
    · exact absurd hact hover
  · exact fun _ => hover
  · nofun
  · nofun

end LockOwner.Inv

/-! ### Every step -/

section Steps

variable {v v' : OwnerView} {t : TxnId} {a : EndAct}

/-- What the transaction does to the lock table. -/
structure OwnerView.Kept (t : TxnId) (v v' : OwnerView) : Prop where
  inv : v'.mgr.Inv
  owner : v'.owner.Inv v'.mgr t
  others : ∀ t', t' ≠ t → ∀ id, t' ∈ v'.mgr.lockers id ↔ t' ∈ v.mgr.lockers id

/-- The lock table stays. -/
theorem OwnerView.Kept.same (hm : v.mgr.Inv) (hmgr : v'.mgr = v.mgr) (h : v'.owner.Inv v.mgr t) :
    v.Kept t v' := by
  refine ⟨by rwa [hmgr], by rwa [hmgr], fun t' _ id => ?_⟩
  rw [hmgr]

theorem OwnerView.kept_lock (hm : v.mgr.Inv) (h : v.owner.Inv v.mgr t) (c : LockCall)
    (hending : ∀ left commits active, v.owner.ending ≠ .releasing left commits active) :
    v.Kept t (v.locked c) where
  inv := c.run_inv hm v.owner.txn
  owner := h.lock c hending
  others t' hne id := c.run_lockers_other v.mgr (by rwa [h.txnId]) id

theorem OwnerView.kept_unlock (hm : v.mgr.Inv) (h : v.owner.Inv v.mgr t) {id : LockDataId} {ending : Ending}
    (hending : ending = .outside ∨ ∃ left commits active,
      v.owner.ending = .releasing left commits active ∧ ending = .releasing (left.erase id) commits active) :
    v.Kept t ((v.unlocked id).setEnding ending) where
  inv := unlock_inv hm v.owner.txn id
  owner := h.unlock hm hending
  others t' hne id' := unlock_lockers_other hm (by rwa [h.txnId]) id'

/-- **A step keeps the invariant of the transaction**, and what the others have in the queues. -/
theorem OwnerView.step_inv (hm : v.mgr.Inv) (h : v.owner.Inv v.mgr t) (hs : v.step a = some v') :
    v.Kept t v' := by
  cases a with
  | lock c =>
    simp only [OwnerView.step] at hs
    cases hending : v.owner.ending with
    | outside =>
      simp only [hending, Option.some.injEq] at hs
      subst hs
      exact v.kept_lock hm h c (by simp [hending])
    | rollingBack active =>
      have hkept := v.kept_lock hm h c (by simp [hending])
      cases hout : (c.run v.owner.txn v.mgr).1 with
      | ok b =>
        simp only [hending, hout, Option.some.injEq] at hs
        subst hs
        exact hkept
      | error e =>
        -- the exception leaves `abort`
        simp only [hending, hout, Option.some.injEq] at hs
        subst hs
        exact ⟨hkept.inv, hkept.owner.outside, hkept.others⟩
    | releasing left commits active => simp [hending] at hs
  | unlock id =>
    simp only [OwnerView.step] at hs
    cases hending : v.owner.ending with
    | outside =>
      simp only [hending, Option.some.injEq] at hs
      subst hs
      have hkept : v.Kept t ((v.unlocked id).setEnding .outside) := v.kept_unlock hm h (.inl rfl)
      have heq : (v.unlocked id).setEnding .outside = v.unlocked id := by
        simp [OwnerView.setEnding, OwnerView.unlocked, hending]
      rwa [heq] at hkept
    | rollingBack active => simp [hending] at hs
    | releasing left commits active =>
      -- the unlock loop comes to `id`
      simp only [hending, Option.ite_none_right_eq_some, Option.some.injEq] at hs
      obtain ⟨-, rfl⟩ := hs
      exact v.kept_unlock hm h (.inr ⟨left, commits, active, hending, rfl⟩)
  | commit =>
    simp only [OwnerView.step] at hs
    split at hs
    · -- the loop begins at once: the write set needs no locks
      cases hs
      exact .same hm rfl (h.release rfl fun ha => of_decide_eq_true ha)
    · cases hs
  | abort =>
    simp only [OwnerView.step] at hs
    split at hs
    · cases hs
      refine .same hm rfl ⟨h.txnId, h.fresh, h.owned, h.released, fun hback => ?_, nofun⟩
      have hact : decide v.owner.txn.Active = true := Ending.rollingBack.inj hback
      exact of_decide_eq_true hact
    · cases hs
  | rolledBack =>
    simp only [OwnerView.step] at hs
    split at hs
    · next active hending =>
      cases hs
      refine .same hm rfl (h.release rfl fun ha => h.rollingBack ?_)
      rw [hending, ha]
    · cases hs
  | finish =>
    simp only [OwnerView.step] at hs
    split at hs
    · next left commits active hending =>
      split at hs
      · next hleft =>
        -- every lock of the set has been given back
        cases hs
        exact .same hm rfl (h.finish (hleft ▸ hending))
      · cases hs
    · cases hs

/-- The invariant of the whole. -/
structure LockClients.Inv (s : LockClients) : Prop where
  mgr : s.mgr.Inv
  owners : ∀ t, (s.owners t).Inv s.mgr t

theorem LockClients.start_inv : LockClients.start.Inv where
  mgr := LockManager.inv_empty
  owners t := by
    have hnone : ∀ id, t ∉ LockManager.empty.lockers id := by
      intro id
      simp [LockManager.lockers, LockManager.requests, LockManager.empty, LockRequestQueue.empty]
    constructor
    · rfl
    · exact fun _ => hnone
    · intro _ id
      exact iff_of_false (hnone id) (Finset.notMem_empty id)
    · intro hreleased
      cases hreleased
    · intro hback
      cases hback
    · intro left commits active hreleasing
      cases hreleasing

theorem LockClients.Inv.step {s s' : LockClients} (h : s.Inv) (hs : s.step t a = some s') : s'.Inv := by
  obtain ⟨v', hv, rfl⟩ := Option.map_eq_some_iff.mp hs
  have hkept := OwnerView.step_inv (v := s.view t) h.mgr (h.owners t) hv
  refine ⟨hkept.inv, fun t' => ?_⟩
  show (Function.update s.owners t v'.owner t').Inv v'.mgr t'
  by_cases ht : t' = t
  · subst ht
    rw [Function.update_self]
    exact hkept.owner
  · rw [Function.update_of_ne ht]
    exact (h.owners t').frame (hkept.others t' ht)

theorem lockClients_inv {s : LockClients} (h : lockClients.Reachable s) : s.Inv := by
  refine h.invariant ?_ ?_
  · rintro s rfl
    exact LockClients.start_inv
  · intro s a s' hinv hs
    exact hinv.step hs

end Steps

/-! ### What follows -/

/-- The group mode of a queue is the one that `unlock` computes. -/
theorem LockManager.Inv.groupMode_eq {m : LockManager} (h : m.Inv) (id : LockDataId) :
    m.groupMode id = regroup (m.requests id) := by
  have hq := h.queue id
  exact hq.lub.unique (regroup_isLUB (ix_ne_shared hq.nodup hq.compat))

/-- **Lock sets and queues.**  In every state, up to the first `unlock` of a transaction its lock set has
just the locks in whose queue it has a request; once one of its locks has been released, no lock function
grants it a lock; and when `commit` or `abort` returns that was called for a `DEFAULT` or `GROWING`
transaction, no queue has a request of it, and every group mode is that of the requests in the queue. -/
theorem lockSets_agree {s : LockClients} (h : lockClients.Reachable s) (t : TxnId) :
    ((s.owners t).unlocked = false → ∀ id, id ∈ (s.owners t).txn.lockSet ↔ t ∈ s.mgr.lockers id) ∧
    ((s.owners t).released = true → ∀ c : LockCall,
      (c.run (s.owners t).txn s.mgr).1 ≠ .ok true ∧ (c.run (s.owners t).txn s.mgr).2.2 = s.mgr) ∧
    ∀ left commits s', (s.owners t).ending = .releasing left commits true → s.step t .finish = some s' →
      ∀ id, t ∉ s'.mgr.lockers id ∧ s'.mgr.groupMode id = regroup (s'.mgr.requests id) := by
  have hinv := lockClients_inv h
  have ht := hinv.owners t
  refine ⟨fun hnever id => ?_, fun hreleased c => ?_, fun left commits s' hending hs id => ?_⟩
  · have howned := ht.owned (.inl hnever) id
    rw [ht.txnId] at howned
    exact howned.symm
  · obtain ⟨hout, hsame⟩ := c.run_not_active (ht.released hreleased) s.mgr
    exact ⟨hout, by rw [hsame]⟩
  · refine ⟨?_, (hinv.step hs).mgr.groupMode_eq id⟩
    obtain ⟨v', hv, rfl⟩ := Option.map_eq_some_iff.mp hs
    have hview : (s.view t).owner.ending = .releasing left commits true := hending
    simp only [OwnerView.step, hview, Option.ite_none_right_eq_some, Option.some.injEq] at hv
    obtain ⟨rfl, rfl⟩ := hv
    intro hmem
    exact absurd ((ht.releasing ∅ commits true hending).2 rfl |>.2 id hmem) (Finset.notMem_empty id)

/-- Transaction 0 locks table 3 and a record of it, is rolled back, which takes one more record lock, and
gives the locks back; transaction 1 has read-locked table 4. -/
def rolledBackRun : List (TxnId × EndAct) :=
  [(1, .lock (.sharedOnTable 4)), (0, .lock (.ixOnTable 3)), (0, .lock (.exclusiveOnRecord ⟨1, 0⟩ 3)),
    (0, .abort), (0, .lock (.exclusiveOnRecord ⟨1, 1⟩ 3)), (0, .rolledBack),
    (0, .unlock (.ofRecord 3 ⟨1, 1⟩)), (0, .unlock (.ofTable 3)), (0, .unlock (.ofRecord 3 ⟨1, 0⟩))]

/-- **After this `abort`** no queue has a request of transaction 0. -/
theorem lockSets_agree_rolled_back : ∃ s s', lockClients.Reachable s ∧ s.step 0 .finish = some s' ∧
    (s.owners 0).released = true ∧ ∀ id, 0 ∉ s'.mgr.lockers id ∧
      s'.mgr.groupMode id = regroup (s'.mgr.requests id) := by
  have hrun : ∃ s s', rolledBackRun.foldlM (fun s a => s.step a.1 a.2) LockClients.start = some s ∧
      (s.owners 0).released = true ∧ (s.owners 0).ending = .releasing ∅ false true ∧
      s.step 0 .finish = some s' := ⟨_, _, rfl, rfl, rfl, rfl⟩
  obtain ⟨s, s', hrun, hreleased, hending, hfinish⟩ := hrun
  have hreach : lockClients.Reachable s :=
    TransitionSystem.Reachable.foldlM (M := lockClients) (fun _ _ _ hs => hs) (.init rfl) hrun
  exact ⟨s, s', hreach, hfinish, hreleased, (lockSets_agree hreach 0).2.2 ∅ false s' hending hfinish⟩

end Rmdb
