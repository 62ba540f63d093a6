import Rmdb.Server.ClientHandler
import Rmdb.Transaction.HeldLocks

namespace Rmdb

open Lib

/-!
# Sessions and their transactions

What every step of the server keeps, whatever the sessions do:

* `Thread.Moves` — the cases of `Thread.step`, each with the place it starts from and its result;
* `Server.step_cases` — the cases of `Server.step`;
* `Server.Wf` — a transaction belongs to the thread that has begun it, and it is the current one of
  that session or has ended.
-/

/-! ### The cases of a step -/

/-- The cases of `Thread.step`. -/
inductive Thread.Moves (i : ℕ) (th : Thread) : ThreadStep → Thread → Prop
  | done : th.pc = .executing [] → Moves i th .act { th with pc := .replying }
  | exec {a : ExecAction} {todo : List ExecAction} :
      th.pc = .executing (a :: todo) → Moves i th .act (th.exec todo a)
  | undoLock {caller : Caller} {c : LockCall} {todo : List LockCall} :
      th.pc = .rollingBack caller (some (c :: todo)) → Moves i th .act (th.undoLock caller todo c)
  | undone {caller : Caller} : th.pc = .rollingBack caller (some []) →
      Moves i th .act { th with
        pc := .rollingBack caller none
        txn := { th.txn with writeSet := th.txn.writeSet.dropLast } }
  | error {todo : List ExecAction} : th.pc = .executing todo →
      Moves i th .error { th with pc := .replying }
  | leave {caller : Caller} {todo : Option (List LockCall)} : th.pc = .rollingBack caller todo →
      Moves i th .error (th.leaveRollback caller)
  | commit {caller : Caller} : th.pc = .ending true caller → th.latch = none →
      Moves i th .latch { th with
        pc := .releasing true caller th.txn.lockSet
        txn := { th.txn with writeSet := [] }
        latch := some i }
  | abort {caller : Caller} : th.pc = .ending false caller → th.latch = none →
      Moves i th .latch { th with pc := .rollingBack caller none, latch := some i }
  | undo {caller : Caller} {fd : Int} {newRid : Rid} {w : WriteRecord} :
      th.pc = .rollingBack caller none → th.txn.writeSet.getLast? = some w →
      Moves i th (.undo fd newRid)
        { th with pc := .rollingBack caller (some (w.undoCalls fd newRid)) }
  | rolledBack {caller : Caller} : th.pc = .rollingBack caller none → th.txn.writeSet = [] →
      Moves i th .rolledBack { th with pc := .releasing false caller th.txn.lockSet }
  | unlock {commits : Bool} {caller : Caller} {left : Finset LockDataId} {id : LockDataId} :
      th.pc = .releasing commits caller left → id ∈ left →
      Moves i th (.unlock id) { th with
        pc := .releasing commits caller (left.erase id)
        txn := (Rmdb.unlock th.txn id th.lockMgr).2.1
        lockMgr := (Rmdb.unlock th.txn id th.lockMgr).2.2 }
  | finish {commits : Bool} {caller : Caller} : th.pc = .releasing commits caller ∅ →
      Moves i th .finish (th.finish commits caller)
  | fail : th.pc = .replying → Moves i th (.reply false) { th with pc := .closed }
  | autocommit : th.pc = .replying → th.txn.txnMode = false →
      Moves i th (.reply true) { th with pc := .ending true .autocommit }
  | next : th.pc = .replying → th.txn.txnMode = true →
      Moves i th (.reply true) { th with pc := .reading }

theorem Thread.step_moves {i : ℕ} {th th' : Thread} {a : ThreadStep}
    (h : th.step i a = some th') : Thread.Moves i th a th' := by
  cases a with
  | act =>
    -- an action or the lock of an undone one, and the end of either list
    simp only [Thread.step] at h
    split at h
    · cases h
      exact .done (by assumption)
    · cases h
      exact .exec (by assumption)
    · cases h
      exact .undoLock (by assumption)
    · cases h
      exact .undone (by assumption)
    · cases h
  | error =>
    simp only [Thread.step] at h
    split at h
    · cases h
      exact .error (by assumption)
    · cases h
      exact .leave (by assumption)
    · cases h
  | latch =>
    -- the latch is free: `commit` or `abort` begins
    simp only [Thread.step] at h
    split at h
    · cases h
      exact .commit (by assumption) (by assumption)
    · cases h
      exact .abort (by assumption) (by assumption)
    · cases h
  | undo fd newRid =>
    -- a write of the write set
    simp only [Thread.step] at h
    split at h
    · cases h
      exact .undo (by assumption) (by assumption)
    · cases h
  | rolledBack =>
    simp only [Thread.step] at h
    split at h
    · cases h
      exact .rolledBack (by assumption) (by assumption)
    · cases h
  | unlock id =>
    -- a lock of the lock set, in any order
    simp only [Thread.step] at h
    split at h
    · split at h
      · cases h
        exact .unlock (by assumption) (by assumption)
      · cases h
    · cases h
  | finish =>
    simp only [Thread.step] at h
    split at h
    · rename_i hpc
      split at h
      · rename_i hleft
        cases h
        exact .finish (by rw [hpc, hleft])
      · cases h
    · cases h
  | reply sent =>
    -- a reply that cannot be sent ends the session; one that is sent commits a single statement
    simp only [Thread.step] at h
    split at h
    · rename_i hpc
      cases sent with
      | false =>
        cases h
        exact .fail hpc
      | true =>
        cases hmode : th.txn.txnMode with
        | false =>
          simp only [hmode, Bool.true_eq_false, if_false, if_true] at h
          cases h
          exact .autocommit hpc hmode
        | true =>
          simp only [hmode, Bool.true_eq_false, if_false] at h
          cases h
          exact .next hpc hmode
    · cases h

/-- The cases of `Server.step`. -/
theorem Server.step_cases {s s' : Server} {a : ServerStep} (h : s.step a = some s') :
    (∃ i req th, a = .receive i req ∧ (s.sessions i).pc = .reading ∧ s.latch = none ∧
      (s.setTransaction i).thread i = some th ∧
      s' = (s.setTransaction i).put i (th.dispatch req)) ∨
    (∃ i how, a = .hangUp i how ∧ (s.sessions i).pc = .reading ∧
      s' = { s with
        sessions := Function.update s.sessions i { s.sessions i with pc := .closed } }) ∨
    (∃ i, a = .crash i ∧ s' = { s with alive := false }) ∨
    (∃ i b th th', a = .run i b ∧ s.thread i = some th ∧ Thread.Moves i th b th' ∧
      s' = s.put i th') := by
  unfold Server.step at h
  split at h
  · cases h
  cases a with
  | receive i req =>
    refine Or.inl ?_
    simp only at h
    split at h
    · obtain ⟨th, hth, rfl⟩ := Option.map_eq_some_iff.mp h
      exact ⟨i, req, th, rfl, by assumption, by assumption, hth, rfl⟩
    · cases h
  | hangUp i how =>
    refine Or.inr (Or.inl ?_)
    simp only at h
    split at h
    · cases h
      exact ⟨i, how, rfl, by assumption, rfl⟩
    · cases h
  | crash i =>
    refine Or.inr (Or.inr (Or.inl ?_))
    simp only at h
    split at h
    · cases h
      exact ⟨i, rfl, rfl⟩
    · cases h
  | run i b =>
    refine Or.inr (Or.inr (Or.inr ?_))
    obtain ⟨th, hth, h⟩ := Option.bind_eq_some_iff.mp h
    obtain ⟨th', hstep, rfl⟩ := Option.map_eq_some_iff.mp h
    exact ⟨i, b, th, th', rfl, hth, Thread.step_moves hstep, rfl⟩

/-- The thread of a session is its current transaction with what all threads share. -/
theorem Server.thread_eq {s : Server} {i : ℕ} {th : Thread} (h : s.thread i = some th) :
    (s.sessions i).txnId ≠ invalidTxnId ∧ s.txnMap (s.sessions i).txnId = some th.txn ∧
    th.pc = (s.sessions i).pc ∧ th.lockMgr = s.lockMgr ∧ th.logMgr = s.logMgr := by
  obtain ⟨txn, htxn, rfl⟩ := Option.map_eq_some_iff.mp h
  unfold Server.txn at htxn
  split at htxn
  · cases htxn
  · exact ⟨by assumption, htxn, rfl, rfl, rfl⟩

/-! ### What a thread leaves alone -/

@[simp] theorem appendLog_txn (txn : Transaction) (logMgr : LogManager) (body : LogBody) :
    (appendLog txn logMgr body).1.txnId = txn.txnId ∧
    (appendLog txn logMgr body).1.state = txn.state ∧
    (appendLog txn logMgr body).1.lockSet = txn.lockSet ∧
    (appendLog txn logMgr body).1.txnMode = txn.txnMode :=
  ⟨rfl, rfl, rfl, rfl⟩

/-- The result of a lock call in a statement. -/
theorem Thread.exec_lock (th : Thread) (todo : List ExecAction) (c : LockCall) :
    (th.exec todo (.lock c)).txn = (c.run th.txn th.lockMgr).2.1 ∧
    (th.exec todo (.lock c)).lockMgr = (c.run th.txn th.lockMgr).2.2 ∧
    (th.exec todo (.lock c)).logMgr = th.logMgr ∧
    ((th.exec todo (.lock c)).pc = .executing todo ∨
      (∃ e, (c.run th.txn th.lockMgr).1 = .error e) ∧
        (th.exec todo (.lock c)).pc = .ending false .handler) := by
  simp only [Thread.exec]
  rcases c.run th.txn th.lockMgr with ⟨e | _, txn, mgr⟩
  · exact ⟨rfl, rfl, rfl, Or.inr ⟨⟨e, rfl⟩, rfl⟩⟩
  · exact ⟨rfl, rfl, rfl, Or.inl rfl⟩

/-- The result of a lock call in the rollback. -/
theorem Thread.undoLock_eq (th : Thread) (caller : Caller) (todo : List LockCall) (c : LockCall) :
    (th.undoLock caller todo c).txn = (c.run th.txn th.lockMgr).2.1 ∧
    (th.undoLock caller todo c).lockMgr = (c.run th.txn th.lockMgr).2.2 ∧
    (th.undoLock caller todo c).logMgr = th.logMgr ∧
    ((th.undoLock caller todo c).pc = .rollingBack caller (some todo) ∨
      caller = .command ∧ (th.undoLock caller todo c).pc = .ending false .handler ∨
      (th.undoLock caller todo c).pc = th.pc) := by
  unfold Thread.undoLock
  rcases c.run th.txn th.lockMgr with ⟨_ | _, txn, mgr⟩
  · cases caller with
    | command => exact ⟨rfl, rfl, rfl, Or.inr (Or.inl ⟨rfl, rfl⟩)⟩
    | handler => exact ⟨rfl, rfl, rfl, Or.inr (Or.inr rfl)⟩
    | autocommit => exact ⟨rfl, rfl, rfl, Or.inr (Or.inr rfl)⟩
  · exact ⟨rfl, rfl, rfl, Or.inl rfl⟩

/-- The result of an error in the rollback. -/
theorem Thread.leaveRollback_eq (th : Thread) (caller : Caller) :
    (th.leaveRollback caller).txn = th.txn ∧ (th.leaveRollback caller).lockMgr = th.lockMgr ∧
    (th.leaveRollback caller).logMgr = th.logMgr ∧
    (caller = .command ∧ (th.leaveRollback caller).pc = .replying ∨ (th.leaveRollback caller).pc = th.pc) := by
  cases caller with
  | command => exact ⟨rfl, rfl, rfl, Or.inl ⟨rfl, rfl⟩⟩
  | handler => exact ⟨rfl, rfl, rfl, Or.inr rfl⟩
  | autocommit => exact ⟨rfl, rfl, rfl, Or.inr rfl⟩

/-- A thread keeps working on the same transaction. -/
theorem Thread.Moves.txnId {i : ℕ} {th th' : Thread} {a : ThreadStep}
    (h : Thread.Moves i th a th') : th'.txn.txnId = th.txn.txnId := by
  cases h with
  | @exec a todo hpc =>
    cases a with
    | lock c =>
      rw [(th.exec_lock todo c).1]
      exact c.run_txnId th.txn th.lockMgr
    | log change => rfl
    | write w => rfl
  | @undoLock caller c todo hpc =>
    rw [(th.undoLock_eq caller todo c).1]
    exact c.run_txnId th.txn th.lockMgr
  | @leave caller todo hpc => rw [(th.leaveRollback_eq caller).1]
  | unlock hpc hid => exact unlock_txnId _ _ _
  | @finish commits caller hpc => cases commits <;> rfl
  | _ => rfl

theorem Thread.dispatch_txnId (th : Thread) (req : Request) :
    (th.dispatch req).txn.txnId = th.txn.txnId := by
  cases req <;> rfl

/-! ### The transactions of a session -/

/-- **Well-formedness.** The transaction table is keyed by number, each transaction belongs to the
    session that has begun it, and a transaction that is not the current one of its session has
    ended. -/
structure Server.Wf (s : Server) : Prop where
  next : 0 ≤ s.nextTxnId
  key : ∀ t txn, s.txnMap t = some txn → txn.txnId = t ∧ 0 ≤ t ∧ t < s.nextTxnId
  owned : ∀ t txn, s.txnMap t = some txn →
    ∃ i, s.threadId t = some i ∧ ((s.sessions i).txnId = t ∨ txn.finished = true)
  known : ∀ t i, s.threadId t = some i → ∃ txn, s.txnMap t = some txn
  session : ∀ i, (s.sessions i).txnId = invalidTxnId ∨ s.threadId (s.sessions i).txnId = some i

theorem Server.wf_start : Server.start.Wf where
  next := le_refl 0
  key := by simp [Server.start]
  owned := by simp [Server.start]
  known := by simp [Server.start]
  session _ := Or.inl rfl

variable {s : Server}

/-- The current transaction of a session carries the session's number. -/
theorem Server.Wf.thread (h : s.Wf) {i : ℕ} {th : Thread} (hth : s.thread i = some th) :
    th.txn.txnId = (s.sessions i).txnId :=
  (h.key _ _ (Server.thread_eq hth).2.1).1

/-- The current transactions of two sessions are different. -/
theorem Server.Wf.ne_of_ne (h : s.Wf) {i j : ℕ} (hj : (s.sessions j).txnId ≠ invalidTxnId)
    (hij : j ≠ i) : (s.sessions j).txnId ≠ (s.sessions i).txnId := by
  intro he
  have hthread := (h.session j).resolve_left hj
  rcases h.session i with hi | hi
  · exact hj (he.trans hi)
  · rw [he, hi] at hthread
    exact hij (Option.some.inj hthread).symm

/-- A number in use is below the next one. -/
theorem Server.Wf.used_ne (h : s.Wf) {t : TxnId} {i : ℕ} (ht : s.threadId t = some i) : t ≠ s.nextTxnId := by
  obtain ⟨txn, ht⟩ := h.known _ _ ht
  exact (h.key _ _ ht).2.2.ne

/-- The next number is free. -/
theorem Server.Wf.next_free (h : s.Wf) : s.txnMap s.nextTxnId = none := by
  cases ht : s.txnMap s.nextTxnId with
  | none => rfl
  | some txn => exact absurd (h.key _ _ ht).2.2 (lt_irrefl _)

theorem Server.Wf.begin (h : s.Wf) {i : ℕ}
    (hdone : ∀ txn, s.txn i = some txn → txn.finished = true) : (s.begin i).Wf where
  next := Int.le_add_one h.next
  key t txn ht := by
    simp only [Server.begin, Function.update_apply] at ht ⊢
    split at ht
    · rename_i he
      cases ht
      exact ⟨he.symm, he ▸ h.next, he ▸ Int.lt_succ _⟩
    · obtain ⟨hid, h0, hlt⟩ := h.key t txn ht
      exact ⟨hid, h0, lt_trans hlt (Int.lt_succ _)⟩
  owned t txn ht := by
    simp only [Server.begin, Function.update_apply] at ht ⊢
    split at ht
    · rename_i he
      exact ⟨i, by rw [if_pos he], Or.inl (by rw [if_pos rfl]; exact he.symm)⟩
    · rename_i hne
      obtain ⟨j, hj, hcur⟩ := h.owned t txn ht
      refine ⟨j, by rw [if_neg hne]; exact hj, ?_⟩
      by_cases hij : j = i
      · -- the transaction `i` leaves behind has ended
        subst hij
        refine Or.inr (hcur.elim (fun he => hdone txn ?_) id)
        have hne' : t ≠ invalidTxnId := by
          rintro rfl
          exact absurd (h.key _ txn ht).2.1 (by decide)
        rw [Server.txn, he, if_neg hne', ht]
      · rw [if_neg hij]
        exact hcur
  known t j hj := by
    simp only [Server.begin, Function.update_apply] at hj ⊢
    split at hj
    · rename_i he
      exact ⟨_, if_pos he⟩
    · rename_i hne
      obtain ⟨txn, ht⟩ := h.known t j hj
      exact ⟨txn, by rw [if_neg hne]; exact ht⟩
  session j := by
    simp only [Server.begin, Function.update_apply]
    by_cases hij : j = i
    · subst hij
      exact Or.inr (by simp)
    · rw [if_neg hij]
      rcases h.session j with hj | hj
      · exact Or.inl hj
      · refine Or.inr ?_
        rw [if_neg (h.used_ne hj)]
        exact hj

/-- `SetTransaction` begins a transaction where there is none, or goes on with that of the session. -/
theorem Server.setTransaction_cases (s : Server) (i : ℕ) :
    (s.setTransaction i = s.begin i ∧ ∀ txn, s.txn i = some txn → txn.finished = true) ∨
    (s.setTransaction i = s ∧ ∃ txn, s.txn i = some txn ∧ txn.finished = false) := by
  unfold Server.setTransaction
  cases htxn : s.txn i with
  | none => exact .inl ⟨rfl, by simp⟩
  | some txn =>
    by_cases hst : txn.state = .committed ∨ txn.state = .aborted
    · refine .inl ⟨if_pos hst, fun txn' h' => ?_⟩
      obtain rfl := Option.some.inj h'
      simpa [Transaction.finished] using hst
    · refine .inr ⟨if_neg hst, txn, rfl, ?_⟩
      simpa [Transaction.finished] using hst

/-- Every session stays where it is. -/
theorem Server.setTransaction_pc (s : Server) (i j : ℕ) :
    ((s.setTransaction i).sessions j).pc = (s.sessions j).pc := by
  rcases s.setTransaction_cases i with ⟨heq, -⟩ | ⟨heq, -⟩
  · rw [heq]
    by_cases hij : j = i
    · subst hij
      simp [Server.begin]
    · simp [Server.begin, Function.update_of_ne hij]
  · rw [heq]

theorem Server.Wf.setTransaction (h : s.Wf) (i : ℕ) : (s.setTransaction i).Wf := by
  rcases s.setTransaction_cases i with ⟨heq, hdone⟩ | ⟨heq, -⟩
  · rw [heq]
    exact h.begin hdone
  · rw [heq]
    exact h

theorem Server.Wf.put (h : s.Wf) {i : ℕ} {th th' : Thread} (hth : s.thread i = some th)
    (hid : th'.txn.txnId = th.txn.txnId) : (s.put i th').Wf := by
  have hcur := (Server.thread_eq hth).2.1
  have hkey := h.key _ _ hcur
  have hown := (h.session i).resolve_left (Server.thread_eq hth).1
  have hsame : ∀ j, ((s.put i th').sessions j).txnId = (s.sessions j).txnId := by
    intro j
    simp only [Server.put, Function.update_apply]
    split
    · rename_i he
      rw [he]
    · rfl
  refine ⟨h.next, fun t txn ht => ?_, fun t txn ht => ?_, fun t j hj => ?_, fun j => ?_⟩
  · simp only [Server.put, Function.update_apply] at ht
    split at ht
    · rename_i he
      cases ht
      rw [he]
      exact ⟨hid.trans hkey.1, hkey.2⟩
    · exact h.key t txn ht
  · simp only [hsame]
    simp only [Server.put, Function.update_apply] at ht ⊢
    split at ht
    · rename_i he
      exact ⟨i, he ▸ hown, Or.inl he.symm⟩
    · exact h.owned t txn ht
  · simp only [Server.put, Function.update_apply]
    split
    · exact ⟨_, rfl⟩
    · exact h.known t j hj
  · rw [hsame]
    exact h.session j

/-- A session that ends keeps its transactions. -/
theorem Server.Wf.close (h : s.Wf) (i : ℕ) :
    Server.Wf { s with
      sessions := Function.update s.sessions i { s.sessions i with pc := .closed } } := by
  have hsame : ∀ j, (Function.update s.sessions i { s.sessions i with pc := .closed } j).txnId =
      (s.sessions j).txnId := by
    intro j
    rw [Function.update_apply]
    split
    · rename_i he
      rw [he]
    · rfl
  refine ⟨h.next, h.key, fun t txn ht => ?_, h.known, fun j => ?_⟩
  · simpa only [hsame] using h.owned t txn ht
  · simpa only [hsame] using h.session j

/-- Every step keeps the server well-formed. -/
theorem Server.Wf.step (h : s.Wf) {a : ServerStep} {s' : Server} (hs : s.step a = some s') :
    s'.Wf := by
  rcases Server.step_cases hs with ⟨i, req, th, -, -, -, hth, rfl⟩ | ⟨i, how, -, -, rfl⟩ |
    ⟨i, -, rfl⟩ | ⟨i, b, th, th', -, hth, hmoves, rfl⟩
  · exact (h.setTransaction i).put hth (th.dispatch_txnId req)
  · exact h.close i
  · exact ⟨h.next, h.key, h.owned, h.known, h.session⟩
  · exact h.put hth hmoves.txnId

end Rmdb
