import Rmdb.Server.Sessions

namespace Rmdb

open Lib

/-!
# How transactions end

Whether a transaction is ended once.  In an explicit transaction it is: the commands and the
handler of `TransactionAbortException` end it, and the commit at the end of the loop leaves it
alone.  In the implicit transaction of a single statement that commit is unconditional, also after
a `commit`, `abort` or `rollback` command and after the handler has aborted the transaction.

* `Orderly` — no transaction command runs outside an explicit transaction, and no lock of an
  implicit transaction is refused;
* `transactions_end_once` — in orderly runs a transaction writes at most one `COMMIT` or `ABORT`
  record, and its final state stays;
* `refused_transaction_commits` — a refused lock makes a transaction that is aborted and then
  committed.
-/

/-- The record is a `COMMIT` or `ABORT` record of `t`. -/
def LogRecord.ends (r : LogRecord) (t : TxnId) : Bool :=
  r.logTid = t ∧ (r.body = .commit ∨ r.body = .abort)

/-- How many `COMMIT` and `ABORT` records of `t` are in the log. -/
def LogManager.ends (lm : LogManager) (t : TxnId) : ℕ := lm.file.countP (·.ends t)

/-- The request ends a transaction. -/
def Request.isEnd : Request → Bool
  | .commit | .abort | .rollback => true
  | .syntaxError | .begin | .statement _ => false

/-- The step keeps out of the two branches that the final commit is not made for: a command that
    ends a transaction is given inside an explicit transaction, and no lock request of an implicit
    transaction is refused. -/
def Orderly (s : Server) : ServerStep → Prop
  | .receive i req => req.isEnd = true →
    ∃ txn, s.txn i = some txn ∧ txn.finished = false ∧ txn.txnMode = true
  | .run i .act => ∀ th c todo, s.thread i = some th → th.pc = .executing (.lock c :: todo) →
    th.txn.txnMode = false → ∀ e, (c.run th.txn th.lockMgr).1 ≠ .error e
  | _ => True

/-- The server, with orderly steps only. -/
def orderlyServer : TransitionSystem Server ServerStep where
  init s := s = .start
  step s a s' := s.step a = some s' ∧ Orderly s a

/-! ### The log -/

/-- A new record counts when it ends the transaction. -/
theorem appendLog_ends (txn : Transaction) {lm : LogManager} (hb : lm.buffer = []) (body : LogBody)
    (t : TxnId) :
    (appendLog txn lm body).2.buffer = [] ∧
    (appendLog txn lm body).2.ends t =
      lm.ends t + if txn.txnId = t ∧ (body = .commit ∨ body = .abort) then 1 else 0 := by
  obtain ⟨hfile, hbuf, -⟩ :=
    lm.addLogToBuffer_file (.new txn.txnId txn.prevLsn body)
  refine ⟨hbuf, ?_⟩
  show List.countP _ (lm.addLogToBuffer _).2.file = _
  rw [hfile, hb, List.append_nil, List.countP_append, List.countP_singleton, LogManager.ends]
  exact congrArg _ (if_congr decide_eq_true_iff rfl rfl)

/-! ### One thread -/

/-- Where a thread may stand with a transaction that has ended, and with one that has not: a
    transaction is ended once by the commands and the handler when it is explicit, and once at
    the end of the loop when it is not. -/
def EndsAt (txn : Transaction) : Pc → Prop
  | .executing _ => txn.finished = false
  | .ending _ caller | .rollingBack caller _ | .releasing _ caller _ =>
    txn.finished = false ∧ (caller = .autocommit ∨ txn.txnMode = true)
  | .replying => txn.finished = true → txn.txnMode = true
  | .reading | .closed => True

/-- The log has the record of an ended transaction, and none of one that goes on. -/
structure EndsInv (th : Thread) : Prop where
  buffer : th.logMgr.buffer = []
  count : th.logMgr.ends th.txn.txnId = if th.txn.finished then 1 else 0
  pc : EndsAt th.txn th.pc

/-- What a step of a thread may change for the ends of transactions. -/
structure EndsStep (th th' : Thread) : Prop where
  inv : EndsInv th'
  others : ∀ t, t ≠ th.txn.txnId → th'.logMgr.ends t = th.logMgr.ends t
  state : th.txn.finished = true → th'.txn.state = th.txn.state

/-- Only the place and the parts of the transaction that do not matter here change. -/
theorem EndsInv.stay {th th' : Thread} (h : EndsInv th) (hlog : th'.logMgr = th.logMgr)
    (hid : th'.txn.txnId = th.txn.txnId) (hst : th'.txn.state = th.txn.state)
    (hpc : EndsAt th'.txn th'.pc) : EndsStep th th' := by
  have hfin : th'.txn.finished = th.txn.finished := by
    rw [Transaction.finished, Transaction.finished, hst]
  refine ⟨⟨by rw [hlog]; exact h.buffer, ?_, hpc⟩, fun t _ => by rw [hlog], fun _ => hst⟩
  rw [hlog, hid, hfin]
  exact h.count

/-- Neither log nor end of the transaction change. -/
theorem EndsInv.active {th th' : Thread} (h : EndsInv th) (hfin : th.txn.finished = false)
    (hlog : th'.logMgr = th.logMgr) (hid : th'.txn.txnId = th.txn.txnId)
    (hfin' : th'.txn.finished = false) (hpc : EndsAt th'.txn th'.pc) : EndsStep th th' := by
  refine ⟨⟨by rw [hlog]; exact h.buffer, ?_, hpc⟩, fun t _ => by rw [hlog], fun hf => ?_⟩
  · rw [hlog, hid, hfin', h.count, hfin]
  · rw [hfin] at hf
    cases hf

/-- The last record of a transaction is appended. -/
theorem EndsInv.appendLast {th : Thread} (h : EndsInv th) (hfin : th.txn.finished = false)
    (txn : Transaction) {body : LogBody} (htxn : txn.txnId = th.txn.txnId)
    (hbody : body = .commit ∨ body = .abort) :
    (appendLog txn th.logMgr body).2.buffer = [] ∧
      (appendLog txn th.logMgr body).2.ends th.txn.txnId = 1 ∧
      ∀ t, t ≠ th.txn.txnId → (appendLog txn th.logMgr body).2.ends t = th.logMgr.ends t := by
  have hcount := h.count
  rw [hfin] at hcount
  refine ⟨(appendLog_ends txn h.buffer body th.txn.txnId).1, ?_, fun t ht => ?_⟩
  · rw [(appendLog_ends txn h.buffer body th.txn.txnId).2, if_pos ⟨htxn, hbody⟩, hcount]
    rfl
  · have hne : ¬ (txn.txnId = t ∧ (body = .commit ∨ body = .abort)) := by
      rintro ⟨rfl, -⟩
      exact ht htxn
    rw [(appendLog_ends txn h.buffer body t).2, if_neg hne, Nat.add_zero]

/-- Where a thread goes when the transaction is over. -/
theorem endsAt_over {txn : Transaction} {caller : Caller}
    (h : caller = .autocommit ∨ txn.txnMode = true) :
    EndsAt txn (if caller = .autocommit then .reading else .replying) := by
  by_cases hc : caller = .autocommit
  · rw [if_pos hc]
    trivial
  · rw [if_neg hc]
    exact fun _ => h.resolve_left hc

/-- A call of an executor: a lock is refused to explicit transactions only. -/
theorem EndsInv.exec {th : Thread} (h : EndsInv th) {a : ExecAction} {todo : List ExecAction}
    (hfin : th.txn.finished = false)
    (hok : ∀ c, a = .lock c → th.txn.txnMode = false → ∀ e, (c.run th.txn th.lockMgr).1 ≠ .error e) :
    EndsStep th (th.exec todo a) := by
  cases a with
  | lock c =>
    obtain ⟨htxn, -, hlog, hnext⟩ := th.exec_lock todo c
    have hid : (th.exec todo (.lock c)).txn.txnId = th.txn.txnId := by
      rw [htxn]
      exact c.run_txnId th.txn th.lockMgr
    obtain ⟨hfin', hmode⟩ := c.run_active th.lockMgr hfin
    rw [← htxn] at hfin' hmode
    refine h.active hfin hlog hid hfin' ?_
    rcases hnext with hnext | ⟨⟨e, he⟩, hnext⟩
    · rw [hnext]
      exact hfin'
    · -- the lock is refused, so the transaction is explicit
      rw [hnext]
      refine ⟨hfin', Or.inr ?_⟩
      rw [hmode]
      cases hb : th.txn.txnMode with
      | true => rfl
      | false => exact absurd he (hok c rfl hb e)
  | log change =>
    obtain ⟨hbuf, -⟩ := appendLog_ends th.txn h.buffer (.change change) th.txn.txnId
    have hsame : ∀ t, (appendLog th.txn th.logMgr (.change change)).2.ends t =
        th.logMgr.ends t := fun t => by
      rw [(appendLog_ends th.txn h.buffer (.change change) t).2]
      simp
    exact ⟨⟨hbuf, (hsame _).trans h.count, hfin⟩, fun t _ => hsame t, fun _ => rfl⟩
  | write w => exact h.stay rfl rfl rfl hfin

/-- The rest of `commit` or `abort`: the one record of the transaction is the one that is appended here. -/
theorem EndsInv.finish {th : Thread} (h : EndsInv th) (commits : Bool) {caller : Caller}
    (hat : th.txn.finished = false ∧ (caller = .autocommit ∨ th.txn.txnMode = true)) :
    EndsStep th (th.finish commits caller) := by
  have hno : ¬ th.txn.finished = true := by
    rw [hat.1]
    decide
  cases commits with
  | true =>
    obtain ⟨hbuf, hone, hrest⟩ := h.appendLast hat.1 th.txn rfl (Or.inl rfl)
    exact ⟨⟨hbuf, hone, endsAt_over hat.2⟩, hrest, fun hf => absurd hf hno⟩
  | false =>
    obtain ⟨hbuf, hone, hrest⟩ :=
      h.appendLast hat.1 { th.txn with lockSet := ∅, writeSet := [] } rfl (Or.inr rfl)
    exact ⟨⟨hbuf, hone, endsAt_over hat.2⟩, hrest, fun hf => absurd hf hno⟩

/-- **One step.** A thread whose implicit transaction is not refused a lock ends its transaction
    once. -/
theorem Thread.Moves.ends {i : ℕ} {th th' : Thread} {a : ThreadStep} (hm : Thread.Moves i th a th')
    (h : EndsInv th)
    (hok : ∀ c todo, a = .act → th.pc = .executing (.lock c :: todo) → th.txn.txnMode = false →
      ∀ e, (c.run th.txn th.lockMgr).1 ≠ .error e) : EndsStep th th' := by
  have hat := h.pc
  have hid := hm.txnId
  cases hm with
  | done hpc =>
    rw [hpc] at hat
    refine h.stay rfl rfl rfl fun hf => ?_
    rw [hat] at hf
    cases hf
  | error hpc =>
    rw [hpc] at hat
    refine h.stay rfl rfl rfl fun hf => ?_
    rw [hat] at hf
    cases hf
  | @exec a todo hpc =>
    rw [hpc] at hat
    exact h.exec hat fun c hc => hok c todo rfl (hc ▸ hpc)
  | @undoLock caller c todo hpc =>
    rw [hpc] at hat
    obtain ⟨htxn, -, hlog, hnext⟩ := th.undoLock_eq caller todo c
    obtain ⟨hfin, hmode⟩ := c.run_active th.lockMgr hat.1
    rw [← htxn] at hfin hmode
    refine h.active hat.1 hlog hid hfin ?_
    rcases hnext with hnext | ⟨hcaller, hnext⟩ | hnext
    · rw [hnext]
      exact ⟨hfin, hmode ▸ hat.2⟩
    · rw [hnext]
      refine ⟨hfin, Or.inr (hmode ▸ hat.2.resolve_left ?_)⟩
      rw [hcaller]
      decide
    · rw [hnext, hpc]
      exact ⟨hfin, hmode ▸ hat.2⟩
  | @leave caller todo hpc =>
    rw [hpc] at hat
    obtain ⟨htxn, -, hlog, hnext⟩ := th.leaveRollback_eq caller
    refine h.stay hlog hid (by rw [htxn]) ?_
    rw [htxn]
    rcases hnext with ⟨-, hnext⟩ | hnext
    · -- the transaction goes on, with what is left of its write set
      rw [hnext]
      intro hf
      rw [hat.1] at hf
      cases hf
    · rw [hnext, hpc]
      exact hat
  | undone hpc =>
    rw [hpc] at hat
    exact h.stay rfl rfl rfl hat
  | commit hpc _ =>
    rw [hpc] at hat
    exact h.stay rfl rfl rfl hat
  | abort hpc _ =>
    rw [hpc] at hat
    exact h.stay rfl rfl rfl hat
  | undo hpc _ =>
    rw [hpc] at hat
    exact h.stay rfl rfl rfl hat
  | rolledBack hpc _ =>
    rw [hpc] at hat
    exact h.stay rfl rfl rfl hat
  | @unlock commits caller left id hpc hmem =>
    rw [hpc] at hat
    obtain ⟨-, -, -, hmode, hfin⟩ := unlock_txn th.txn id th.lockMgr
    rw [hat.1] at hfin
    exact h.active hat.1 rfl hid hfin ⟨hfin, hmode ▸ hat.2⟩
  | @finish commits caller hpc =>
    rw [hpc] at hat
    exact h.finish commits hat
  | fail hpc => exact h.stay rfl rfl rfl trivial
  | autocommit hpc hmode =>
    rw [hpc] at hat
    refine h.stay rfl rfl rfl ⟨?_, Or.inl rfl⟩
    -- a finished transaction at this point would be explicit
    cases hf : th.txn.finished with
    | false => rfl
    | true => exact absurd ((hat hf).symm.trans hmode) (by decide)
  | next hpc _ => exact h.stay rfl rfl rfl trivial

/-! ### All sessions -/

/-- **The invariant.** Every transaction of the table has as many records as it should, and every
    session stands where its transaction allows. -/
structure Server.Ends (s : Server) : Prop where
  wf : s.Wf
  buffer : s.logMgr.buffer = []
  count : ∀ t, s.logMgr.ends t = if ((s.txnMap t).map Transaction.finished) = some true then 1 else 0
  session : ∀ i txn, (s.sessions i).txnId ≠ invalidTxnId →
    s.txnMap (s.sessions i).txnId = some txn → EndsAt txn (s.sessions i).pc

theorem Server.ends_start : Server.start.Ends where
  wf := Server.wf_start
  buffer := rfl
  count _ := rfl
  session _ _ h := absurd rfl h

/-- The final state of a transaction stays. -/
def Server.EndsKept (s s' : Server) : Prop :=
  ∀ t txn, s.txnMap t = some txn → txn.finished = true →
    ∃ txn', s'.txnMap t = some txn' ∧ txn'.state = txn.state

theorem Server.EndsKept.refl (s : Server) : s.EndsKept s := fun _ txn h _ => ⟨txn, h, rfl⟩

theorem Server.EndsKept.trans {s₁ s₂ s₃ : Server} (h : s₁.EndsKept s₂) (h' : s₂.EndsKept s₃) :
    s₁.EndsKept s₃ := by
  intro t txn ht hfin
  obtain ⟨txn₂, ht₂, hst₂⟩ := h t txn ht hfin
  have hfin₂ : txn₂.finished = true := by
    rw [Transaction.finished, hst₂]
    exact hfin
  obtain ⟨txn₃, ht₃, hst₃⟩ := h' t txn₂ ht₂ hfin₂
  exact ⟨txn₃, ht₃, hst₃.trans hst₂⟩

variable {s : Server}

/-- The invariant of one thread. -/
theorem Server.Ends.thread (h : s.Ends) {i : ℕ} {th : Thread} (hth : s.thread i = some th) :
    EndsInv th := by
  obtain ⟨hvalid, hcur, hpc, -, hlog⟩ := Server.thread_eq hth
  refine ⟨by rw [hlog]; exact h.buffer, ?_, hpc ▸ h.session i th.txn hvalid hcur⟩
  rw [hlog, h.wf.thread hth, h.count, hcur]
  simp

/-- What a thread has done goes back to the server. -/
theorem Server.Ends.put (h : s.Ends) {i : ℕ} {th th' : Thread} (hth : s.thread i = some th)
    (hid : th'.txn.txnId = th.txn.txnId) (hs : EndsStep th th') :
    (s.put i th').Ends ∧ s.EndsKept (s.put i th') := by
  obtain ⟨hvalid, hcur, -, -, hlog⟩ := Server.thread_eq hth
  have hkey := h.wf.thread hth
  refine ⟨⟨h.wf.put hth hid, hs.inv.buffer, fun t => ?_, fun j txn hvalid' hcur' => ?_⟩, ?_⟩
  · show th'.logMgr.ends t = _
    simp only [Server.put, Function.update_apply]
    by_cases ht : t = (s.sessions i).txnId
    · rw [if_pos ht, ht, ← hkey, ← hid, hs.inv.count]
      simp
    · rw [if_neg ht, hs.others t (hkey ▸ ht), hlog, h.count]
  · by_cases hij : j = i
    · subst hij
      simp only [Server.put, Function.update_self, Option.some.injEq] at hcur' ⊢
      rw [← hcur']
      exact hs.inv.pc
    · -- the other sessions work on other transactions
      simp only [Server.put, Function.update_of_ne hij] at hvalid' hcur' ⊢
      rw [Function.update_of_ne (h.wf.ne_of_ne hvalid' hij)] at hcur'
      exact h.session j txn hvalid' hcur'
  · intro t txn ht hfin
    by_cases he : t = (s.sessions i).txnId
    · rw [he, hcur] at ht
      cases ht
      exact ⟨th'.txn, by simp [Server.put, he], hs.state hfin⟩
    · exact ⟨txn, by simp [Server.put, Function.update_of_ne he, ht], rfl⟩

/-- `SetTransaction` begins a transaction without records, or keeps the one that goes on. -/
theorem Server.Ends.setTransaction (h : s.Ends) {i : ℕ} (hpc : (s.sessions i).pc = .reading) :
    (s.setTransaction i).Ends ∧ s.EndsKept (s.setTransaction i) ∧
      ∀ th, (s.setTransaction i).thread i = some th → th.txn.finished = false ∧
        ∀ txn, s.txn i = some txn → txn.finished = false → th.txn.txnMode = txn.txnMode := by
  have hwf := h.wf.setTransaction i
  -- a new transaction: its id is free, and its begin record the only one
  have hbegin : (s.begin i).Wf → (∀ txn, s.txn i = some txn → txn.finished = true) →
      (s.begin i).Ends ∧ s.EndsKept (s.begin i) ∧
      ∀ th, (s.begin i).thread i = some th → th.txn.finished = false ∧
        ∀ txn, s.txn i = some txn → txn.finished = false → th.txn.txnMode = txn.txnMode := by
    intro hwf hdone
    have hfresh := h.wf.next_free
    have hnew := appendLog_ends (.new s.nextTxnId) h.buffer .begin
    refine ⟨⟨hwf, (hnew 0).1, fun t => ?_, fun j txn hvalid' hcur' => ?_⟩, ?_, ?_⟩
    · show (appendLog (.new s.nextTxnId) s.logMgr .begin).2.ends t = _
      rw [(hnew t).2, h.count]
      simp only [Server.begin, Function.update_apply]
      by_cases ht : t = s.nextTxnId
      · rw [if_pos ht, ht, hfresh]
        simp [appendLog, Transaction.new, Transaction.finished]
      · rw [if_neg ht]
        simp
    · by_cases hij : j = i
      · subst hij
        simp only [Server.begin, Function.update_self, hpc]
        trivial
      · simp only [Server.begin, Function.update_of_ne hij] at hvalid' hcur' ⊢
        rw [Function.update_of_ne (h.wf.used_ne ((h.wf.session j).resolve_left hvalid'))] at hcur'
        exact h.session j txn hvalid' hcur'
    · intro t txn ht _
      refine ⟨txn, ?_, rfl⟩
      simp only [Server.begin]
      rw [Function.update_of_ne (h.wf.key t txn ht).2.2.ne, ht]
    · intro th hth
      obtain ⟨-, hcur, -, -, -⟩ := Server.thread_eq hth
      simp only [Server.begin, Function.update_self, Option.some.injEq] at hcur
      refine ⟨?_, fun txn htxn hfin => ?_⟩
      · rw [← hcur]
        rfl
      · rw [hdone txn htxn] at hfin
        cases hfin
  -- the old transaction has ended, or it goes on
  rcases s.setTransaction_cases i with ⟨heq, hdone⟩ | ⟨heq, txn, htxn, hfin⟩
  · rw [heq] at hwf ⊢
    exact hbegin hwf hdone
  · rw [heq]
    refine ⟨h, .refl s, fun th hth => ?_⟩
    have hth' : th.txn = txn := by
      rw [Server.thread, htxn] at hth
      cases hth
      rfl
    rw [hth']
    refine ⟨hfin, fun txn' h' _ => ?_⟩
    cases htxn.symm.trans h'
    rfl

/-- A request, in a transaction that goes on. -/
theorem EndsInv.dispatch {th : Thread} (h : EndsInv th) (hfin : th.txn.finished = false)
    {req : Request} (hmode : req.isEnd = true → th.txn.txnMode = true) :
    EndsStep th (th.dispatch req) := by
  have hno : th.txn.finished = true → False := by
    rw [hfin]
    decide
  cases req with
  | syntaxError => exact h.stay rfl rfl rfl fun hf => (hno hf).elim
  | begin => exact h.stay rfl rfl rfl fun _ => rfl
  | commit => exact h.stay rfl rfl rfl ⟨hfin, Or.inr (hmode rfl)⟩
  | abort => exact h.stay rfl rfl rfl ⟨hfin, Or.inr (hmode rfl)⟩
  | rollback => exact h.stay rfl rfl rfl ⟨hfin, Or.inr (hmode rfl)⟩
  | statement todo => exact h.stay rfl rfl rfl hfin

/-- **One step of the server.** -/
theorem Server.Ends.step (h : s.Ends) {a : ServerStep} {s' : Server}
    (hs : s.step a = some s') (hok : Orderly s a) : s'.Ends ∧ s.EndsKept s' := by
  have hwf := h.wf.step hs
  rcases Server.step_cases hs with ⟨i, req, th, rfl, hpc, -, hth, rfl⟩ | ⟨i, how, rfl, -, rfl⟩ |
    ⟨i, rfl, rfl⟩ | ⟨i, b, th, th', rfl, hth, hmoves, rfl⟩
  · obtain ⟨hends, hkept, hcur⟩ := h.setTransaction hpc
    obtain ⟨hfin, hsame⟩ := hcur th hth
    have hstep : EndsStep th (th.dispatch req) := by
      refine (hends.thread hth).dispatch hfin fun hend => ?_
      obtain ⟨txn, htxn, hfin', hmode⟩ := hok hend
      rw [hsame txn htxn hfin', hmode]
    obtain ⟨hput, hkept'⟩ := hends.put hth (th.dispatch_txnId req) hstep
    exact ⟨hput, hkept.trans hkept'⟩
  · refine ⟨⟨hwf, h.buffer, h.count, fun j txn hvalid' hcur' => ?_⟩, .refl s⟩
    by_cases hij : j = i
    · subst hij
      simp only [Function.update_self]
      trivial
    · simp only [Function.update_of_ne hij] at hvalid' hcur' ⊢
      exact h.session j txn hvalid' hcur'
  · exact ⟨⟨hwf, h.buffer, h.count, h.session⟩, .refl s⟩
  · have hstep : EndsStep th th' := by
      refine hmoves.ends (h.thread hth) fun c todo ha hpc hmode => ?_
      subst ha
      exact hok th c todo hth hpc hmode
    exact h.put hth hmoves.txnId hstep

theorem orderlyServer_step (h : orderlyServer.Reachable s) (a : ServerStep) {s' : Server}
    (hs : s.step a = some s') (hok : Orderly s a) : orderlyServer.Reachable s' :=
  .step h ⟨hs, hok⟩

/-- Every state of an orderly run. -/
theorem orderlyServer_ends (h : orderlyServer.Reachable s) : s.Ends :=
  h.invariant (fun _ hi => hi ▸ Server.ends_start) fun _ _ _ hs hstep =>
    (hs.step hstep.1 hstep.2).1

/-- **Transactions end once.** In every run in which no command that ends a transaction is given
    outside an explicit one, and no lock of an implicit transaction is refused, every transaction
    has at most one `COMMIT` or `ABORT` record in the log, and once its state is `COMMITTED` or
    `ABORTED` no later step changes it. -/
theorem transactions_end_once (h : orderlyServer.Reachable s) :
    (∀ t, s.logMgr.ends t ≤ 1) ∧
    ∀ as s', orderlyServer.Run s as s' → ∀ t txn, s.txnMap t = some txn →
      txn.state = .committed ∨ txn.state = .aborted →
      ∃ txn', s'.txnMap t = some txn' ∧ txn'.state = txn.state := by
  have hends := orderlyServer_ends h
  refine ⟨fun t => ?_, fun as s' hrun => ?_⟩
  · rw [hends.count]
    split
    · exact le_refl 1
    · exact Nat.zero_le 1
  · have key : s'.Ends ∧ s.EndsKept s' := by
      induction hrun with
      | nil => exact ⟨hends, .refl s⟩
      | snoc _ hstep ih =>
        obtain ⟨hends', hkept⟩ := ih.1.step hstep.1 hstep.2
        exact ⟨hends', ih.2.trans hkept⟩
    intro t txn ht hst
    exact key.2 t txn ht (by simpa [Transaction.finished] using hst)

/-- `begin; commit;` ends its transaction once. -/
theorem begin_commit_ends_once :
    ∃ s, orderlyServer.Reachable s ∧ s.logMgr.ends 0 = 1 ∧ s.logMgr.ends 0 ≤ 1 := by
  have h₁ := orderlyServer_step (.init rfl) (.receive 0 .begin) rfl (fun h => absurd h (by decide))
  have h₂ := orderlyServer_step h₁ (.run 0 (.reply true)) rfl trivial
  have h₃ := orderlyServer_step h₂ (.receive 0 .commit) rfl (fun _ => ⟨_, rfl, rfl, rfl⟩)
  have h₄ := orderlyServer_step h₃ (.run 0 .latch) rfl trivial
  have h₅ := orderlyServer_step h₄ (.run 0 .finish) rfl trivial
  exact ⟨_, h₅, rfl, (transactions_end_once h₅).1 0⟩

/-- Session 0 inserts a record in an explicit transaction; session 1 sends a query that is refused
    the lock on the table and is aborted. -/
def refusedSelect : List ServerStep :=
  [.receive 0 .begin, .run 0 (.reply true),
    .receive 0 (.statement [.lock (.ixOnTable 3), .lock (.exclusiveOnRecord ⟨1, 0⟩ 3)]),
    .run 0 .act, .run 0 .act, .run 0 .act, .run 0 (.reply true),
    .receive 1 (.statement [.lock (.sharedOnTable 3)]), .run 1 .act, .run 1 .latch,
    .run 1 .rolledBack, .run 1 .finish]

/-- The end of the loop of session 1. -/
def commitAtLoopEnd : List ServerStep :=
  [.run 1 (.reply true), .run 1 .latch, .run 1 .finish]

/-- **An aborted transaction is committed.** After `refusedSelect` the transaction of session 1 is
    `ABORTED`; the end of the loop makes it `COMMITTED`, and the log has both records. -/
theorem refused_transaction_commits :
    ∃ s s', refusedSelect.foldlM Server.step Server.start = some s ∧ server.Reachable s ∧
      (s.txnMap 1).map Transaction.state = some .aborted ∧
      commitAtLoopEnd.foldlM Server.step s = some s' ∧ server.Reachable s' ∧
      (s'.txnMap 1).map Transaction.state = some .committed ∧
      (s'.logMgr.file.filter (·.ends 1)).map LogRecord.body = [.abort, .commit] ∧
      s'.logMgr.ends 1 = 2 := by
  have hrun : ((refusedSelect.foldlM Server.step Server.start).bind fun s =>
      (commitAtLoopEnd.foldlM Server.step s).map fun s' =>
        ((s.txnMap 1).map Transaction.state, (s'.txnMap 1).map Transaction.state,
          (s'.logMgr.file.filter (·.ends 1)).map LogRecord.body, s'.logMgr.ends 1)) =
      some (some .aborted, some .committed, [.abort, .commit], 2) := by
    decide +kernel
  obtain ⟨s, hs, hrest⟩ := Option.bind_eq_some_iff.mp hrun
  obtain ⟨s', hs', heq⟩ := Option.map_eq_some_iff.mp hrest
  simp only [Prod.mk.injEq] at heq
  obtain ⟨haborted, hcommitted, hrecords, hcount⟩ := heq
  have hreach : server.Reachable s :=
    TransitionSystem.Reachable.foldlM (fun _ _ _ h => h) (.init rfl) hs
  have hreach' : server.Reachable s' :=
    TransitionSystem.Reachable.foldlM (fun _ _ _ h => h) hreach hs'
  exact ⟨s, s', hs, hreach, haborted, hs', hreach', hcommitted, hrecords, hcount⟩

end Rmdb
