import Rmdb.Transaction.Concurrency
import Rmdb.Transaction.LockInvariant

namespace Rmdb

open Lib

/-!
# The transactions are serializable

* `Covered` — every access of a statement or of a rollback finds its locks held or taken before it
  (`Statement.covered`, `Write.covered`);
* `TxnSystem.Inv` — what each transaction holds in each phase, and that the history is strict
  two-phase; `TxnSystem.Inv.put` is the step rule, and `TxnSystem.Inv.step` goes through the steps;
* `commits_serialize_transactions` — the order of the commits is a serialization order.
-/

/-! ### What a transaction holds -/

/-- The transaction holds the lock in the mode asked for, or in a stronger one. -/
def Held (mgr : LockManager) (t : TxnId) (p : LockDataId × LockMode) : Prop :=
  ∃ own, mgr.heldMode p.1 t = some own ∧ p.2 ≤ own

/-- Every access of the list finds its locks held, or taken by the requests before it. -/
def Covered (held : LockDataId × LockMode → Prop) : List Action → Prop
  | [] => True
  | .lock c :: todo => Covered (fun p => held p ∨ p = (c.id, c.mode)) todo
  | .access a :: todo => (∀ p ∈ a.needs, held p) ∧ Covered held todo

/-- More locks. -/
theorem Covered.mono {held held' : LockDataId × LockMode → Prop} {todo : List Action}
    (h : Covered held todo) (hle : ∀ p, held p → held' p) : Covered held' todo := by
  induction todo generalizing held held' with
  | nil => trivial
  | cons a todo ih =>
    cases a with
    | lock c => exact ih h (fun p hp => hp.imp (hle p) id)
    | access a => exact ⟨fun p hp => hle p (h.1 p hp), ih h.2 hle⟩

/-- The requests of a first part serve a second one too. -/
theorem Covered.append {held : LockDataId × LockMode → Prop} {l k : List Action}
    (h₁ : Covered held l)
    (h₂ : Covered (fun p => held p ∨ ∃ c, Action.lock c ∈ l ∧ p = (c.id, c.mode)) k) :
    Covered held (l ++ k) := by
  induction l generalizing held with
  | nil => exact h₂.mono (by simp)
  | cons a l ih =>
    cases a with
    | lock c =>
      refine ih h₁ (h₂.mono ?_)
      rintro p (hp | ⟨c', hc', rfl⟩)
      · exact Or.inl (Or.inl hp)
      · rcases List.mem_cons.mp hc' with hc' | hc'
        · cases hc'
          exact Or.inl (Or.inr rfl)
        · exact Or.inr ⟨c', hc', rfl⟩
    | access a =>
      refine ⟨h₁.1, ih h₁.2 (h₂.mono ?_)⟩
      rintro p (hp | ⟨c', hc', rfl⟩)
      · exact Or.inl hp
      · rcases List.mem_cons.mp hc' with hc' | hc'
        · cases hc'
        · exact Or.inr ⟨c', hc', rfl⟩

/-- A loop is covered if its body is. -/
theorem Covered.flatMap {α : Type*} {held : LockDataId × LockMode → Prop} {body : α → List Action}
    (h : ∀ x, Covered held (body x)) (xs : List α) : Covered held (xs.flatMap body) := by
  induction xs with
  | nil => trivial
  | cons x xs ih =>
    rw [List.flatMap_cons]
    exact (h x).append (ih.mono (fun p hp => Or.inl hp))

/-- `get_record` takes its lock itself. -/
theorem covered_getRecord (held : LockDataId × LockMode → Prop) (fd : Int) (rid : Rid) :
    Covered held (getRecordActions fd rid) :=
  ⟨by simp [FileAccess.needs, LockCall.id, LockCall.mode], trivial⟩

/-- The three writes of `RmFileHandle` are covered under `IX` on the table. -/
theorem covered_write {held : LockDataId × LockMode → Prop} {fd : Int} (rid : Rid)
    (h : held (.ofTable fd, .intentionExclusive)) :
    Covered held (insertRecordActions fd rid) ∧ Covered held (updateRecordActions fd rid) ∧
      Covered held (deleteRecordActions fd rid) := by
  refine ⟨⟨?_, trivial⟩, ⟨?_, trivial⟩, ⟨?_, trivial⟩⟩ <;>
    simp [FileAccess.needs, LockCall.id, LockCall.mode, h]

/-- A scan needs the table lock for the pages it looks at. -/
theorem covered_scan {held : LockDataId × LockMode → Prop} {fd : Int}
    (h : held (.ofTable fd, .shared)) (op : Option Rid) : Covered held (scanActions fd op) := by
  cases op with
  | none => exact ⟨by simp [FileAccess.needs, h], trivial⟩
  | some rid => exact covered_getRecord held fd rid

/-- A sequential scan takes the table lock before it begins. -/
theorem covered_seqScan (held : LockDataId × LockMode → Prop) (fd : Int)
    (ops : List (Option Rid)) : Covered held (seqScanActions fd ops) := by
  refine Covered.append (l := [.lock (.sharedOnTable fd)]) trivial
    (Covered.flatMap (fun op => covered_scan (Or.inr ?_) op) ops)
  exact ⟨.sharedOnTable fd, by simp, rfl⟩

/-- Lock requests alone are covered. -/
theorem covered_locks (held : LockDataId × LockMode → Prop) (cs : List LockCall) :
    Covered held (cs.map .lock) := by
  induction cs generalizing held with
  | nil => trivial
  | cons c cs ih => exact ih _

/-- **Every executor locks before it accesses.** -/
theorem Statement.covered (stmt : Statement) (held : LockDataId × LockMode → Prop) :
    Covered held stmt.actions := by
  -- the loops of `UPDATE` and `DELETE` run under the `IX` lock taken after the scan
  have hloop : ∀ fd ops (body : Rid → List Action),
      (∀ (held' : LockDataId × LockMode → Prop) rid,
        held' (.ofTable fd, .intentionExclusive) → Covered held' (body rid)) →
      ∀ rids : List Rid,
      Covered held (seqScanActions fd ops ++ [.lock (.ixOnTable fd)] ++ rids.flatMap body) := by
    intro fd ops body hbody rids
    refine Covered.append ?_ (Covered.flatMap (fun rid => hbody _ rid (Or.inr ?_)) rids)
    · exact (covered_seqScan held fd ops).append trivial
    · exact ⟨.ixOnTable fd, by simp, rfl⟩
  cases stmt with
  | select fds ops =>
    refine Covered.append ?_ (Covered.flatMap (fun op => covered_scan (Or.inr ?_) op.2) ops)
    · have hlocks := covered_locks held (fds.map .sharedOnTable)
      rw [List.map_map] at hlocks
      exact hlocks
    · exact ⟨.sharedOnTable (fds.get op.1), List.mem_map_of_mem (List.get_mem _ _), rfl⟩
  | insert fd rid =>
    refine Covered.append (l := [.lock (.ixOnTable fd)]) trivial (covered_write rid ?_).1
    exact Or.inr ⟨.ixOnTable fd, by simp, rfl⟩
  | update fd ops rids =>
    refine hloop fd ops _ (fun held' rid hix => ?_) rids
    exact (covered_getRecord held' fd rid).append (covered_write rid (Or.inl hix)).2.1
  | delete fd ops rids =>
    refine hloop fd ops _ (fun held' rid hix => ?_) rids
    exact (covered_getRecord held' fd rid).append (covered_write rid (Or.inl hix)).2.2

/-- The rollback of an entry is covered as long as `IX` on its table is held. -/
theorem Write.covered (w : Write) (newRid : Rid) {held : LockDataId × LockMode → Prop}
    (hix : held (.ofTable w.fd, .intentionExclusive)) : Covered held (w.undoActions newRid) := by
  unfold Write.undoActions
  cases w.wtype with
  | insertTuple =>
    exact (covered_getRecord held w.fd w.rid).append (covered_write w.rid (Or.inl hix)).2.2
  | deleteTuple => exact (covered_write newRid hix).1
  | updateTuple =>
    exact (covered_getRecord held w.fd w.rid).append (covered_write w.rid (Or.inl hix)).2.1

/-- A write holds `IX` on the table of the entry it leaves. -/
theorem FileAccess.write?_needs {a : FileAccess} {w : Write} (h : a.write? = some w) :
    (LockDataId.ofTable w.fd, LockMode.intentionExclusive) ∈ a.needs := by
  cases a <;> simp [FileAccess.write?] at h <;> subst h <;> simp [FileAccess.needs]

/-! ### Locks over a step -/

/-- Of the requests of one transaction, `modeOf` sees the first. -/
theorem modeOf_eq_head? (q : LockRequestQueue) (t : TxnId) :
    q.modeOf t = ((q.requestQueue.filter (·.txnId = t)).head?).map LockRequest.lockMode := by
  rw [LockRequestQueue.modeOf, List.head?_filter]
  congr 2
  funext r
  simp [eq_comm]

/-- A lock function takes no lock away from anybody. -/
theorem LockCall.run_held (c : LockCall) {m : LockManager} (h : m.Inv) {txn : Transaction}
    (hact : txn.state = .default ∨ txn.state = .growing) {t : TxnId} {p : LockDataId × LockMode}
    (hp : Held m t p) : Held (c.run txn m).2.2 t p := by
  have hg := c.run_grant h hact
  obtain ⟨own, hown, hle⟩ := hp
  by_cases hid : p.1 = c.id
  swap
  · refine ⟨own, ?_, hle⟩
    rw [LockManager.heldMode, hg.frame p.1 hid]
    exact hown
  by_cases ht : t = txn.txnId
  · subst ht
    by_cases hok : (c.run txn m).1 = .ok true
    · -- the mode becomes the join
      have hmode := hg.granted_mode hok
      rw [← hid, hown] at hmode
      exact ⟨own ⊔ c.mode, hmode, le_trans hle le_sup_left⟩
    · have hreq := ((hg.refused hok).1 p.1).1
      refine ⟨own, ?_, hle⟩
      rw [LockManager.heldMode, LockRequestQueue.modeOf] at hown ⊢
      rw [LockManager.requests] at hreq
      rw [hreq]
      exact hown
  · have hreq := hg.others t ht
    refine ⟨own, ?_, hle⟩
    rw [LockManager.heldMode, modeOf_eq_head?] at hown ⊢
    rw [LockManager.requests, ← hid] at hreq
    rw [hreq]
    exact hown

/-- A lock function that returns has the lock. -/
theorem LockCall.run_ok_held (c : LockCall) {m : LockManager} (h : m.Inv) {txn : Transaction}
    (hact : txn.state = .default ∨ txn.state = .growing) {b : Bool}
    (hok : (c.run txn m).1 = .ok b) : Held (c.run txn m).2.2 txn.txnId (c.id, c.mode) := by
  have hg := c.run_grant h hact
  have htrue : (c.run txn m).1 = .ok true := by
    rcases hg.decided with hd | hd
    · exact hd
    · rw [hd] at hok
      cases hok
  exact ⟨_, hg.granted_mode htrue, LockMode.req_le_joinOwn _ _⟩

/-- The release of a lock leaves the modes of the others. -/
theorem LockRequestQueue.modeOf_release (q : LockRequestQueue) {t t' : TxnId} (ht : t ≠ t') :
    (q.release t').modeOf t = q.modeOf t := by
  simp only [LockRequestQueue.modeOf, LockRequestQueue.release]
  congr 1
  induction q.requestQueue with
  | nil => rfl
  | cons r l ih =>
    by_cases hr : t' = r.txnId
    · have : ¬ t = r.txnId := fun h => ht (h.trans hr.symm)
      simp [hr, this]
    · by_cases hr' : t = r.txnId
      · simp [hr, hr']
      · simpa [List.eraseP_cons, hr, hr'] using ih

/-- `unlock` takes a lock only from the transaction that calls it. -/
theorem unlock_held (txn : Transaction) (id : LockDataId) (m : LockManager) {t : TxnId}
    (ht : t ≠ txn.txnId) {p : LockDataId × LockMode} (hp : Held m t p) :
    Held (unlock txn id m).2.2 t p := by
  have hset : ∀ q, m.lockTable id = some q →
      Held (m.setQueue id (q.release txn.txnId)) t p := by
    intro q hq
    obtain ⟨own, hown, hle⟩ := hp
    refine ⟨own, ?_, hle⟩
    by_cases hid : p.1 = id
    · rw [LockManager.heldMode, hid] at hown ⊢
      rw [LockManager.setQueue_self, Option.getD_some, q.modeOf_release ht]
      rw [hq, Option.getD_some] at hown
      exact hown
    · rw [LockManager.heldMode, m.setQueue_of_ne _ hid]
      exact hown
  unfold unlock
  cases hs : txn.state <;> simp only <;> (try exact hp) <;> split <;>
    first | exact hp | exact hset _ (by assumption)

/-! ### The invariant -/

/-- A transaction that may still lock and access: it has released nothing and ended nothing, and
    it holds `IX` on every table it has written. -/
structure Growing (mgr : LockManager) (history : History TxnId FileAccess) (t : TxnId)
    (c : Client) : Prop where
  state : c.txn.state = .default ∨ c.txn.state = .growing
  no_release : Event.release t ∉ history
  no_commit : Event.commit t ∉ history
  writes : ∀ w ∈ c.writes, Held mgr t (.ofTable w.fd, .intentionExclusive)

/-- A transaction inside its unlock loop: it has not committed, and nobody else has since its
    first release. -/
structure Shrinking (history : History TxnId FileAccess) (t : TxnId) : Prop where
  no_commit : Event.commit t ∉ history
  alone : ∀ (k m : ℕ) (t' : TxnId), history[k]? = some (Event.release t) →
    history[m]? = some (Event.commit t') → t' ≠ t → m < k

/-- The invariant of one client. -/
def PhaseInv (mgr : LockManager) (latch : Option TxnId) (history : History TxnId FileAccess)
    (t : TxnId) (c : Client) : Prop :=
  match c.phase with
  | .running todo => Growing mgr history t c ∧ Covered (Held mgr t) todo
  | .failed => Growing mgr history t c
  | .rollingBack todo =>
    latch = some t ∧ Growing mgr history t c ∧ Covered (Held mgr t) todo
  | .releasing _ _ => latch = some t ∧ Shrinking history t
  | .ended => True
  | .stuck => True

/-- The access is past its first release, or its locks are still held. -/
def Protected (mgr : LockManager) (history : History TxnId FileAccess) (t : TxnId)
    (i : ℕ) (a : FileAccess) : Prop :=
  (∃ k, i < k ∧ history[k]? = some (Event.release t)) ∨ ∀ p ∈ a.needs, Held mgr t p

/-- **The invariant of the system.** -/
structure TxnSystem.Inv (s : TxnSystem) : Prop where
  mgr : s.mgr.Inv
  txnId : ∀ t, (s.clients t).txn.txnId = t
  client : ∀ t, PhaseInv s.mgr s.latch s.history t (s.clients t)
  accesses : ∀ i t a, s.history[i]? = some (Event.access t a) →
    Protected s.mgr s.history t i a
  history : StrictTwoPhase FileAccess.Conflict s.history

/-- The invariant holds at the start. -/
theorem TxnSystem.start_inv : TxnSystem.start.Inv where
  mgr := LockManager.inv_empty
  txnId _ := rfl
  client t := by
    refine ⟨⟨Or.inl rfl, ?_, ?_, ?_⟩, trivial⟩
    · exact List.not_mem_nil
    · exact List.not_mem_nil
    · intro w hw
      cases hw
  accesses i t a h := by simp [TxnSystem.start] at h
  history := StrictTwoPhase.nil

/-- The transaction an event belongs to. -/
def eventTxn : Event TxnId FileAccess → TxnId
  | .access t _ | .release t | .commit t | .abort t => t

section Frame

variable {mgr mgr' : LockManager} {latch latch' : Option TxnId}
  {history evs : History TxnId FileAccess} {t t' : TxnId}

/-- Steps of the others, to a transaction that still takes locks. -/
theorem Growing.frame {c : Client} (h : Growing mgr history t' c)
    (hheld : ∀ p, Held mgr t' p → Held mgr' t' p) (hev : ∀ e ∈ evs, eventTxn e ≠ t') :
    Growing mgr' (history ++ evs) t' c where
  state := h.state
  no_release := by
    rw [List.mem_append, not_or]
    exact ⟨h.no_release, fun he => hev _ he rfl⟩
  no_commit := by
    rw [List.mem_append, not_or]
    exact ⟨h.no_commit, fun he => hev _ he rfl⟩
  writes w hw := hheld _ (h.writes w hw)

/-- Steps of the others, to one that releases them. -/
theorem Shrinking.frame (h : Shrinking history t') (hev : ∀ e ∈ evs, eventTxn e ≠ t')
    (hcom : ∀ t, Event.commit t ∉ evs) : Shrinking (history ++ evs) t' where
  no_commit := by
    rw [List.mem_append, not_or]
    exact ⟨h.no_commit, fun he => hev _ he rfl⟩
  alone := by
    intro k m t₁ hk hm hne
    rw [List.getElem?_append] at hk hm
    split at hm
    · split at hk
      · exact h.alone k m t₁ hk hm hne
      · omega
    · exact absurd (List.mem_of_getElem? hm) (hcom t₁)

/-- What another transaction does leaves a client's invariant alone. -/
theorem PhaseInv.frame {c : Client} (h : PhaseInv mgr latch history t' c) (ht : t' ≠ t)
    (hheld : ∀ p, Held mgr t' p → Held mgr' t' p)
    (hlatch : latch' = latch ∨ latch = none ∨ latch = some t)
    (hev : ∀ e ∈ evs, eventTxn e = t) (hcom : Event.commit t ∈ evs → latch = some t) :
    PhaseInv mgr' latch' (history ++ evs) t' c := by
  have hev' : ∀ e ∈ evs, eventTxn e ≠ t' := by
    intro e he heq
    exact ht (heq.symm.trans (hev e he))
  have hl : latch = some t' → latch' = some t' := by
    intro h'
    rcases hlatch with hl | hl | hl
    · rw [hl, h']
    · rw [hl] at h'
      cases h'
    · rw [hl] at h'
      exact absurd (Option.some.inj h').symm ht
  unfold PhaseInv at h ⊢
  cases hp : c.phase with
  | running todo =>
    rw [hp] at h
    exact ⟨h.1.frame hheld hev', h.2.mono hheld⟩
  | failed =>
    rw [hp] at h
    exact Growing.frame h hheld hev'
  | rollingBack todo =>
    rw [hp] at h
    exact ⟨hl h.1, h.2.1.frame hheld hev', h.2.2.mono hheld⟩
  | releasing left commits =>
    rw [hp] at h
    refine ⟨hl h.1, h.2.frame hev' ?_⟩
    -- a commit needs the latch, which this client holds
    intro t₁ hmem
    have ht₁ : t₁ = t := hev _ hmem
    subst ht₁
    have := hcom hmem
    rw [h.1] at this
    exact ht (Option.some.inj this)
  | ended => trivial
  | stuck => trivial

/-- Steps of the others, to an access under its lock. -/
theorem Protected.frame {i : ℕ} {a : FileAccess} (h : Protected mgr history t' i a)
    (hheld : ∀ p, Held mgr t' p → Held mgr' t' p) : Protected mgr' (history ++ evs) t' i a := by
  rcases h with ⟨k, hik, hk⟩ | h
  · refine Or.inl ⟨k, hik, ?_⟩
    rw [List.getElem?_append_left (lt_length_of_getElem? hk)]
    exact hk
  · exact Or.inr (fun p hp => hheld p (h p hp))

end Frame

/-- **The step rule.** A step of transaction `t` keeps the invariant if it does so for `t`, takes
    no lock from anybody else, and moves the latch or commits only as its holder. -/
theorem TxnSystem.Inv.put {s : TxnSystem} (h : s.Inv) {t : TxnId} {c : Client} {mgr : LockManager}
    {latch : Option TxnId} {evs : History TxnId FileAccess} (hmgr : mgr.Inv)
    (hheld : ∀ t' p, t' ≠ t → Held s.mgr t' p → Held mgr t' p)
    (hlatch : latch = s.latch ∨ s.latch = none ∨ s.latch = some t)
    (hev : ∀ e ∈ evs, eventTxn e = t) (hcom : Event.commit t ∈ evs → s.latch = some t)
    (hid : c.txn.txnId = t) (hphase : PhaseInv mgr latch (s.history ++ evs) t c)
    (hacc : ∀ i a, (s.history ++ evs)[i]? = some (Event.access t a) →
      Protected mgr (s.history ++ evs) t i a)
    (hhist : StrictTwoPhase FileAccess.Conflict (s.history ++ evs)) :
    (s.put t c mgr latch evs).Inv where
  mgr := hmgr
  txnId t' := by
    by_cases ht : t' = t
    · simp only [TxnSystem.put, ht, if_true]
      exact hid
    · simp only [TxnSystem.put, ht, if_false]
      exact h.txnId t'
  client t' := by
    by_cases ht : t' = t
    · simp only [TxnSystem.put, ht, if_true]
      exact hphase
    · simp only [TxnSystem.put, ht, if_false]
      exact (h.client t').frame ht (fun p => hheld t' p ht) hlatch hev hcom
  accesses i t' a hi := by
    by_cases ht : t' = t
    · subst ht
      exact hacc i a hi
    · simp only [TxnSystem.put] at hi
      rw [List.getElem?_append] at hi
      split at hi
      · exact (h.accesses i t' a hi).frame (fun p => hheld t' p ht)
      · exact absurd (hev _ (List.mem_of_getElem? hi)) ht
  history := hhist

/-! ### The steps -/

section Steps

variable {s : TxnSystem} {t : TxnId}

/-- A step that only moves the client on. -/
theorem TxnSystem.Inv.put_silent (h : s.Inv) {c : Client} {latch : Option TxnId}
    (hlatch : latch = s.latch ∨ s.latch = none ∨ s.latch = some t) (hid : c.txn.txnId = t)
    (hphase : PhaseInv s.mgr latch s.history t c) : (s.put t c s.mgr latch []).Inv := by
  refine h.put h.mgr (fun _ _ _ hp => hp) hlatch (by simp) (by simp) hid ?_ ?_ ?_
  · rw [List.append_nil]
    exact hphase
  · rw [List.append_nil]
    exact fun i a => h.accesses i t a
  · rw [List.append_nil]
    exact h.history

/-- A lock request, granted or refused. -/
theorem TxnSystem.Inv.put_lock (h : s.Inv) (call : LockCall) (phase : Phase)
    (latch : Option TxnId) (hlatch : latch = s.latch ∨ s.latch = none ∨ s.latch = some t)
    (hg : Growing s.mgr s.history t (s.clients t))
    (hphase : Growing (call.run (s.clients t).txn s.mgr).2.2 s.history t
        { s.clients t with txn := (call.run (s.clients t).txn s.mgr).2.1, phase := phase } →
      PhaseInv (call.run (s.clients t).txn s.mgr).2.2 latch s.history t
        { s.clients t with txn := (call.run (s.clients t).txn s.mgr).2.1, phase := phase }) :
    (s.put t { s.clients t with txn := (call.run (s.clients t).txn s.mgr).2.1, phase := phase }
      (call.run (s.clients t).txn s.mgr).2.2 latch []).Inv := by
  have hheld : ∀ t' p, Held s.mgr t' p → Held (call.run (s.clients t).txn s.mgr).2.2 t' p :=
    fun t' p hp => call.run_held h.mgr hg.state hp
  refine h.put (call.run_inv h.mgr _) (fun t' p _ => hheld t' p) hlatch (by simp) (by simp)
    ?_ ?_ ?_ ?_
  · rw [call.run_txnId]
    exact h.txnId t
  · rw [List.append_nil]
    refine hphase ⟨Or.inr (call.run_state s.mgr hg.state), hg.no_release, hg.no_commit, ?_⟩
    exact fun w hw => hheld t _ (hg.writes w hw)
  · intro i a hi
    rw [List.append_nil] at hi
    exact (h.accesses i t a hi).frame (hheld t)
  · rw [List.append_nil]
    exact h.history

/-- What a granted request leaves for the rest of the list. -/
theorem covered_of_ok (h : s.Inv) {call : LockCall} {todo : List Action} {b : Bool}
    (hg : Growing s.mgr s.history t (s.clients t))
    (hc : Covered (Held s.mgr t) (.lock call :: todo))
    (hok : (call.run (s.clients t).txn s.mgr).1 = .ok b) :
    Covered (Held (call.run (s.clients t).txn s.mgr).2.2 t) todo := by
  refine Covered.mono hc ?_
  rintro p (hp | rfl)
  · exact call.run_held h.mgr hg.state hp
  · have := call.run_ok_held h.mgr hg.state hok
    rwa [h.txnId t] at this

/-- **What two transactions hold on one object is compatible.** -/
theorem LockManager.Inv.held_compatible {m : LockManager} (h : m.Inv) {t₁ t₂ : TxnId} (hne : t₁ ≠ t₂)
    {id : LockDataId} {m₁ m₂ : LockMode} (h₁ : Held m t₁ (id, m₁)) (h₂ : Held m t₂ (id, m₂)) :
    m₁.compatible m₂ = true := by
  obtain ⟨own₁, hown₁, hle₁⟩ := h₁
  obtain ⟨own₂, hown₂, hle₂⟩ := h₂
  have hq := h.queue id
  obtain ⟨l₁, r₁, l₁', heq₁, hr₁, rfl, -⟩ := modeOf_some hown₁ hq.nodup
  obtain ⟨l₂, r₂, l₂', heq₂, hr₂, rfl, -⟩ := modeOf_some hown₂ hq.nodup
  have hmem₁ : r₁ ∈ m.requests id := by
    rw [LockManager.requests, heq₁]
    simp
  have hmem₂ : r₂ ∈ m.requests id := by
    rw [LockManager.requests, heq₂]
    simp
  have hcomp := hq.compat r₁ hmem₁ r₂ hmem₂ (by rw [hr₁, hr₂]; exact hne)
  -- smaller modes are compatible too
  have hcomp₁ := LockMode.compatible_anti hle₁ hcomp
  rw [LockMode.compatible_comm] at hcomp₁
  have hcomp₂ := LockMode.compatible_anti hle₂ hcomp₁
  rw [LockMode.compatible_comm]
  exact hcomp₂

/-- Two transactions never hold what conflicting accesses need. -/
theorem TxnSystem.Inv.no_conflict (h : s.Inv) {t₁ t₂ : TxnId} {a b : FileAccess} (hne : t₁ ≠ t₂)
    (ha : ∀ p ∈ a.needs, Held s.mgr t₁ p) (hb : ∀ p ∈ b.needs, Held s.mgr t₂ p) :
    ¬ a.Conflict b := by
  intro hc
  obtain ⟨id, m₁, m₂, h₁, h₂, hcompat⟩ := hc.needs
  have hcomp := h.mgr.held_compatible hne (ha _ h₁) (hb _ h₂)
  rw [hcompat] at hcomp
  exact Bool.false_ne_true hcomp

/-- An access whose locks are held. -/
theorem TxnSystem.Inv.put_access (h : s.Inv) {a : FileAccess} {phase : Phase} {writes : List Write}
    (hg : Growing s.mgr s.history t (s.clients t)) (hneeds : ∀ p ∈ a.needs, Held s.mgr t p)
    (hwrites : ∀ w ∈ writes, w ∈ (s.clients t).writes ∨ a.write? = some w)
    (hphase : Growing s.mgr (s.history ++ [.access t a]) t
        { s.clients t with phase := phase, writes := writes } →
      PhaseInv s.mgr s.latch (s.history ++ [.access t a]) t
        { s.clients t with phase := phase, writes := writes }) :
    (s.put t { s.clients t with phase := phase, writes := writes } s.mgr s.latch
      [.access t a]).Inv := by
  refine h.put h.mgr (fun _ _ _ hp => hp) (Or.inl rfl) (by simp [eventTxn]) (by simp) (h.txnId t)
    ?_ ?_ ?_
  · refine hphase ⟨hg.state, by simp [hg.no_release], by simp [hg.no_commit], fun w hw => ?_⟩
    rcases hwrites w hw with hw | hw
    · exact hg.writes w hw
    · exact hneeds _ (FileAccess.write?_needs hw)
  · intro i a' hi
    rw [getElem?_snoc] at hi
    rcases hi with hi | ⟨-, hi⟩
    · exact (h.accesses i t a' hi).frame (fun p hp => hp)
    · cases hi
      exact Or.inr hneeds
  · refine h.history.snoc ⟨fun k hk => ?_, fun k hk => ?_, fun i t₁ a₁ hi hne hc => ?_⟩
    · exact hg.no_release (List.mem_of_getElem? hk)
    · exact hg.no_commit (List.mem_of_getElem? hk)
    · rcases h.accesses i t₁ a₁ hi with hrel | hheld
      · exact hrel
      · exact absurd hc (h.no_conflict hne hheld hneeds)

/-- An action of a running transaction keeps the invariant. -/
theorem TxnSystem.Inv.runAction (h : s.Inv) {a : Action} {todo : List Action}
    (hp : (s.clients t).phase = .running (a :: todo)) : (s.runAction t todo a).Inv := by
  have hc := h.client t
  rw [PhaseInv, hp] at hc
  obtain ⟨hg, hcov⟩ := hc
  cases a with
  | lock call =>
    have hput := fun phase => h.put_lock call phase s.latch (Or.inl rfl) hg
    have hok := fun b => covered_of_ok h (b := b) hg hcov
    simp only [TxnSystem.runAction]
    revert hput hok
    rcases call.run (s.clients t).txn s.mgr with ⟨_ | b, txn, mgr⟩
    · exact fun hput _ => hput .failed id
    · exact fun hput hok => hput (.running todo) (fun hg' => ⟨hg', hok b rfl⟩)
  | access a =>
    refine h.put_access hg hcov.1 ?_ (fun hg' => ⟨hg', hcov.2⟩)
    intro w hw
    rw [List.mem_append, Option.mem_toList] at hw
    exact hw.symm

/-- An undone action keeps it. -/
theorem TxnSystem.Inv.undoAction (h : s.Inv) {a : Action} {todo : List Action}
    (hp : (s.clients t).phase = .rollingBack (a :: todo)) : (s.undoAction t todo a).Inv := by
  have hc := h.client t
  rw [PhaseInv, hp] at hc
  obtain ⟨hlatch, hg, hcov⟩ := hc
  cases a with
  | lock call =>
    have hput := fun phase => h.put_lock call phase s.latch (Or.inl rfl) hg
    have hstuck := h.put_lock call .stuck none (Or.inr (Or.inr hlatch)) hg
    have hok := fun b => covered_of_ok h (b := b) hg hcov
    simp only [TxnSystem.undoAction]
    revert hput hstuck hok
    rcases call.run (s.clients t).txn s.mgr with ⟨_ | b, txn, mgr⟩
    · exact fun _ hstuck _ => hstuck (fun _ => trivial)
    · exact fun hput _ hok => hput (.rollingBack todo) (fun hg' => ⟨hlatch, hg', hok b rfl⟩)
  | access a =>
    exact h.put_access hg hcov.1 (fun w hw => Or.inl hw) (fun hg' => ⟨hlatch, hg', hcov.2⟩)

/-- Entering the unlock loop: nothing has been released yet. -/
theorem Growing.shrinking {mgr : LockManager} {history : History TxnId FileAccess} {c : Client}
    (h : Growing mgr history t c) : Shrinking history t where
  no_commit := h.no_commit
  alone _ _ _ hk _ _ := absurd (List.mem_of_getElem? hk) h.no_release

/-- One `unlock` of the unlock loop. -/
theorem TxnSystem.Inv.unlock (h : s.Inv) {left : Finset LockDataId} {commits : Bool}
    (hp : (s.clients t).phase = .releasing left commits) (id : LockDataId) :
    (s.put t { s.clients t with txn := (Rmdb.unlock (s.clients t).txn id s.mgr).2.1,
                                phase := .releasing (left.erase id) commits }
      (Rmdb.unlock (s.clients t).txn id s.mgr).2.2 s.latch [.release t]).Inv := by
  have hc := h.client t
  rw [PhaseInv, hp] at hc
  obtain ⟨hlatch, hsh⟩ := hc
  refine h.put (unlock_inv h.mgr _ id) (fun t' p ht => ?_) (Or.inl rfl) (by simp [eventTxn])
    (by simp) ?_ ⟨hlatch, by simp [hsh.no_commit], ?_⟩ ?_ ?_
  · exact unlock_held _ id s.mgr (by rw [h.txnId t]; exact ht)
  · rw [unlock_txnId]
    exact h.txnId t
  · intro k m t' hk hm hne
    rw [getElem?_snoc] at hk hm
    rcases hm with hm | ⟨-, hm⟩
    · rcases hk with hk | ⟨rfl, -⟩
      · exact hsh.alone k m t' hk hm hne
      · exact lt_length_of_getElem? hm
    · cases hm
  · -- every access of `t` now has a release after it
    intro i a hi
    rw [getElem?_snoc] at hi
    rcases hi with hi | ⟨-, hi⟩
    · exact Or.inl ⟨s.history.length, lt_length_of_getElem? hi, by simp⟩
    · cases hi
  · exact h.history.snoc (fun c hc => hsh.no_commit (List.mem_of_getElem? hc))

/-- The end of `commit` or `abort`. -/
theorem TxnSystem.Inv.finish (h : s.Inv) {left : Finset LockDataId} {commits : Bool}
    (hp : (s.clients t).phase = .releasing left commits) (txn : Transaction)
    (hid : txn.txnId = t) :
    (s.put t { s.clients t with txn := txn, phase := .ended } s.mgr none
      [if commits then .commit t else .abort t]).Inv := by
  have hc := h.client t
  rw [PhaseInv, hp] at hc
  obtain ⟨hlatch, hsh⟩ := hc
  refine h.put h.mgr (fun _ _ _ hp => hp) (Or.inr (Or.inr hlatch)) ?_ (fun _ => hlatch) hid
    trivial ?_ ?_
  · cases commits <;> simp [eventTxn]
  · intro i a hi
    rw [getElem?_snoc] at hi
    rcases hi with hi | ⟨-, hi⟩
    · exact (h.accesses i t a hi).frame (fun p hp => hp)
    · cases commits <;> cases hi
  · cases commits with
    | true => exact h.history.snoc hsh.alone
    | false => exact h.history.snoc trivial

end Steps

/-- **Every step keeps the invariant.** -/
theorem TxnSystem.Inv.step {s s' : TxnSystem} (h : s.Inv) (a : TxnStep) (hs : s.step a = some s') :
    s'.Inv := by
  cases a with
  | statement t stmt =>
    -- the locks are part of the list of actions
    have hc := h.client t
    simp only [TxnSystem.step] at hs
    split at hs <;> cases hs
    rename_i hp
    rw [PhaseInv, hp] at hc
    exact h.put_silent (Or.inl rfl) (h.txnId t) ⟨⟨hc.1.1, hc.1.2, hc.1.3, hc.1.4⟩, stmt.covered _⟩
  | act t =>
    -- the only steps that take locks and touch files
    simp only [TxnSystem.step] at hs
    split at hs <;> cases hs <;> rename_i hp
    · exact h.runAction hp
    · exact h.undoAction hp
  | error t =>
    have hc := h.client t
    simp only [TxnSystem.step] at hs
    split at hs <;> cases hs
    rename_i hp
    rw [PhaseInv, hp] at hc
    exact h.put_silent (Or.inl rfl) (h.txnId t) ⟨⟨hc.1.1, hc.1.2, hc.1.3, hc.1.4⟩, trivial⟩
  | commit t =>
    have hc := h.client t
    simp only [TxnSystem.step] at hs
    split at hs <;> cases hs
    rename_i hp hl
    rw [PhaseInv, hp] at hc
    exact h.put_silent (Or.inr (Or.inl hl)) (h.txnId t) ⟨rfl, hc.1.shrinking⟩
  | abort t =>
    -- from between two statements, or after an error
    have hc := h.client t
    simp only [TxnSystem.step] at hs
    split at hs <;> cases hs <;> rename_i hp hl <;> rw [PhaseInv, hp] at hc
    · exact h.put_silent (Or.inr (Or.inl hl)) (h.txnId t)
        ⟨rfl, ⟨hc.1.1, hc.1.2, hc.1.3, hc.1.4⟩, trivial⟩
    · exact h.put_silent (Or.inr (Or.inl hl)) (h.txnId t) ⟨rfl, ⟨hc.1, hc.2, hc.3, hc.4⟩, trivial⟩
  | undo t newRid =>
    -- the write was made under the intention lock of its table, which is still held
    have hc := h.client t
    simp only [TxnSystem.step] at hs
    split at hs <;> cases hs
    rename_i w writes hp hw
    rw [PhaseInv, hp] at hc
    obtain ⟨hlatch, hg, -⟩ := hc
    have hix : Held s.mgr t (.ofTable w.fd, .intentionExclusive) := by
      apply hg.writes
      rw [hw]
      exact List.mem_cons_self
    refine h.put_silent (Or.inl rfl) (h.txnId t)
      ⟨hlatch, ⟨hg.state, hg.no_release, hg.no_commit, fun w' hw' => hg.writes w' ?_⟩,
        w.covered newRid hix⟩
    rw [hw]
    exact List.mem_cons_of_mem _ hw'
  | rolledBack t =>
    have hc := h.client t
    simp only [TxnSystem.step] at hs
    split at hs <;> cases hs
    rename_i hp _
    rw [PhaseInv, hp] at hc
    exact h.put_silent (Or.inl rfl) (h.txnId t) ⟨hc.1, hc.2.1.shrinking⟩
  | unlock t id =>
    -- from here on the transaction does nothing but release
    simp only [TxnSystem.step] at hs
    split at hs
    swap
    · cases hs
    rename_i left commits hp
    split at hs <;> cases hs
    exact h.unlock hp id
  | finish t =>
    simp only [TxnSystem.step] at hs
    split at hs
    swap
    · cases hs
    rename_i left commits hp
    split at hs <;> cases hs
    exact h.finish hp _ (h.txnId t)

/-- It holds in every state reached. -/
theorem txnSystem_inv {s : TxnSystem} (hs : txnSystem.Reachable s) : s.Inv := by
  refine hs.invariant ?_ (fun s a s' h hstep => h.step a hstep)
  rintro s rfl
  exact TxnSystem.start_inv

/-- **Strict two-phase locking.**  In every interleaving the conflict graph of the committed
    transactions is acyclic, the order of their commits serializes them, and whoever reads a
    record that another transaction has written does so after that transaction has begun to
    release its locks. -/
theorem commits_serialize_transactions {s : TxnSystem} (hs : txnSystem.Reachable s) :
    (∀ t, ¬ Relation.TransGen (CommittedPrecedes FileAccess.Conflict s.history) t t) ∧
    (∀ (t₁ t₂ : TxnId) (c₁ c₂ : ℕ), s.history[c₁]? = some (Event.commit t₁) →
      s.history[c₂]? = some (Event.commit t₂) →
      Precedes FileAccess.Conflict s.history t₁ t₂ → c₁ < c₂) ∧
    ∀ (i j : ℕ) (t₁ t₂ : TxnId) (w r : FileAccess), Committed s.history t₁ → t₁ ≠ t₂ → i < j →
      s.history[i]? = some (Event.access t₂ w) → w.isWrite = true →
      s.history[j]? = some (Event.access t₁ r) → r.isWrite = false →
      w.fd = r.fd → (r.rid? = none ∨ w.rid? = r.rid?) →
      ∃ k, i < k ∧ k < j ∧ s.history[k]? = some (Event.release t₂) := by
  have h := (txnSystem_inv hs).history
  refine ⟨h.acyclic, fun t₁ t₂ c₁ c₂ h₁ h₂ hp => h.commit_order h₁ h₂ hp, ?_⟩
  intro i j t₁ t₂ w r _ hne hij hi hw hj _ hfd hrid
  exact h.separated i j t₂ t₁ w r hij hi hj hne.symm ⟨hfd, Or.inl hw, Or.inr hrid⟩

/-- Transaction 0 inserts a record and commits; transaction 1 reads it and commits. -/
def insertThenRead : List TxnStep :=
  [.statement 0 (.insert 3 ⟨1, 0⟩), .act 0, .act 0, .act 0, .commit 0,
    .unlock 0 (.ofRecord 3 ⟨1, 0⟩), .unlock 0 (.ofTable 3), .finish 0,
    .statement 1 (.select [3] [(0, none), (0, some ⟨1, 0⟩)]), .act 1, .act 1, .act 1, .act 1,
    .commit 1, .unlock 1 (.ofRecord 3 ⟨1, 0⟩), .unlock 1 (.ofTable 3), .finish 1]

/-- In `insertThenRead` the record is read after transaction 0 has begun to release. -/
theorem commits_serialize_insert_then_read :
    ∃ s, insertThenRead.foldlM TxnSystem.step TxnSystem.start = some s ∧
      Committed s.history 0 ∧ Committed s.history 1 ∧
      ∃ k, 0 < k ∧ k < 5 ∧ s.history[k]? = some (Event.release 0) := by
  have hrun : (insertThenRead.foldlM TxnSystem.step TxnSystem.start).map TxnSystem.history =
      some [.access 0 (.insertRecord 3 ⟨1, 0⟩), .release 0, .release 0, .commit 0,
        .access 1 (.scan 3), .access 1 (.getRecord 3 ⟨1, 0⟩), .release 1, .release 1,
        .commit 1] := rfl
  obtain ⟨s, hs, hh⟩ := Option.map_eq_some_iff.mp hrun
  have hreach : txnSystem.Reachable s :=
    TransitionSystem.Reachable.foldlM (fun _ _ _ h => h) (.init rfl) hs
  have h₀ : Committed s.history 0 := ⟨3, by rw [hh]; rfl⟩
  have h₁ : Committed s.history 1 := ⟨8, by rw [hh]; rfl⟩
  refine ⟨s, hs, h₀, h₁, ?_⟩
  exact (commits_serialize_transactions hreach).2.2 0 5 1 0 (.insertRecord 3 ⟨1, 0⟩)
    (.getRecord 3 ⟨1, 0⟩) h₁ (by decide) (by decide) (by rw [hh]; rfl) rfl
    (by rw [hh]; rfl) rfl rfl (Or.inr rfl)

end Rmdb
