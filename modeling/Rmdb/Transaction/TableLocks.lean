import Rmdb.Transaction.HeldLocks
import Rmdb.Transaction.Serializability

namespace Rmdb

open Lib

/-!
# Table locks and record locks (`sm_manager.cpp`, the executors, `rm_file_handle.cpp`)

The statements of `Concurrency.lean` together with those that create and destroy files.  The record
locks are taken in `RmFileHandle`, the table locks by the constructors of the executors;
`SmManager::create_index` reads every record and takes no table lock, and neither do the other three.

* `TableStatement.actions` — what each statement does, `DdlOp` what it does to whole files;
* `tablesSystem` — every interleaving of any number of transactions;
* `MultiGranularity` — a record lock is held under an intention lock, and files are created, scanned
  for an index and destroyed under a table lock that keeps writers out;
* `OrderlyTable` — the steps under which that holds;
* `Guarded` — every request of a statement finds its table locked;
* `tables_multiGranularity` — the theorem.
-/

/-! ### Statements -/

/-- What is done to a whole file: the table's, or that of one of its indexes. -/
inductive DdlOp where
  | createTable (fd : Int)
  | createIndex (fd : Int)
  /-- `RmScan` moves on in `create_index`. -/
  | scanForIndex (fd : Int)
  | dropIndex (fd : Int)
  | dropTable (fd : Int)
  deriving DecidableEq, Repr

/-- The table. -/
def DdlOp.fd : DdlOp → Int
  | .createTable fd | .createIndex fd | .scanForIndex fd | .dropIndex fd | .dropTable fd => fd

/-- One thing a statement does. -/
inductive TableAction where
  | record (a : Action)
  | ddl (op : DdlOp)
  deriving DecidableEq, Repr

/-- All statements that touch a table. -/
inductive TableStatement where
  | dml (stmt : Statement)
  /-- `load_csv`: an `InsertExecutor` for each line. -/
  | load (fd : Int) (rids : List Rid)
  | createTable (fd : Int)
  /-- With the number of its indexes. -/
  | dropTable (fd : Int) (indexes : Nat)
  /-- The steps of the scan: `RmScan` moves on, or a record is read. -/
  | createIndex (fd : Int) (ops : List (Option Rid))
  | dropIndex (fd : Int)

/-- One step of the scan in `create_index`. -/
def indexScanActions (fd : Int) : Option Rid → List TableAction
  | none => [.ddl (.scanForIndex fd)]
  | some rid => (getRecordActions fd rid).map .record

/-- What the statement does. -/
def TableStatement.actions : TableStatement → List TableAction
  | .dml stmt => stmt.actions.map .record
  | .load fd rids => rids.flatMap fun rid => (Statement.insert fd rid).actions.map .record
  | .createTable fd => [.ddl (.createTable fd)]
  | .dropTable fd indexes => List.replicate indexes (.ddl (.dropIndex fd)) ++ [.ddl (.dropTable fd)]
  | .createIndex fd ops => [.ddl (.createIndex fd)] ++ ops.flatMap (indexScanActions fd)
  | .dropIndex fd => [.ddl (.dropIndex fd)]

/-! ### The system -/

/-- How far a transaction is (see `Phase`). -/
inductive TablePhase where
  | running (todo : List TableAction)
  | failed
  | rollingBack (todo : List Action)
  | releasing (left : Finset LockDataId) (commits : Bool)
  | ended
  | stuck

/-- A transaction and its client. -/
structure TableClient where
  txn : Transaction
  phase : TablePhase
  /-- The write set, newest first. -/
  writes : List Write

/-- The clients, the lock manager and `TransactionManager::latch_`. -/
structure TableSystem where
  mgr : LockManager
  clients : TxnId → TableClient
  latch : Option TxnId

namespace TableSystem

/-- The start: nothing locked and no transaction has done anything. -/
def start : TableSystem where
  mgr := .empty
  clients t := { txn := .new t, phase := .running [], writes := [] }
  latch := none

/-- Replace one client and the shared parts. -/
def put (s : TableSystem) (t : TxnId) (c : TableClient) (mgr : LockManager) (latch : Option TxnId) :
    TableSystem where
  mgr := mgr
  clients t' := if t' = t then c else s.clients t'
  latch := latch

/-- An action of a statement. -/
def runAction (s : TableSystem) (t : TxnId) (todo : List TableAction) : TableAction → TableSystem
  | .record (.lock call) =>
    let c := s.clients t
    match call.run c.txn s.mgr with
    | (.ok _, txn, mgr) => s.put t { c with txn := txn, phase := .running todo } mgr s.latch
    | (.error _, txn, mgr) => s.put t { c with txn := txn, phase := .failed } mgr s.latch
  | .record (.access a) =>
    let c := s.clients t
    s.put t { c with phase := .running todo, writes := a.write?.toList ++ c.writes } s.mgr s.latch
  | .ddl _ => s.put t { s.clients t with phase := .running todo } s.mgr s.latch

/-- An action of the rollback loop. -/
def undoAction (s : TableSystem) (t : TxnId) (todo : List Action) : Action → TableSystem
  | .lock call =>
    let c := s.clients t
    match call.run c.txn s.mgr with
    | (.ok _, txn, mgr) => s.put t { c with txn := txn, phase := .rollingBack todo } mgr s.latch
    | (.error _, txn, mgr) => s.put t { c with txn := txn, phase := .stuck } mgr none
  | .access _ => s.put t { s.clients t with phase := .rollingBack todo } s.mgr s.latch

end TableSystem

/-- What can happen next (see `TxnStep`). -/
inductive TablesStep where
  | statement (t : TxnId) (stmt : TableStatement)
  | act (t : TxnId)
  | error (t : TxnId)
  | commit (t : TxnId)
  | abort (t : TxnId)
  | undo (t : TxnId) (newRid : Rid)
  | rolledBack (t : TxnId)
  | unlock (t : TxnId) (id : LockDataId)
  | finish (t : TxnId)

/-- One step, where it is possible. -/
def TableSystem.step (s : TableSystem) : TablesStep → Option TableSystem
  | .statement t stmt =>
    let c := s.clients t
    match c.phase with
    | .running [] => some (s.put t { c with phase := .running stmt.actions } s.mgr s.latch)
    | _ => none
  | .act t =>
    match (s.clients t).phase with
    | .running (a :: todo) => some (s.runAction t todo a)
    | .rollingBack (a :: todo) => some (s.undoAction t todo a)
    | _ => none
  | .error t =>
    let c := s.clients t
    match c.phase with
    | .running _ => some (s.put t { c with phase := .running [] } s.mgr s.latch)
    | _ => none
  | .commit t =>
    let c := s.clients t
    match c.phase, s.latch with
    | .running [], none =>
      some (s.put t { c with phase := .releasing c.txn.lockSet true } s.mgr (some t))
    | _, _ => none
  | .abort t =>
    let c := s.clients t
    match c.phase, s.latch with
    | .running [], none => some (s.put t { c with phase := .rollingBack [] } s.mgr (some t))
    | .failed, none => some (s.put t { c with phase := .rollingBack [] } s.mgr (some t))
    | _, _ => none
  | .undo t newRid =>
    let c := s.clients t
    match c.phase, c.writes with
    | .rollingBack [], w :: writes =>
      some (s.put t { c with phase := .rollingBack (w.undoActions newRid), writes := writes }
        s.mgr s.latch)
    | _, _ => none
  | .rolledBack t =>
    let c := s.clients t
    match c.phase, c.writes with
    | .rollingBack [], [] =>
      some (s.put t { c with phase := .releasing c.txn.lockSet false } s.mgr s.latch)
    | _, _ => none
  | .unlock t id =>
    let c := s.clients t
    match c.phase with
    | .releasing left commits =>
      if id ∈ left then
        let r := Rmdb.unlock c.txn id s.mgr
        some (s.put t { c with txn := r.2.1, phase := .releasing (left.erase id) commits } r.2.2
          s.latch)
      else none
    | _ => none
  | .finish t =>
    let c := s.clients t
    match c.phase with
    | .releasing left commits =>
      if left = ∅ then
        let state := if commits then TransactionState.committed else TransactionState.aborted
        some (s.put t { c with txn := { c.txn with lockSet := ∅, state := state }, phase := .ended }
          s.mgr none)
      else none
    | _ => none

/-- **The system.** -/
def tablesSystem : TransitionSystem TableSystem TablesStep where
  init s := s = .start
  step s a s' := s.step a = some s'

/-! ### The protocol -/

/-- The intention lock under which a record is locked. -/
def LockMode.intent : LockMode → LockMode
  | .exclusive => .intentionExclusive
  | _ => .intentionShared

/-- Every record lock is held under its intention lock. -/
def RecordsGuarded (mgr : LockManager) : Prop :=
  ∀ t fd rid mode, mgr.heldMode (.ofRecord fd rid) t = some mode →
    Held mgr t (.ofTable fd, mode.intent)

/-- **The multi-granularity protocol.** -/
structure TableSystem.MultiGranularity (s : TableSystem) : Prop where
  records : RecordsGuarded s.mgr
  /-- Whoever is about to create, scan or destroy a file holds a lock that keeps writers out. -/
  files : ∀ t op todo, (s.clients t).phase = .running (.ddl op :: todo) →
    ∃ mode, s.mgr.heldMode (.ofTable op.fd) t = some mode ∧
      mode.compatible .intentionExclusive = false

/-- A statement that may be sent: one that creates or destroys a file needs `S` on the table, or a
    stronger lock, from an earlier statement of the transaction.  A new table cannot be locked. -/
def TableStatement.MaySend (held : LockDataId × LockMode → Prop) : TableStatement → Prop
  | .dml _ | .load _ _ => True
  | .createTable _ => False
  | .dropTable fd _ | .createIndex fd _ | .dropIndex fd => held (.ofTable fd, .shared)

/-- **An orderly step**: the statement may be sent, and the unlock loop unlocks a table after its
    records. -/
def OrderlyTable (s : TableSystem) : TablesStep → Prop
  | .statement t stmt => stmt.MaySend (Held s.mgr t)
  | .unlock t id => id.type = .table → ∀ rid, s.mgr.heldMode (.ofRecord id.fd rid) t = none
  | _ => True

/-- The system in which every step is orderly. -/
def orderlyTables : TransitionSystem TableSystem TablesStep where
  init s := s = .start
  step s a s' := s.step a = some s' ∧ OrderlyTable s a

/-! ### Statements lock tables first -/

/-- What must be held when the action is taken. -/
def TableAction.Needs (held : LockDataId × LockMode → Prop) : TableAction → Prop
  | .record (.lock (.sharedOnRecord _ fd)) => held (.ofTable fd, .intentionShared)
  | .record (.lock (.exclusiveOnRecord _ fd)) => held (.ofTable fd, .intentionExclusive)
  | .record (.lock _) => True
  | .record (.access a) => ∀ w, a.write? = some w → held (.ofTable w.fd, .intentionExclusive)
  | .ddl op => held (.ofTable op.fd, .shared)

/-- What is held afterwards. -/
def TableAction.Gains (p : LockDataId × LockMode) : TableAction → Prop
  | .record (.lock c) => p.1 = c.id ∧ p.2 ≤ c.mode
  | _ => False

/-- More locks. -/
theorem TableAction.Needs.mono {held held' : LockDataId × LockMode → Prop} {a : TableAction}
    (h : a.Needs held) (hle : ∀ p, held p → held' p) : a.Needs held' := by
  cases a with
  | record a =>
    cases a with
    | lock c => cases c <;> first | exact hle _ h | trivial
    | access a => exact fun w hw => hle _ (h w hw)
  | ddl op => exact hle _ h

/-- Every action of the list finds what it needs, or an action before it has brought it. -/
def Guarded (held : LockDataId × LockMode → Prop) : List TableAction → Prop
  | [] => True
  | a :: todo => a.Needs held ∧ Guarded (fun p => held p ∨ a.Gains p) todo

/-- More locks. -/
theorem Guarded.mono {held held' : LockDataId × LockMode → Prop} {todo : List TableAction}
    (h : Guarded held todo) (hle : ∀ p, held p → held' p) : Guarded held' todo := by
  induction todo generalizing held held' with
  | nil => trivial
  | cons a todo ih => exact ⟨h.1.mono hle, ih h.2 fun p hp => hp.imp (hle p) id⟩

/-- The second list has the locks that the first one takes. -/
theorem Guarded.append {held : LockDataId × LockMode → Prop} {l k : List TableAction}
    (h₁ : Guarded held l) (h₂ : Guarded (fun p => held p ∨ ∃ a ∈ l, a.Gains p) k) :
    Guarded held (l ++ k) := by
  induction l generalizing held with
  | nil => exact h₂.mono fun p hp => hp.elim id fun ⟨_, ha, _⟩ => absurd ha List.not_mem_nil
  | cons a l ih =>
    refine ⟨h₁.1, ih h₁.2 (h₂.mono ?_)⟩
    rintro p (hp | ⟨a', ha', hp⟩)
    · exact Or.inl (Or.inl hp)
    · rcases List.mem_cons.mp ha' with rfl | ha'
      · exact Or.inl (Or.inr hp)
      · exact Or.inr ⟨a', ha', hp⟩

/-- A loop is guarded if its body is. -/
theorem Guarded.flatMap {α : Type*} {held : LockDataId × LockMode → Prop}
    {body : α → List TableAction} (h : ∀ x, Guarded held (body x)) (xs : List α) :
    Guarded held (xs.flatMap body) := by
  induction xs with
  | nil => trivial
  | cons x xs ih =>
    rw [List.flatMap_cons]
    exact (h x).append (ih.mono fun p hp => Or.inl hp)

section Statements

variable {held : LockDataId × LockMode → Prop} {fd : Int}

/-- `get_record` under the intention lock of its table. -/
theorem guarded_getRecord (rid : Rid) (h : held (.ofTable fd, .intentionShared)) :
    Guarded held ((getRecordActions fd rid).map .record) :=
  ⟨h, fun w hw => (by cases hw), trivial⟩

/-- The three writes of `RmFileHandle` are guarded under `IX` on the table. -/
theorem guarded_write (rid : Rid) (h : held (.ofTable fd, .intentionExclusive)) :
    Guarded held ((insertRecordActions fd rid).map .record) ∧
      Guarded held ((updateRecordActions fd rid).map .record) ∧
      Guarded held ((deleteRecordActions fd rid).map .record) := by
  refine ⟨⟨h, fun w hw => ?_, trivial⟩, ⟨h, fun w hw => ?_, trivial⟩, ⟨h, fun w hw => ?_, trivial⟩⟩ <;>
  · cases hw
    exact Or.inl h

/-- `S` on the table guards a scan. -/
theorem guarded_scan (h : held (.ofTable fd, .intentionShared)) (op : Option Rid) :
    Guarded held ((scanActions fd op).map .record) := by
  cases op with
  | none => exact ⟨fun w hw => (by cases hw), trivial⟩
  | some rid => exact guarded_getRecord rid h

/-- The lock of a table brings its intention lock. -/
theorem gains_sharedOnTable (fd : Int) :
    (TableAction.record (.lock (.sharedOnTable fd))).Gains (.ofTable fd, .intentionShared) :=
  ⟨rfl, show LockMode.intentionShared ≤ .shared by decide⟩

/-- The intention lock for writing covers that for reading. -/
theorem gains_ixOnTable (fd : Int) (mode : LockMode) (h : mode ≤ .intentionExclusive) :
    (TableAction.record (.lock (.ixOnTable fd))).Gains (.ofTable fd, mode) :=
  ⟨rfl, h⟩

/-- `INSERT`. -/
theorem guarded_insert (held : LockDataId × LockMode → Prop) (fd : Int) (rid : Rid) :
    Guarded held ((Statement.insert fd rid).actions.map .record) :=
  ⟨trivial, (guarded_write rid (Or.inr (gains_ixOnTable fd _ (le_refl _)))).1⟩

/-- `UPDATE` and `DELETE`: a scan under `S`, then a loop under `IX`. -/
theorem guarded_scanThenWrite (held : LockDataId × LockMode → Prop) (ops : List (Option Rid))
    {body : Rid → List Action} (hbody : ∀ (held' : LockDataId × LockMode → Prop) rid,
      held' (.ofTable fd, .intentionShared) → held' (.ofTable fd, .intentionExclusive) →
      Guarded held' ((body rid).map .record)) (rids : List Rid) :
    Guarded held ((seqScanActions fd ops ++ [Action.lock (.ixOnTable fd)] ++ rids.flatMap body).map
      .record) := by
  have hscan : Guarded held ((seqScanActions fd ops).map .record) := by
    refine ⟨trivial, ?_⟩
    show Guarded _ ((ops.flatMap (scanActions fd)).map TableAction.record)
    rw [List.map_flatMap]
    exact Guarded.flatMap (fun op => guarded_scan (Or.inr (gains_sharedOnTable fd)) op) ops
  have hlock : ∀ held' : LockDataId × LockMode → Prop,
      Guarded held' ([Action.lock (.ixOnTable fd)].map .record) := fun _ => ⟨trivial, trivial⟩
  rw [List.map_append, List.map_append, List.map_flatMap]
  refine (hscan.append (hlock _)).append (Guarded.flatMap (fun rid => hbody _ rid ?_ ?_) rids)
  all_goals
    refine Or.inr ⟨.record (.lock (.ixOnTable fd)), ?_, gains_ixOnTable fd _ (by decide)⟩
    exact List.mem_append_right _ (List.mem_singleton_self _)

/-- **Every executor locks the table before its records.** -/
theorem Statement.guarded (stmt : Statement) (held : LockDataId × LockMode → Prop) :
    Guarded held (stmt.actions.map .record) := by
  cases stmt with
  | select fds ops =>
    have hlocks : ∀ (l : List Int) (held : LockDataId × LockMode → Prop),
        Guarded held (l.map fun fd => .record (.lock (.sharedOnTable fd))) := by
      intro l
      induction l with
      | nil => exact fun _ => trivial
      | cons fd l ih => exact fun _ => ⟨trivial, ih _⟩
    unfold Statement.actions
    rw [List.map_append, List.map_map, List.map_flatMap]
    refine (hlocks fds held).append (Guarded.flatMap (fun op => guarded_scan (Or.inr ?_) op.2) ops)
    exact ⟨_, List.mem_map_of_mem (List.get_mem fds op.1), gains_sharedOnTable _⟩
  | insert fd rid => exact guarded_insert held fd rid
  | update fd ops rids =>
    refine guarded_scanThenWrite held ops (fun held' rid his hix => ?_) rids
    rw [List.map_append]
    exact (guarded_getRecord rid his).append (guarded_write rid (Or.inl hix)).2.1
  | delete fd ops rids =>
    refine guarded_scanThenWrite held ops (fun held' rid his hix => ?_) rids
    rw [List.map_append]
    exact (guarded_getRecord rid his).append (guarded_write rid (Or.inl hix)).2.2

/-- A statement that may be sent is guarded. -/
theorem TableStatement.guarded (stmt : TableStatement)
    (hdown : ∀ id m m', held (id, m) → m' ≤ m → held (id, m')) (h : stmt.MaySend held) :
    Guarded held stmt.actions := by
  cases stmt with
  | dml stmt => exact stmt.guarded held
  | load fd rids => exact Guarded.flatMap (fun rid => guarded_insert held fd rid) rids
  | createTable fd => exact h.elim
  | dropTable fd indexes =>
    refine Guarded.append ?_ ⟨Or.inl h, trivial⟩
    have hall : ∀ (n : Nat) (held : LockDataId × LockMode → Prop), held (.ofTable fd, .shared) →
        Guarded held (List.replicate n (.ddl (.dropIndex fd))) := by
      intro n
      induction n with
      | zero => exact fun _ _ => trivial
      | succ n ih => exact fun _ h => ⟨h, ih _ (Or.inl h)⟩
    exact hall indexes held h
  | createIndex fd ops =>
    refine Guarded.append (l := [.ddl (.createIndex fd)]) ⟨h, trivial⟩
      (Guarded.flatMap (fun op => ?_) ops)
    cases op with
    | none => exact ⟨Or.inl h, trivial⟩
    | some rid => exact guarded_getRecord rid (Or.inl (hdown _ _ _ h (by decide)))
  | dropIndex fd => exact ⟨h, trivial⟩

/-- The rollback of an entry is guarded as long as `IX` on its table is held. -/
theorem Write.guarded (w : Write) (newRid : Rid)
    (hdown : ∀ id m m', held (id, m) → m' ≤ m → held (id, m'))
    (hix : held (.ofTable w.fd, .intentionExclusive)) :
    Guarded held ((w.undoActions newRid).map .record) := by
  have his : held (.ofTable w.fd, .intentionShared) := hdown _ _ _ hix (by decide)
  unfold Write.undoActions
  cases w.wtype with
  | insertTuple =>
    dsimp only
    rw [List.map_append]
    exact (guarded_getRecord w.rid his).append (guarded_write w.rid (Or.inl hix)).2.2
  | deleteTuple => exact (guarded_write newRid hix).1
  | updateTuple =>
    dsimp only
    rw [List.map_append]
    exact (guarded_getRecord w.rid his).append (guarded_write w.rid (Or.inl hix)).2.1

end Statements

/-! ### Locks over a step -/

/-- A lock that is held is held in every smaller mode. -/
theorem Held.down {mgr : LockManager} {t : TxnId} {id : LockDataId} {m m' : LockMode}
    (h : Held mgr t (id, m)) (hle : m' ≤ m) : Held mgr t (id, m') := by
  obtain ⟨own, hown, hm⟩ := h
  exact ⟨own, hown, le_trans hle hm⟩

/-- The mode of a record lock. -/
theorem LockManager.Inv.record_mode {m : LockManager} (h : m.Inv) {fd : Int} {rid : Rid} {t : TxnId}
    {mode : LockMode} (hm : m.heldMode (.ofRecord fd rid) t = some mode) :
    mode = .shared ∨ mode = .exclusive := by
  obtain ⟨r, hr, rfl⟩ := Option.map_eq_some_iff.mp hm
  exact h.record _ rfl r (List.mem_of_find?_eq_some hr)

/-- **A lock function keeps record locks under intention locks**, if the transaction holds the intention
    lock it needs. -/
theorem LockCall.run_guarded (c : LockCall) {m : LockManager} (h : m.Inv) (hg : RecordsGuarded m)
    {txn : Transaction} (hact : txn.state = .default ∨ txn.state = .growing)
    (hneed : (TableAction.record (.lock c)).Needs (Held m txn.txnId)) :
    RecordsGuarded (c.run txn m).2.2 := by
  have hspec := c.run_grant h hact
  intro t fd rid mode hmode
  -- a mode that was there before is guarded as before
  have hold : m.heldMode (.ofRecord fd rid) t = some mode →
      Held (c.run txn m).2.2 t (.ofTable fd, mode.intent) :=
    fun hm => c.run_held h hact (hg t fd rid mode hm)
  by_cases hid : LockDataId.ofRecord fd rid = c.id
  swap
  · refine hold ?_
    rw [LockManager.heldMode, hspec.frame _ hid] at hmode
    exact hmode
  by_cases ht : t = txn.txnId
  swap
  · refine hold ?_
    have hreq := hspec.others t ht
    rw [LockManager.heldMode, modeOf_eq_head?] at hmode ⊢
    rw [LockManager.requests, LockManager.requests, ← hid] at hreq
    rw [← hreq]
    exact hmode
  subst ht
  by_cases hok : (c.run txn m).1 = .ok true
  swap
  · refine hold ?_
    have hreq := ((hspec.refused hok).1 (.ofRecord fd rid)).1
    rw [LockManager.requests, LockManager.requests] at hreq
    rw [LockManager.heldMode, LockRequestQueue.modeOf] at hmode ⊢
    rw [← hreq]
    exact hmode
  -- the mode becomes the join of the old one and the one asked for
  have hjoin := hspec.granted_mode hok
  rw [← hid, hmode] at hjoin
  have hnew : Held m txn.txnId (.ofTable fd, c.mode.intent) ∧
      (c.mode = .shared ∨ c.mode = .exclusive) := by
    cases c with
    | sharedOnRecord rid' fd' =>
      cases hid
      exact ⟨hneed, Or.inl rfl⟩
    | exclusiveOnRecord rid' fd' =>
      cases hid
      exact ⟨hneed, Or.inr rfl⟩
    | sharedOnTable fd' | exclusiveOnTable fd' | isOnTable fd' | ixOnTable fd' => cases hid
  cases hown : m.heldMode (.ofRecord fd rid) txn.txnId with
  | none =>
    rw [hown] at hjoin
    cases hjoin
    exact c.run_held h hact hnew.1
  | some own =>
    rw [hown] at hjoin
    have hmode' : mode = own ∨ mode = c.mode := by
      rw [Option.some.inj hjoin]
      show own ⊔ c.mode = own ∨ own ⊔ c.mode = c.mode
      rcases h.record_mode hown with rfl | rfl <;> rcases hnew.2 with hc | hc <;> rw [hc] <;> decide
    rcases hmode' with rfl | rfl
    · exact hold hown
    · exact c.run_held h hact hnew.1

/-- `unlock` changes one queue only. -/
theorem unlock_lockTable (txn : Transaction) (id : LockDataId) (m : LockManager) {id' : LockDataId}
    (hid : id' ≠ id) : (unlock txn id m).2.2.lockTable id' = m.lockTable id' := by
  unfold unlock
  cases txn.state <;> dsimp only <;> split <;>
    first | rfl | exact m.setQueue_of_ne _ hid

/-- What is held after an `unlock` was held before. -/
theorem heldMode_of_unlock {txn : Transaction} {m : LockManager} (h : m.Inv) {id id' : LockDataId}
    {t : TxnId} {mode : LockMode} (hm : (unlock txn id m).2.2.heldMode id' t = some mode) :
    m.heldMode id' t = some mode := by
  by_cases hid : id' = id
  swap
  · rw [LockManager.heldMode, unlock_lockTable txn id m hid] at hm
    exact hm
  subst hid
  -- the queue loses the request of the transaction
  have hrelease : ∀ q, m.lockTable id' = some q →
      (m.setQueue id' (q.release txn.txnId)).heldMode id' t = some mode →
      m.heldMode id' t = some mode := by
    intro q hq hm
    rw [LockManager.heldMode, m.setQueue_self, Option.getD_some] at hm
    have hne : t ≠ txn.txnId := by
      obtain ⟨r, hr, -⟩ := Option.map_eq_some_iff.mp hm
      have ht : t = r.txnId := by simpa using List.find?_some hr
      have hnd := (h.queue id').nodup
      rw [LockManager.requests, hq, Option.getD_some] at hnd
      have hmem := List.mem_map_of_mem (f := LockRequest.txnId) (List.mem_of_find?_eq_some hr)
      rw [← ht] at hmem
      exact ((mem_eraseP_lockers hnd _ _).mp hmem).2
    rw [q.modeOf_release hne] at hm
    rw [LockManager.heldMode, hq, Option.getD_some]
    exact hm
  unfold unlock at hm
  cases hs : txn.state <;> rw [hs] at hm <;> dsimp only at hm <;> (try exact hm) <;> split at hm <;>
    first | exact hm | exact hrelease _ (by assumption) hm

/-- **`unlock` keeps record locks under intention locks**, if a table is unlocked after its records. -/
theorem unlock_guarded {txn : Transaction} {m : LockManager} (h : m.Inv) (hg : RecordsGuarded m)
    {id : LockDataId}
    (hlast : id.type = .table → ∀ rid, m.heldMode (.ofRecord id.fd rid) txn.txnId = none) :
    RecordsGuarded (unlock txn id m).2.2 := by
  intro t fd rid mode hmode
  have hold := heldMode_of_unlock h hmode
  have hheld := hg t fd rid mode hold
  by_cases ht : t = txn.txnId
  · have hid : LockDataId.ofTable fd ≠ id := by
      rintro rfl
      have hnone := hlast rfl rid
      rw [ht] at hold
      have hfd : (LockDataId.ofTable fd).fd = fd := rfl
      rw [hfd, hold] at hnone
      cases hnone
    obtain ⟨own, hown, hle⟩ := hheld
    refine ⟨own, ?_, hle⟩
    rw [LockManager.heldMode, unlock_lockTable txn id m hid]
    exact hown
  · exact unlock_held txn id m ht hheld

/-! ### The invariant -/

/-- A transaction that may still lock: it holds `IX` on every table it has written. -/
structure StillGrowing (mgr : LockManager) (t : TxnId) (c : TableClient) : Prop where
  state : c.txn.state = .default ∨ c.txn.state = .growing
  writes : ∀ w ∈ c.writes, Held mgr t (.ofTable w.fd, .intentionExclusive)

/-- The invariant of one client. -/
def TablePhaseInv (mgr : LockManager) (t : TxnId) (c : TableClient) : Prop :=
  match c.phase with
  | .running todo => StillGrowing mgr t c ∧ Guarded (Held mgr t) todo
  | .failed => StillGrowing mgr t c
  | .rollingBack todo => StillGrowing mgr t c ∧ Guarded (Held mgr t) (todo.map .record)
  | .releasing _ _ | .ended | .stuck => True

/-- **The invariant of the system.** -/
structure TableSystem.Inv (s : TableSystem) : Prop where
  mgr : s.mgr.Inv
  txnId : ∀ t, (s.clients t).txn.txnId = t
  client : ∀ t, TablePhaseInv s.mgr t (s.clients t)
  records : RecordsGuarded s.mgr

/-- Steps of the others. -/
theorem StillGrowing.frame {mgr mgr' : LockManager} {t : TxnId} {c : TableClient}
    (h : StillGrowing mgr t c) (hheld : ∀ p, Held mgr t p → Held mgr' t p) : StillGrowing mgr' t c :=
  ⟨h.state, fun w hw => hheld _ (h.writes w hw)⟩

/-- What another transaction does leaves a client's invariant alone. -/
theorem TablePhaseInv.frame {mgr mgr' : LockManager} {t : TxnId} {c : TableClient}
    (h : TablePhaseInv mgr t c) (hheld : ∀ p, Held mgr t p → Held mgr' t p) :
    TablePhaseInv mgr' t c := by
  unfold TablePhaseInv at h ⊢
  cases hp : c.phase with
  | running todo =>
    rw [hp] at h
    exact ⟨h.1.frame hheld, h.2.mono hheld⟩
  | failed =>
    rw [hp] at h
    exact StillGrowing.frame h hheld
  | rollingBack todo =>
    rw [hp] at h
    exact ⟨h.1.frame hheld, h.2.mono hheld⟩
  | releasing left commits => trivial
  | ended => trivial
  | stuck => trivial

namespace TableSystem

variable {s s' : TableSystem} {t : TxnId}

/-- The invariant holds at the start. -/
theorem start_inv : start.Inv where
  mgr := LockManager.inv_empty
  txnId _ := rfl
  client _ := ⟨⟨Or.inl rfl, fun w hw => (by cases hw)⟩, trivial⟩
  records t fd rid mode h := by cases h

/-- **The step rule.** A step of transaction `t` keeps the invariant if it does so for `t` and takes no
    lock from anybody else. -/
theorem Inv.put (h : s.Inv) {c : TableClient} {mgr : LockManager} {latch : Option TxnId}
    (hmgr : mgr.Inv) (hheld : ∀ t' p, t' ≠ t → Held s.mgr t' p → Held mgr t' p)
    (hid : c.txn.txnId = t) (hphase : TablePhaseInv mgr t c) (hrecords : RecordsGuarded mgr) :
    (s.put t c mgr latch).Inv where
  mgr := hmgr
  txnId t' := by
    show (if t' = t then c else s.clients t').txn.txnId = t'
    split
    · rename_i ht
      rw [hid, ht]
    · exact h.txnId t'
  client t' := by
    show TablePhaseInv mgr t' (if t' = t then c else s.clients t')
    split
    · rename_i ht
      rw [ht]
      exact hphase
    · rename_i ht
      exact (h.client t').frame fun p => hheld t' p ht
  records := hrecords

/-- A step of `t` that leaves the lock manager alone. -/
theorem Inv.put_same (h : s.Inv) {c : TableClient} {latch : Option TxnId} (hid : c.txn.txnId = t)
    (hphase : TablePhaseInv s.mgr t c) : (s.put t c s.mgr latch).Inv :=
  h.put h.mgr (fun _ _ _ hp => hp) hid hphase h.records

/-- A lock request of `t`, whatever it does next. -/
theorem Inv.lock (h : s.Inv) {call : LockCall} (phase : TablePhase) (latch : Option TxnId)
    (hgrow : StillGrowing s.mgr t (s.clients t))
    (hneed : (TableAction.record (.lock call)).Needs (Held s.mgr t))
    (hphase : StillGrowing (call.run (s.clients t).txn s.mgr).2.2 t { s.clients t with
      txn := (call.run (s.clients t).txn s.mgr).2.1, phase := phase } →
      TablePhaseInv (call.run (s.clients t).txn s.mgr).2.2 t { s.clients t with
        txn := (call.run (s.clients t).txn s.mgr).2.1, phase := phase }) :
    (s.put t { s.clients t with txn := (call.run (s.clients t).txn s.mgr).2.1, phase := phase }
      (call.run (s.clients t).txn s.mgr).2.2 latch).Inv := by
  have hid := h.txnId t
  refine h.put (call.run_inv h.mgr _) (fun t' p _ hp => call.run_held h.mgr hgrow.state hp) ?_ ?_ ?_
  · rw [call.run_txnId]
    exact hid
  · refine hphase ⟨Or.inr (call.run_state _ hgrow.state), fun w hw => ?_⟩
    exact call.run_held h.mgr hgrow.state (hgrow.writes w hw)
  · refine call.run_guarded h.mgr h.records hgrow.state ?_
    rw [hid]
    exact hneed

/-- After a lock request that has returned, the rest of the list is guarded. -/
theorem Inv.guarded_after (h : s.Inv) (call : LockCall) (b : Bool) {todo : List TableAction}
    (hact : (s.clients t).txn.state = .default ∨ (s.clients t).txn.state = .growing)
    (hok : (call.run (s.clients t).txn s.mgr).1 = .ok b)
    (hrest : Guarded (fun p => Held s.mgr t p ∨ (TableAction.record (.lock call)).Gains p) todo) :
    Guarded (Held (call.run (s.clients t).txn s.mgr).2.2 t) todo := by
  refine hrest.mono ?_
  rintro ⟨id, mode⟩ (hp | ⟨hid, hle⟩)
  · exact call.run_held h.mgr hact hp
  · have hgot := call.run_ok_held h.mgr hact hok
    rw [h.txnId t] at hgot
    have hid' : id = call.id := hid
    subst hid'
    exact hgot.down hle

/-- An action of a statement. -/
theorem Inv.runAction (h : s.Inv) {a : TableAction} {todo : List TableAction}
    (hp : (s.clients t).phase = .running (a :: todo)) : (s.runAction t todo a).Inv := by
  have hclient := h.client t
  unfold TablePhaseInv at hclient
  rw [hp] at hclient
  obtain ⟨hgrow, hneed, hrest⟩ := hclient
  cases a with
  | ddl op => exact h.put_same (h.txnId t) ⟨⟨hgrow.state, hgrow.writes⟩, hrest.mono fun p hp =>
      hp.elim id fun hc => hc.elim⟩
  | record a =>
    cases a with
    | access a =>
      refine h.put_same (h.txnId t) ⟨⟨hgrow.state, fun w hw => ?_⟩, hrest.mono fun p hp =>
        hp.elim id fun hc => hc.elim⟩
      rcases List.mem_append.mp hw with hw | hw
      · exact hneed w (Option.mem_toList.mp hw)
      · exact hgrow.writes w hw
    | lock call =>
      unfold TableSystem.runAction
      dsimp only
      have hlock := fun phase => h.lock phase s.latch hgrow hneed
      have hafter := fun b hok => h.guarded_after call b hgrow.state hok hrest
      generalize call.run (s.clients t).txn s.mgr = r at hlock hafter ⊢
      obtain ⟨out, txn, mgr⟩ := r
      cases out with
      | ok b => exact hlock (.running todo) fun hg => ⟨hg, hafter b rfl⟩
      | error e => exact hlock .failed fun hg => hg

/-- An action of the rollback. -/
theorem Inv.undoAction (h : s.Inv) {a : Action} {todo : List Action}
    (hp : (s.clients t).phase = .rollingBack (a :: todo)) : (s.undoAction t todo a).Inv := by
  have hclient := h.client t
  unfold TablePhaseInv at hclient
  rw [hp] at hclient
  obtain ⟨hgrow, hneed, hrest⟩ := hclient
  cases a with
  | access a => exact h.put_same (h.txnId t) ⟨⟨hgrow.state, hgrow.writes⟩, hrest.mono fun p hp =>
      hp.elim id fun hc => hc.elim⟩
  | lock call =>
    unfold TableSystem.undoAction
    dsimp only
    have hlock := fun latch phase => h.lock phase latch hgrow hneed
    have hafter := fun b hok => h.guarded_after call b hgrow.state hok hrest
    generalize call.run (s.clients t).txn s.mgr = r at hlock hafter ⊢
    obtain ⟨out, txn, mgr⟩ := r
    cases out with
    | ok b => exact hlock s.latch (.rollingBack todo) fun hg => ⟨hg, hafter b rfl⟩
    | error e => exact hlock none .stuck fun _ => trivial

/-- **Every orderly step keeps the invariant.** -/
theorem Inv.step (h : s.Inv) {a : TablesStep} (hs : s.step a = some s') (ho : OrderlyTable s a) :
    s'.Inv := by
  have hclient := fun t => h.client t
  unfold TablePhaseInv at hclient
  cases a with
  | statement t stmt =>
    -- its list of actions takes each lock before the access that needs it
    unfold TableSystem.step at hs
    dsimp only at hs
    split at hs
    · rename_i hp
      cases hs
      have hc := hclient t
      rw [hp] at hc
      exact h.put_same (h.txnId t) ⟨⟨hc.1.state, hc.1.writes⟩,
        stmt.guarded (fun _ _ _ hm hle => hm.down hle) ho⟩
    · cases hs
  | act t =>
    -- an action of the statement, or one of the rollback
    unfold TableSystem.step at hs
    dsimp only at hs
    split at hs
    · rename_i hp
      cases hs
      exact h.runAction hp
    · rename_i hp
      cases hs
      exact h.undoAction hp
    · cases hs
  | error t =>
    -- the rest of the list is dropped
    unfold TableSystem.step at hs
    dsimp only at hs
    split at hs
    · rename_i hp
      cases hs
      have hc := hclient t
      rw [hp] at hc
      exact h.put_same (h.txnId t) ⟨⟨hc.1.state, hc.1.writes⟩, trivial⟩
    · cases hs
  | commit t =>
    unfold TableSystem.step at hs
    dsimp only at hs
    split at hs
    · cases hs
      exact h.put_same (h.txnId t) trivial
    · cases hs
  | abort t =>
    -- from between two statements, or after an error
    unfold TableSystem.step at hs
    dsimp only at hs
    split at hs
    · rename_i hp hlatch
      cases hs
      have hc := hclient t
      rw [hp] at hc
      exact h.put_same (h.txnId t) ⟨⟨hc.1.state, hc.1.writes⟩, trivial⟩
    · rename_i hp hlatch
      cases hs
      have hc := hclient t
      rw [hp] at hc
      exact h.put_same (h.txnId t) ⟨⟨hc.state, hc.writes⟩, trivial⟩
    · cases hs
  | undo t newRid =>
    -- the next write of the write set is undone under the locks that it was made with
    unfold TableSystem.step at hs
    dsimp only at hs
    split at hs
    · rename_i w writes hp hw
      cases hs
      have hc := hclient t
      rw [hp] at hc
      have hwrites := hc.1.writes
      rw [hw] at hwrites
      refine h.put_same (h.txnId t) ⟨⟨hc.1.state, fun w' hw' => ?_⟩, ?_⟩
      · exact hwrites w' (List.mem_cons_of_mem _ hw')
      · exact w.guarded newRid (fun _ _ _ hm hle => hm.down hle) (hwrites w List.mem_cons_self)
    · cases hs
  | rolledBack t =>
    unfold TableSystem.step at hs
    dsimp only at hs
    split at hs
    · cases hs
      exact h.put_same (h.txnId t) trivial
    · cases hs
  | unlock t id =>
    -- the table's lock goes after those of its records
    unfold TableSystem.step at hs
    dsimp only at hs
    split at hs
    · split at hs
      · cases hs
        have hid := h.txnId t
        refine h.put (unlock_inv h.mgr _ id) (fun t' p ht hp => ?_) ?_ trivial ?_
        · exact unlock_held _ id _ (by rw [hid]; exact ht) hp
        · show (Rmdb.unlock (s.clients t).txn id s.mgr).2.1.txnId = t
          rw [(unlock_txn _ id _).1, hid]
        · refine unlock_guarded h.mgr h.records fun htype rid => ?_
          rw [hid]
          exact ho htype rid
      · cases hs
    · cases hs
  | finish t =>
    unfold TableSystem.step at hs
    dsimp only at hs
    split at hs
    · split at hs
      · cases hs
        exact h.put_same (h.txnId t) trivial
      · cases hs
    · cases hs

/-- Record locks stand under the intention locks of their tables. -/
theorem Inv.multiGranularity (h : s.Inv) : s.MultiGranularity where
  records := h.records
  files t op todo hp := by
    have hclient := h.client t
    unfold TablePhaseInv at hclient
    rw [hp] at hclient
    obtain ⟨own, hown, hle⟩ := hclient.2.1
    refine ⟨own, hown, Bool.eq_false_iff.mpr fun hc => ?_⟩
    have hshared := LockMode.compatible_anti hle hc
    cases hshared

end TableSystem

/-- **The protocol is kept in orderly runs**: no table is created, a transaction that creates or drops an
    index or drops a table has locked it `S`, `SIX` or `X` before, and `commit` and `abort` unlock a table
    after its records. -/
theorem tables_multiGranularity (s : TableSystem) (h : orderlyTables.Reachable s) :
    s.MultiGranularity := by
  have hinv : s.Inv := h.invariant (fun _ hi => hi ▸ TableSystem.start_inv) fun _ _ _ hs hstep =>
    hs.step hstep.1 hstep.2
  exact hinv.multiGranularity

/-- The theorem after a scan of a table, when its transaction is about to create an index. -/
theorem multiGranularity_scan_then_index : ∃ s, orderlyTables.Reachable s ∧
    (s.clients 0).phase = .running [.ddl (.createIndex 3)] ∧ s.MultiGranularity := by
  have hstep : ∀ {s s' : TableSystem} (a : TablesStep), orderlyTables.Reachable s →
      s.step a = some s' → OrderlyTable s a → orderlyTables.Reachable s' :=
    fun a h hs ho => .step h ⟨hs, ho⟩
  have h₁ := hstep (.statement 0 (.dml (.select [3] []))) (.init rfl) rfl trivial
  have h₂ := hstep (.act 0) h₁ rfl trivial
  have h₃ := hstep (.statement 0 (.createIndex 3 [])) h₂ rfl ⟨.shared, rfl, le_refl _⟩
  have hp := tables_multiGranularity _ h₃
  exact ⟨_, h₃, rfl, hp⟩

/-- `CREATE INDEX` on a table with one record. -/
def indexOneRecord : List TablesStep := [.statement 0 (.createIndex 3 [some ⟨1, 0⟩]), .act 0, .act 0]

/-- **A record lock without a table lock.** `create_index` creates the index file without a lock and reads
    the record under `S`, while the table is not locked. -/
theorem createIndex_without_table_lock : ∃ s, indexOneRecord.foldlM TableSystem.step .start = some s ∧
    tablesSystem.Reachable s ∧ s.mgr.heldMode (.ofRecord 3 ⟨1, 0⟩) 0 = some .shared ∧
    s.mgr.heldMode (.ofTable 3) 0 = none ∧ ¬ s.MultiGranularity := by
  obtain ⟨s, hs⟩ : ∃ s, indexOneRecord.foldlM TableSystem.step .start = some s := ⟨_, rfl⟩
  have hreach : tablesSystem.Reachable s :=
    TransitionSystem.Reachable.foldlM (fun _ _ _ hstep => hstep) (.init rfl) hs
  cases hs
  refine ⟨_, rfl, hreach, rfl, rfl, fun hm => ?_⟩
  obtain ⟨own, hown, -⟩ := hm.records 0 3 ⟨1, 0⟩ .shared rfl
  cases hown

end Rmdb
