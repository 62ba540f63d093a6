import Rmdb.Recovery.LogChains
import Rmdb.Transaction.LockSets
import Rmdb.Transaction.Serializability

namespace Rmdb

open Lib

/-!
# The LSNs of the pages (`set_page_lsn`)

`delete_record` and `update_record` are called behind the log record of the change, and `insert_record`
before it; each stamps its page with the `prev_lsn_` of the transaction.  `update_record` has given its pin
back by then, so that the frame can hold another page.  The rollback calls the same functions, without log
records.

* `StampSystem.step` — the executors, the rollback and the locks, one access to a page or to the log at a time;
* `StampSystem.executorStep` — an executor is done with a record;
* `Orderly` — the steps after which the LSNs are right;
* `StampSystem.Inv` — no page of a table has an LSN above that of the transaction that may write there;
* `stamps_follow_log` — over every run of such steps.
-/

/-! ### The pages -/

/-- The latest operation on a page. -/
inductive LatestOp where
  | unknown
  /-- An insert whose log record is still missing. -/
  | pending (t : TxnId)
  /-- An operation with this log record. -/
  | logged (lsn : Lsn)
  /-- One of a rollback, which has no log record. -/
  | undone
  deriving DecidableEq, Repr

/-- What the page has at `OFFSET_LSN`, and what was done to it. -/
structure StampedPage where
  lsn : Lsn
  latest : LatestOp
  deriving DecidableEq, Repr

/-! ### The transactions -/

/-- How far a transaction is with a record; `op` is the function of `RmFileHandle`. -/
inductive StampPc where
  | idle
  /-- The record of an update or a delete is in the log, with this LSN. -/
  | logged (op : WType) (page : PageId) (lsn : Lsn)
  /-- The page has been changed, and the page in this frame will be stamped. -/
  | changed (op : WType) (page frame : PageId)
  /-- An insert, before its log record. -/
  | stamped (page : PageId)
  deriving DecidableEq, Repr

/-- Where a transaction is. -/
inductive StampPhase where
  | running
  /-- In the rollback loop of `abort`. -/
  | rollingBack
  /-- In the unlock loop of `commit` or `abort`, or behind it. -/
  | releasing
  deriving DecidableEq, Repr

structure StampClient where
  txn : Transaction
  pc : StampPc
  phase : StampPhase
  /-- The write set, newest first. -/
  writes : List (WType × PageId)

/-- The lock table, `global_lsn_`, the pages and the transactions. -/
structure StampSystem where
  mgr : LockManager
  globalLsn : Lsn
  pages : PageId → StampedPage
  clients : TxnId → StampClient

/-- What can happen. -/
inductive StampAct where
  | lock (t : TxnId) (c : LockCall)
  /-- A `BEGIN`, `COMMIT` or `ABORT` record. -/
  | log (t : TxnId)
  /-- `UpdateExecutor` or `DeleteExecutor` logs a change. -/
  | logChange (t : TxnId) (op : WType) (page : PageId)
  /-- `update_record` or `delete_record` changes the page. -/
  | change (t : TxnId)
  /-- `insert_record` changes the page. -/
  | insert (t : TxnId) (page : PageId)
  /-- The frame that `update_record` has given back gets another page. -/
  | reuse (t : TxnId) (page : PageId)
  | stamp (t : TxnId)
  /-- `InsertExecutor` logs the insert. -/
  | logInsert (t : TxnId)
  /-- An exception before the page is changed. -/
  | fail (t : TxnId)
  | commit (t : TxnId)
  | abort (t : TxnId)
  /-- The rollback loop takes the last entry of the write set. -/
  | undo (t : TxnId) (page : PageId)
  | rolledBack (t : TxnId)
  | unlock (t : TxnId) (id : LockDataId)

/-- The function that the rollback calls for an entry of the write set. -/
def WType.undo : WType → WType
  | .insertTuple => .deleteTuple
  | .deleteTuple => .insertTuple
  | .updateTuple => .updateTuple

instance (mgr : LockManager) (t : TxnId) (p : LockDataId × LockMode) : Decidable (Held mgr t p) :=
  match h : mgr.heldMode p.1 t with
  | none => .isFalse fun ⟨_, hown, _⟩ => by simp [h] at hown
  | some own => decidable_of_iff (p.2 ≤ own) (by simp [Held, h])

namespace StampSystem

/-- The start: these LSNs are on the pages. -/
def start (lsns : PageId → Lsn) : StampSystem where
  mgr := .empty
  globalLsn := 0
  pages p := ⟨lsns p, .unknown⟩
  clients t := ⟨.new t, .idle, .running, []⟩

/-- A transaction has come further. -/
def put (s : StampSystem) (t : TxnId) (c : StampClient) : StampSystem :=
  { s with clients := Function.update s.clients t c }

/-- The page has been changed by this operation. -/
def touch (s : StampSystem) (page : PageId) (latest : LatestOp) : StampSystem :=
  { s with pages := Function.update s.pages page { s.pages page with latest := latest } }

/-- `set_page_lsn`. -/
def setPageLsn (s : StampSystem) (page : PageId) (lsn : Lsn) : StampSystem :=
  { s with pages := Function.update s.pages page { s.pages page with lsn := lsn } }

/-- A record of `t` goes into the log, and `set_prev_lsn`. -/
def addLog (s : StampSystem) (t : TxnId) (c : StampClient) : StampSystem :=
  { s.put t { c with txn := { c.txn with prevLsn := s.globalLsn } } with globalLsn := nextLsn s.globalLsn }

/-- The locks of a transaction that updates or deletes: `S` from its scan, and `IX`. -/
def MayWrite (mgr : LockManager) (t : TxnId) (fd : Int) : Prop :=
  Held mgr t (.ofTable fd, .shared) ∧ Held mgr t (.ofTable fd, .intentionExclusive)

instance (mgr : LockManager) (t : TxnId) (fd : Int) : Decidable (MayWrite mgr t fd) :=
  inferInstanceAs (Decidable (_ ∧ _))

/-- One step, where it is possible. -/
def step (s : StampSystem) : StampAct → Option StampSystem
  | .lock t call =>
    let c := s.clients t
    let r := call.run c.txn s.mgr
    some { s.put t { c with txn := r.2.1 } with mgr := r.2.2 }
  | .log t =>
    let c := s.clients t
    if c.pc = .idle then some (s.addLog t c) else none
  | .logChange t op page =>
    let c := s.clients t
    if c.pc = .idle ∧ c.phase = .running ∧ op ≠ .insertTuple ∧ MayWrite s.mgr t page.fd then
      some (s.addLog t { c with pc := .logged op page s.globalLsn })
    else none
  | .change t =>
    let c := s.clients t
    match c.pc with
    | .logged op page lsn =>
      some ((s.touch page (.logged lsn)).put t { c with pc := .changed op page page })
    | _ => none
  | .insert t page =>
    let c := s.clients t
    if c.pc = .idle ∧ c.phase = .running ∧ Held s.mgr t (.ofTable page.fd, .intentionExclusive) then
      some ((s.touch page (.pending t)).put t { c with pc := .changed .insertTuple page page })
    else none
  | .reuse t page =>
    let c := s.clients t
    match c.pc with
    | .changed .updateTuple own _ => some (s.put t { c with pc := .changed .updateTuple own page })
    | _ => none
  | .stamp t =>
    let c := s.clients t
    match c.pc, c.phase with
    | .changed op page frame, .running =>
      let s := s.setPageLsn frame c.txn.prevLsn
      if op = .insertTuple then some (s.put t { c with pc := .stamped page })
      else some (s.put t { c with pc := .idle, writes := (op, page) :: c.writes })
    | .changed _ _ frame, .rollingBack => some ((s.setPageLsn frame c.txn.prevLsn).put t { c with pc := .idle })
    | _, _ => none
  | .logInsert t =>
    let c := s.clients t
    match c.pc with
    | .stamped page =>
      let s' := s.addLog t { c with pc := .idle, writes := (.insertTuple, page) :: c.writes }
      if (s.pages page).latest = .pending t then some (s'.touch page (.logged s.globalLsn)) else some s'
    | _ => none
  | .fail t =>
    let c := s.clients t
    match c.pc, c.phase with
    | .logged _ _ _, _ => some (s.put t { c with pc := .idle })
    -- the exception leaves `abort`
    | .idle, .rollingBack => some (s.put t { c with phase := .running })
    | _, _ => none
  | .commit t =>
    let c := s.clients t
    if c.pc = .idle ∧ c.phase = .running then some (s.put t { c with phase := .releasing, writes := [] }) else none
  | .abort t =>
    let c := s.clients t
    if c.pc = .idle ∧ c.phase = .running then some (s.put t { c with phase := .rollingBack }) else none
  | .undo t page =>
    let c := s.clients t
    match c.pc, c.phase, c.writes with
    | .idle, .rollingBack, (op, own) :: writes =>
      -- a deleted record is inserted again where there is room in the table
      if page = own ∨ (op = .deleteTuple ∧ page.fd = own.fd) then
        some ((s.touch page .undone).put t { c with pc := .changed op.undo page page, writes := writes })
      else none
    | _, _, _ => none
  | .rolledBack t =>
    let c := s.clients t
    if c.pc = .idle ∧ c.phase = .rollingBack ∧ c.writes = [] then some (s.put t { c with phase := .releasing })
    else none
  | .unlock t id =>
    let c := s.clients t
    if c.phase = .releasing then
      let r := Rmdb.unlock c.txn id s.mgr
      some { s.put t { c with txn := r.2.1 } with mgr := r.2.2 }
    else none

/-- **An executor is done with a record** in this step, and this is the page. -/
def executorStep (s : StampSystem) : StampAct → Option PageId
  | .stamp t =>
    match (s.clients t).pc, (s.clients t).phase with
    | .changed op page _, .running => if op = .insertTuple then none else some page
    | _, _ => none
  | .logInsert t =>
    match (s.clients t).pc with
    | .stamped page => some page
    | _ => none
  | _ => none

end StampSystem

/-- **The system**: any number of transactions, in any order, from any LSNs on the pages. -/
def stampSystem : TransitionSystem StampSystem StampAct where
  init s := ∃ lsns, s = .start lsns
  step s a s' := s.step a = some s'

/-- **The steps after which the LSNs are right**: no insert, no frame that gets another page before the stamp,
a number that does not come round, and no page of the table above it. -/
def StampSystem.Orderly (s : StampSystem) : StampAct → Prop
  | .insert _ _ | .reuse _ _ => False
  | .log _ | .logInsert _ => s.globalLsn < nextLsn s.globalLsn
  | .logChange _ _ page =>
    s.globalLsn < nextLsn s.globalLsn ∧ ∀ p : PageId, p.fd = page.fd → (s.pages p).lsn ≤ s.globalLsn
  | _ => True

/-- The runs of such steps. -/
def orderlyStamps : TransitionSystem StampSystem StampAct := stampSystem.restrict fun s a _ => s.Orderly a

/-! ### The locks -/

section Locks

variable {m : LockManager} {txn : Transaction} {t t' : TxnId}

/-- Two transactions do not write to one table at the same time. -/
theorem mayWrite_unique (h : m.Inv) {fd : Int} (ht : StampSystem.MayWrite m t fd)
    (ht' : StampSystem.MayWrite m t' fd) : t = t' := by
  by_contra hne
  have hcompat := h.held_compatible hne ht.1 ht'.2
  exact absurd hcompat (by decide)

/-- A lock function takes no lock away. -/
theorem LockCall.run_keeps_held (c : LockCall) (h : m.Inv) (txn : Transaction) {p : LockDataId × LockMode}
    (hp : Held m t p) : Held (c.run txn m).2.2 t p := by
  by_cases hact : txn.Active
  · exact c.run_held h hact hp
  · rw [(c.run_not_active hact m).2]
    exact hp

/-- A lock call keeps the transaction's last LSN. -/
theorem LockCall.run_prevLsn (c : LockCall) (txn : Transaction) (m : LockManager) :
    (c.run txn m).2.1.prevLsn = txn.prevLsn := by
  rw [c.run_eq]
  unfold lockOn checkLock
  cases txn.state with
  | default =>
    dsimp only
    split <;> rfl
  | growing =>
    dsimp only
    split <;> rfl
  | shrinking => rfl
  | committed => rfl
  | aborted => rfl

/-- So does `unlock`. -/
theorem unlock_prevLsn (txn : Transaction) (id : LockDataId) (m : LockManager) :
    (unlock txn id m).2.1.prevLsn = txn.prevLsn := by
  unfold unlock
  cases m.lockTable id with
  | none => cases txn.state <;> simp
  | some q => cases txn.state <;> simp

end Locks

/-! ### The invariant -/

namespace StampSystem

/-- The transaction may write to the table, and no page of the table has an LSN above this. -/
def Covers (s : StampSystem) (t : TxnId) (lsn : Lsn) (fd : Int) : Prop :=
  MayWrite s.mgr t fd ∧ ∀ p : PageId, p.fd = fd → (s.pages p).lsn ≤ lsn

/-- **What holds of a transaction**, with its writes and where it is. -/
structure ClientInv (s : StampSystem) (t : TxnId) (c : StampClient) : Prop where
  txnId : c.txn.txnId = t
  prevLsn : c.txn.prevLsn < s.globalLsn
  writes : ∀ w ∈ c.writes, s.Covers t c.txn.prevLsn w.2.fd
  logged : ∀ op page lsn, c.pc = .logged op page lsn →
    op ≠ .insertTuple ∧ lsn = c.txn.prevLsn ∧ s.Covers t c.txn.prevLsn page.fd
  changed : ∀ op page frame, c.pc = .changed op page frame →
    frame = page ∧ s.Covers t c.txn.prevLsn page.fd ∧
      (c.phase = .running → op ≠ .insertTuple ∧ (s.pages page).latest = .logged c.txn.prevLsn)
  stamped : ∀ page, c.pc ≠ .stamped page
  releasing : c.phase = .releasing → c.pc = .idle ∧ c.writes = []

structure Inv (s : StampSystem) : Prop where
  mgr : s.mgr.Inv
  clients : ∀ t, s.ClientInv t (s.clients t)

variable {s s' : StampSystem} {t : TxnId} {c : StampClient} {fd : Int} {lsn lsn' : Lsn}

/-- A change of a page is not its stamp. -/
theorem touch_lsn (s : StampSystem) (page : PageId) (latest : LatestOp) (p : PageId) :
    ((s.touch page latest).pages p).lsn = (s.pages p).lsn := by
  by_cases hp : p = page
  · simp [touch, hp]
  · simp [touch, hp]

/-- No page has a larger LSN either. -/
theorem Covers.mono (h : s.Covers t lsn fd) (hle : lsn ≤ lsn') : s.Covers t lsn' fd :=
  ⟨h.1, fun p hp => le_trans (h.2 p hp) hle⟩

/-- Steps that keep the locks and the pages of the table. -/
theorem Covers.frame (h : s.Covers t lsn fd) (hheld : ∀ p, Held s.mgr t p → Held s'.mgr t p)
    (hpages : ∀ p : PageId, MayWrite s.mgr t p.fd → s'.pages p = s.pages p) : s'.Covers t lsn fd := by
  refine ⟨⟨hheld _ h.1.1, hheld _ h.1.2⟩, fun p hp => ?_⟩
  rw [hpages p (hp ▸ h.1)]
  exact h.2 p hp

/-- The other transactions do not matter, as long as they leave the tables where this one may write. -/
theorem ClientInv.frame (h : s.ClientInv t c) (hheld : ∀ p, Held s.mgr t p → Held s'.mgr t p)
    (hlsn : s.globalLsn ≤ s'.globalLsn) (hpages : ∀ p : PageId, MayWrite s.mgr t p.fd → s'.pages p = s.pages p) :
    s'.ClientInv t c where
  txnId := h.txnId
  prevLsn := lt_of_lt_of_le h.prevLsn hlsn
  writes w hw := (h.writes w hw).frame hheld hpages
  logged op page lsn hpc := by
    obtain ⟨hop, hlsn, hcovers⟩ := h.logged op page lsn hpc
    exact ⟨hop, hlsn, hcovers.frame hheld hpages⟩
  changed op page frame hpc := by
    obtain ⟨hframe, hcovers, hrunning⟩ := h.changed op page frame hpc
    refine ⟨hframe, hcovers.frame hheld hpages, ?_⟩
    rw [hpages page hcovers.1]
    exact hrunning
  stamped := h.stamped
  releasing := h.releasing

/-- **The step rule.** -/
theorem Inv.put (h : s.Inv) (hclients : s'.clients = Function.update s.clients t c) (hmgr : s'.mgr.Inv)
    (hheld : ∀ t', t' ≠ t → ∀ p, Held s.mgr t' p → Held s'.mgr t' p) (hlsn : s.globalLsn ≤ s'.globalLsn)
    (hpages : ∀ t', t' ≠ t → ∀ p : PageId, MayWrite s.mgr t' p.fd → s'.pages p = s.pages p)
    (hc : s'.ClientInv t c) : s'.Inv := by
  refine ⟨hmgr, fun t' => ?_⟩
  rw [hclients]
  by_cases hne : t' = t
  · subst hne
    rw [Function.update_self]
    exact hc
  · rw [Function.update_of_ne hne]
    exact (h.clients t').frame (hheld t' hne) hlsn (hpages t' hne)

/-- A step that leaves the pages, the log and the locks. -/
theorem Inv.put_client (h : s.Inv) (hc : s.ClientInv t c) : (s.put t c).Inv := by
  refine h.put rfl h.mgr ?_ ?_ ?_ ?_
  · exact fun _ _ _ hp => hp
  · exact le_refl _
  · exact fun _ _ _ _ => rfl
  · exact hc.frame (fun _ hp => hp) (le_refl _) fun _ _ => rfl

/-- **A transaction goes on to another phase**, in the middle of nothing. -/
theorem Inv.idle (h : s.Inv) {pc : StampPc} (hpc : pc = .idle) {phase : StampPhase}
    {writes : List (WType × PageId)} (hwrites : ∀ w ∈ writes, w ∈ (s.clients t).writes)
    (hphase : phase = .releasing → writes = []) :
    (s.put t { s.clients t with pc := pc, phase := phase, writes := writes }).Inv := by
  subst hpc
  have hc := h.clients t
  apply h.put_client
  constructor
  · exact hc.txnId
  · exact hc.prevLsn
  · exact fun w hw => hc.writes w (hwrites w hw)
  · simp
  · simp
  · simp
  · exact fun hrel => ⟨rfl, hphase hrel⟩

/-- **A record goes into the log.** -/
theorem ClientInv.addLog (h : s.ClientInv t c) (hround : s.globalLsn < nextLsn s.globalLsn)
    {pc : StampPc} (hpc : pc = .idle ∨
      ∃ op page, pc = .logged op page s.globalLsn ∧ op ≠ .insertTuple ∧ c.phase = .running ∧
        s.Covers t s.globalLsn page.fd) :
    (s.addLog t { c with pc := pc }).ClientInv t
      { c with pc := pc, txn := { c.txn with prevLsn := s.globalLsn } } where
  txnId := h.txnId
  prevLsn := hround
  writes w hw := (h.writes w hw).mono h.prevLsn.le
  logged op page lsn heq := by
    rcases hpc with rfl | ⟨op', page', rfl, hop, -, hcovers⟩
    · cases heq
    · cases heq
      exact ⟨hop, rfl, hcovers⟩
  changed op page frame heq := by
    rcases hpc with rfl | ⟨op', page', rfl, -⟩ <;> cases heq
  stamped page heq := by
    rcases hpc with rfl | ⟨op', page', rfl, -⟩ <;> cases heq
  releasing hrel := by
    rcases hpc with rfl | ⟨op', page', rfl, -, hrunning, -⟩
    · exact ⟨rfl, (h.releasing hrel).2⟩
    · exact absurd (hrunning.symm.trans hrel) (by simp)

/-- A record is appended. -/
theorem Inv.addLog (h : s.Inv) (hround : s.globalLsn < nextLsn s.globalLsn) {pc : StampPc}
    (hpc : pc = .idle ∨ ∃ op page, pc = .logged op page s.globalLsn ∧ op ≠ .insertTuple ∧
      (s.clients t).phase = .running ∧ s.Covers t s.globalLsn page.fd) :
    (s.addLog t { s.clients t with pc := pc }).Inv := by
  refine h.put rfl h.mgr ?_ ?_ ?_ ?_
  · exact fun _ _ _ hp => hp
  · exact hround.le
  · exact fun _ _ _ _ => rfl
  · exact (h.clients t).addLog hround hpc

/-- **A page of a table where the transaction may write changes.**  Nobody else may write there. -/
theorem Inv.put_page (h : s.Inv) {page : PageId} (hcovers : s.Covers t lsn page.fd) {pages : PageId → StampedPage}
    (hpages : ∀ p, p ≠ page → pages p = s.pages p)
    (hc : ({ s with pages := pages }.put t c).ClientInv t c) : ({ s with pages := pages }.put t c).Inv := by
  refine h.put rfl h.mgr ?_ ?_ ?_ hc
  · exact fun _ _ _ hp => hp
  · exact le_refl _
  · intro t' hne p hwrite
    apply hpages
    rintro rfl
    exact hne (mayWrite_unique h.mgr hwrite hcovers.1)

/-- **It gets another latest operation.** -/
theorem Inv.touch (h : s.Inv) {op : WType} {page : PageId} {latest : LatestOp}
    {writes : List (WType × PageId)} (hcovers : s.Covers t (s.clients t).txn.prevLsn page.fd)
    (hwrites : ∀ w ∈ writes, w ∈ (s.clients t).writes) (hphase : (s.clients t).phase ≠ .releasing)
    (hrunning : (s.clients t).phase = .running → op ≠ .insertTuple ∧
      latest = .logged (s.clients t).txn.prevLsn) :
    ((s.touch page latest).put t { s.clients t with pc := .changed op page page, writes := writes }).Inv := by
  have hkeep : ∀ {lsn fd}, s.Covers t lsn fd → (s.touch page latest).Covers t lsn fd := by
    intro lsn fd hcov
    refine ⟨hcov.1, fun p hp => ?_⟩
    rw [s.touch_lsn]
    exact hcov.2 p hp
  apply h.put_page hcovers
  · exact fun p hp => Function.update_of_ne hp _ _
  · have hc := h.clients t
    constructor
    · exact hc.txnId
    · exact hc.prevLsn
    · exact fun w hw => hkeep (hc.writes w (hwrites w hw))
    · simp
    · intro op' page' frame heq
      cases heq
      refine ⟨rfl, hkeep hcovers, fun hrun => ⟨(hrunning hrun).1, ?_⟩⟩
      simp [StampSystem.put, (hrunning hrun).2]
    · simp
    · exact fun hrel => absurd hrel hphase

/-- **It is stamped**, and the transaction is done with it. -/
theorem Inv.setPageLsn (h : s.Inv) {page : PageId} {writes : List (WType × PageId)}
    (hcovers : s.Covers t (s.clients t).txn.prevLsn page.fd)
    (hwrites : ∀ w ∈ writes, w ∈ (s.clients t).writes ∨ w.2 = page)
    (hphase : (s.clients t).phase ≠ .releasing) :
    ((s.setPageLsn page (s.clients t).txn.prevLsn).put t
      { s.clients t with pc := .idle, writes := writes }).Inv := by
  have hkeep : ∀ {fd}, s.Covers t (s.clients t).txn.prevLsn fd →
      (s.setPageLsn page (s.clients t).txn.prevLsn).Covers t (s.clients t).txn.prevLsn fd := by
    intro fd hcov
    refine ⟨hcov.1, fun p hp => ?_⟩
    by_cases hpage : p = page
    · simp [StampSystem.setPageLsn, hpage]
    · simpa [StampSystem.setPageLsn, hpage] using hcov.2 p hp
  apply h.put_page hcovers
  · exact fun p hp => Function.update_of_ne hp _ _
  · have hc := h.clients t
    constructor
    · exact hc.txnId
    · exact hc.prevLsn
    · intro w hw
      rcases hwrites w hw with hw | hw
      · exact hkeep (hc.writes w hw)
      · rw [hw]
        exact hkeep hcovers
    · simp
    · simp
    · simp
    · exact fun hrel => absurd hrel hphase

/-- The locks change, and with them the transaction object. -/
theorem ClientInv.setTxn (h : s.ClientInv t c) {txn : Transaction} (hid : txn.txnId = c.txn.txnId)
    (hlsn : txn.prevLsn = c.txn.prevLsn) : s.ClientInv t { c with txn := txn } := by
  constructor
  · exact hid.trans h.txnId
  · rw [hlsn]
    exact h.prevLsn
  · rw [hlsn]
    exact h.writes
  · rw [hlsn]
    exact h.logged
  · rw [hlsn]
    exact h.changed
  · exact h.stamped
  · exact h.releasing

/-- **A lock function.** -/
theorem Inv.lock (h : s.Inv) (call : LockCall) (hs : s.step (.lock t call) = some s') : s'.Inv := by
  cases hs
  have hheld : ∀ t' p, Held s.mgr t' p → Held (call.run (s.clients t).txn s.mgr).2.2 t' p :=
    fun _ _ hp => call.run_keeps_held h.mgr _ hp
  refine h.put rfl (call.run_inv h.mgr _) ?_ ?_ ?_ ?_
  · exact fun t' _ => hheld t'
  · exact le_refl _
  · exact fun _ _ _ _ => rfl
  · have hc := (h.clients t).setTxn (call.run_txnId _ s.mgr) (call.run_prevLsn _ s.mgr)
    exact hc.frame (hheld t) (le_refl _) fun _ _ => rfl

/-- **The unlock loop**: a transaction in it is done with its pages. -/
theorem Inv.unlock (h : s.Inv) (id : LockDataId) (hs : s.step (.unlock t id) = some s') : s'.Inv := by
  have hc := h.clients t
  simp only [StampSystem.step] at hs
  split at hs
  case isFalse => cases hs
  case isTrue hphase =>
    cases hs
    obtain ⟨hpc, hwrites⟩ := hc.releasing hphase
    refine h.put rfl (unlock_inv h.mgr _ id) ?_ ?_ ?_ ?_
    · intro t' hne p hp
      apply unlock_held _ id s.mgr _ hp
      rw [hc.txnId]
      exact hne
    · exact le_refl _
    · exact fun _ _ _ _ => rfl
    · constructor
      · exact (unlock_txnId _ id s.mgr).trans hc.txnId
      · rw [unlock_prevLsn]
        exact hc.prevLsn
      · simp [hwrites]
      · simp [hpc]
      · simp [hpc]
      · simp [hpc]
      · exact fun _ => ⟨hpc, hwrites⟩

/-- The stamp, in its three places. -/
theorem stamp_cases (hs : s.step (.stamp t) = some s') :
    ∃ op page frame, (s.clients t).pc = .changed op page frame ∧
      (((s.clients t).phase = .running ∧ op = .insertTuple ∧
          s' = (s.setPageLsn frame (s.clients t).txn.prevLsn).put t { s.clients t with pc := .stamped page }) ∨
        ((s.clients t).phase = .running ∧ op ≠ .insertTuple ∧
          s' = (s.setPageLsn frame (s.clients t).txn.prevLsn).put t
            { s.clients t with pc := .idle, writes := (op, page) :: (s.clients t).writes }) ∨
        ((s.clients t).phase = .rollingBack ∧
          s' = (s.setPageLsn frame (s.clients t).txn.prevLsn).put t { s.clients t with pc := .idle })) := by
  simp only [step] at hs
  split at hs
  case h_1 op page frame hpc hphase =>
    refine ⟨op, page, frame, hpc, ?_⟩
    split at hs
    case isTrue hop =>
      cases hs
      exact .inl ⟨hphase, hop, rfl⟩
    case isFalse hop =>
      cases hs
      exact .inr (.inl ⟨hphase, hop, rfl⟩)
  case h_2 op page frame hpc hphase =>
    cases hs
    exact ⟨op, page, frame, hpc, .inr (.inr ⟨hphase, rfl⟩)⟩
  case h_3 => cases hs

/-- **Only the stamp changes an LSN.** -/
theorem step_lsn {a : StampAct} (hs : s.step a = some s') :
    (∀ p, (s'.pages p).lsn = (s.pages p).lsn) ∨ ∃ t, a = .stamp t := by
  cases a with
  | stamp t => exact .inr ⟨t, rfl⟩
  | lock t call =>
    cases hs
    exact .inl fun _ => rfl
  | change t =>
    simp only [step] at hs
    split at hs <;> cases hs
    exact .inl (s.touch_lsn _ _)
  | insert t page =>
    simp only [step] at hs
    split at hs <;> cases hs
    exact .inl (s.touch_lsn _ _)
  | logInsert t =>
    simp only [step] at hs
    split at hs
    · split at hs <;> cases hs
      · exact .inl (s.touch_lsn _ _)
      · exact .inl fun _ => rfl
    · cases hs
  | undo t page =>
    simp only [step] at hs
    split at hs
    · split at hs <;> cases hs
      exact .inl (s.touch_lsn _ _)
    · cases hs
  -- the steps that leave the pages
  | log t | logChange t op page | reuse t page | fail t | commit t | abort t | rolledBack t | unlock t id =>
    simp only [step] at hs
    split at hs <;> cases hs
    all_goals exact .inl fun _ => rfl

/-! ### The steps -/

/-- The invariant holds at the start. -/
theorem start_inv (lsns : PageId → Lsn) : (start lsns).Inv := by
  refine ⟨LockManager.inv_empty, fun t => ?_⟩
  constructor
  · rfl
  · exact (by decide : (-1 : Int) < 0)
  · simp [start]
  · simp [start]
  · simp [start]
  · simp [start]
  · simp [start]

/-- A page is changed. -/
theorem Inv.change (h : s.Inv) (hs : s.step (.change t) = some s') : s'.Inv := by
  have hc := h.clients t
  simp only [StampSystem.step] at hs
  split at hs
  case h_1 op page lsn hpc =>
    cases hs
    obtain ⟨hop, rfl, hcovers⟩ := hc.logged op page lsn hpc
    refine h.touch hcovers (fun _ hw => hw) ?_ fun _ => ⟨hop, rfl⟩
    intro hphase
    have hidle := (hc.releasing hphase).1
    rw [hpc] at hidle
    cases hidle
  case h_2 => cases hs

/-- A page is stamped. -/
theorem Inv.stamp (h : s.Inv) (hs : s.step (.stamp t) = some s') : s'.Inv := by
  have hc := h.clients t
  obtain ⟨op, page, frame, hpc, hcase⟩ := stamp_cases hs
  obtain ⟨rfl, hcovers, hrunning⟩ := hc.changed op page frame hpc
  rcases hcase with ⟨hphase, hop, -⟩ | ⟨hphase, -, rfl⟩ | ⟨hphase, rfl⟩
  · exact absurd hop (hrunning hphase).1
  · apply h.setPageLsn hcovers
    · intro w hw
      rcases List.mem_cons.mp hw with rfl | hw
      · exact .inr rfl
      · exact .inl hw
    · simp [hphase]
  · apply h.setPageLsn hcovers
    · exact fun w hw => .inl hw
    · simp [hphase]

/-- A call fails. -/
theorem Inv.fail (h : s.Inv) (hs : s.step (.fail t) = some s') : s'.Inv := by
  have hc := h.clients t
  simp only [StampSystem.step] at hs
  split at hs
  case h_1 op page hpc =>
    cases hs
    refine h.idle rfl (fun _ hw => hw) ?_
    intro hphase
    exact (hc.releasing hphase).2
  case h_2 hpc hphase =>
    cases hs
    exact h.idle hpc (fun _ hw => hw) (by simp)
  case h_3 => cases hs

/-- A change is undone. -/
theorem Inv.undo (h : s.Inv) {page : PageId} (hs : s.step (.undo t page) = some s') : s'.Inv := by
  have hc := h.clients t
  simp only [StampSystem.step] at hs
  split at hs
  case h_1 op own writes hpc hphase hwrites =>
    split at hs
    case isTrue hpage =>
      cases hs
      have hcovers := hc.writes (op, own) (by simp [hwrites])
      -- in both cases the page is one of the table
      have hfd : page.fd = own.fd := by
        rcases hpage with rfl | ⟨-, hfd⟩
        · rfl
        · exact hfd
      rw [← hfd] at hcovers
      apply h.touch hcovers
      · intro w hw
        rw [hwrites]
        exact List.mem_cons_of_mem _ hw
      · simp [hphase]
      · simp [hphase]
    case isFalse => cases hs
  case h_2 => cases hs

/-- **Every such step keeps the invariant.** -/
theorem Inv.step (h : s.Inv) {a : StampAct} (hs : s.step a = some s') (ho : s.Orderly a) : s'.Inv := by
  cases a with
  | lock t call => exact h.lock call hs
  | log t =>
    simp only [StampSystem.step] at hs
    split at hs
    case isTrue hpc =>
      cases hs
      exact h.addLog ho (.inl hpc)
    case isFalse => cases hs
  | logChange t op page =>
    simp only [StampSystem.step] at hs
    split at hs
    case isTrue hguard =>
      -- the number of the record is above the LSNs of the table
      cases hs
      obtain ⟨-, hrunning, hop, hwrite⟩ := hguard
      exact h.addLog ho.1 (.inr ⟨op, page, rfl, hop, hrunning, hwrite, ho.2⟩)
    case isFalse => cases hs
  | change t => exact h.change hs
  | insert t page => exact ho.elim
  | reuse t page => exact ho.elim
  | stamp t => exact h.stamp hs
  | logInsert t =>
    simp only [StampSystem.step] at hs
    split at hs
    case h_1 page hpc => exact absurd hpc ((h.clients t).stamped page)
    case h_2 => cases hs
  | fail t => exact h.fail hs
  | commit t =>
    simp only [StampSystem.step] at hs
    split at hs
    case isTrue hguard =>
      cases hs
      exact h.idle hguard.1 (by simp) fun _ => rfl
    case isFalse => cases hs
  | abort t =>
    simp only [StampSystem.step] at hs
    split at hs
    case isTrue hguard =>
      cases hs
      exact h.idle hguard.1 (fun _ hw => hw) (by simp)
    case isFalse => cases hs
  | undo t page => exact h.undo hs
  | rolledBack t =>
    simp only [StampSystem.step] at hs
    split at hs
    case isTrue hguard =>
      cases hs
      exact h.idle hguard.1 (fun _ hw => hw) fun _ => hguard.2.2
    case isFalse => cases hs
  | unlock t id => exact h.unlock id hs

/-- The invariant holds in every state reached. -/
theorem reachable_inv (h : orderlyStamps.Reachable s) : s.Inv := by
  refine h.invariant ?_ ?_
  · rintro _ ⟨lsns, rfl⟩
    exact start_inv lsns
  · rintro s a s' hi ⟨hs, ho⟩
    exact hi.step hs ho

/-- **No LSN goes down.** -/
theorem Inv.lsn_mono (h : s.Inv) {a : StampAct} (hs : s.step a = some s') (p : PageId) :
    (s.pages p).lsn ≤ (s'.pages p).lsn := by
  rcases step_lsn hs with hsame | ⟨t, rfl⟩
  · rw [hsame]
  · obtain ⟨op, page, frame, hpc, hcase⟩ := stamp_cases hs
    obtain ⟨rfl, hcovers, -⟩ := (h.clients t).changed op page frame hpc
    have hpages : s'.pages = (s.setPageLsn frame (s.clients t).txn.prevLsn).pages := by
      rcases hcase with ⟨-, -, rfl⟩ | ⟨-, -, rfl⟩ | ⟨-, rfl⟩ <;> rfl
    rw [hpages]
    by_cases hp : p = frame
    · rw [hp]
      simpa [StampSystem.setPageLsn] using hcovers.2 frame rfl
    · simp [StampSystem.setPageLsn, hp]

/-- No LSN goes down in a run. -/
theorem run_lsn_mono (h : s.Inv) {as : List StampAct} (hrun : orderlyStamps.Run s as s') (p : PageId) :
    s'.Inv ∧ (s.pages p).lsn ≤ (s'.pages p).lsn := by
  induction hrun with
  | nil => exact ⟨h, le_refl _⟩
  | snoc _ hstep ih =>
    obtain ⟨hi, hle⟩ := ih
    exact ⟨hi.step hstep.1 hstep.2, le_trans hle (hi.lsn_mono hstep.1 p)⟩

/-- **The page of an executor has the LSN of its record.** -/
theorem Inv.executorStep (h : s.Inv) {a : StampAct} (hs : s.step a = some s') {page : PageId}
    (hpage : s.executorStep a = some page) :
    (s'.pages page).latest = .logged (s'.pages page).lsn := by
  cases a with
  | stamp t =>
    obtain ⟨op, page', frame, hpc, hcase⟩ := stamp_cases hs
    obtain ⟨rfl, -, hrunning⟩ := (h.clients t).changed op page' frame hpc
    rcases hcase with ⟨hphase, hop, -⟩ | ⟨hphase, hop, rfl⟩ | ⟨hphase, -⟩
    · exact absurd hop (hrunning hphase).1
    · simp only [StampSystem.executorStep, hpc, hphase, if_neg hop, Option.some.injEq] at hpage
      subst hpage
      simpa [StampSystem.put, StampSystem.setPageLsn] using (hrunning hphase).2
    · simp [StampSystem.executorStep, hpc, hphase] at hpage
  | logInsert t =>
    simp only [StampSystem.step] at hs
    split at hs
    case h_1 page' hpc => exact absurd hpc ((h.clients t).stamped page')
    case h_2 => cases hs
  | lock | log | logChange | change | insert | reuse | fail | commit | abort | undo | rolledBack | unlock =>
    cases hpage

end StampSystem

/-! ### The LSNs of the pages -/

/-- **The LSNs of the pages follow the log.**  Behind a run of orderly steps, no LSN of a page goes down any
more while the steps are, and an executor leaves its page with the LSN of the record of the latest operation
there. -/
theorem stamps_follow_log {s : StampSystem} (h : orderlyStamps.Reachable s) :
    (∀ as s', orderlyStamps.Run s as s' → ∀ p, (s.pages p).lsn ≤ (s'.pages p).lsn) ∧
    ∀ a s' page, s.step a = some s' → s.executorStep a = some page →
      (s'.pages page).latest = .logged (s'.pages page).lsn := by
  have hi := StampSystem.reachable_inv h
  refine ⟨?_, fun a s' page hs hpage => hi.executorStep hs hpage⟩
  intro as s' hrun p
  exact (StampSystem.run_lsn_mono hi hrun p).2

/-- **An update**: the page has the LSN of its record. -/
theorem stamps_follow_log_update : ∃ s s', orderlyStamps.Reachable s ∧ s.step (.stamp 0) = some s' ∧
    (s'.pages ⟨3, 1⟩).lsn = 1 ∧ (s'.pages ⟨3, 1⟩).latest = .logged (s'.pages ⟨3, 1⟩).lsn := by
  have h₁ : orderlyStamps.Reachable _ := .init ⟨fun _ => 0, rfl⟩
  have h₂ : orderlyStamps.Reachable _ := .step (a := .log 0) h₁ ⟨rfl, (by decide : (0 : Int) < 1)⟩
  have h₃ : orderlyStamps.Reachable _ := .step (a := .lock 0 (.sharedOnTable 3)) h₂ ⟨rfl, trivial⟩
  have h₄ : orderlyStamps.Reachable _ := .step (a := .lock 0 (.ixOnTable 3)) h₃ ⟨rfl, trivial⟩
  have h₅ : orderlyStamps.Reachable _ := .step (a := .logChange 0 .updateTuple ⟨3, 1⟩) h₄
    ⟨rfl, (by decide : (1 : Int) < 2), fun _ _ => (by decide : (0 : Int) ≤ 1)⟩
  have h₆ : orderlyStamps.Reachable _ := .step (a := .change 0) h₅ ⟨rfl, trivial⟩
  exact ⟨_, _, h₆, rfl, rfl, (stamps_follow_log h₆).2 (.stamp 0) _ ⟨3, 1⟩ rfl rfl⟩

/-- Transaction 0 begins and inserts a record on page 1 of table 3; the log record is still missing. -/
def insertRun : List StampAct := [.log 0, .lock 0 (.ixOnTable 3), .insert 0 ⟨3, 1⟩, .stamp 0]

/-- **An insert** leaves its page with the LSN of the `BEGIN` record. -/
theorem insert_stamped_too_early : ∃ s s', stampSystem.Reachable s ∧ s.step (.logInsert 0) = some s' ∧
    s.executorStep (.logInsert 0) = some ⟨3, 1⟩ ∧
    (s'.pages ⟨3, 1⟩).latest = .logged 1 ∧ (s'.pages ⟨3, 1⟩).lsn = 0 := by
  have hrun : ∃ s s', insertRun.foldlM StampSystem.step (.start fun _ => 0) = some s ∧
      s.step (.logInsert 0) = some s' ∧ s.executorStep (.logInsert 0) = some ⟨3, 1⟩ ∧
      (s'.pages ⟨3, 1⟩).latest = .logged 1 ∧ (s'.pages ⟨3, 1⟩).lsn = 0 := ⟨_, _, rfl, rfl, rfl, rfl, rfl⟩
  obtain ⟨s, s', hrun, hs, hpage, hlatest, hlsn⟩ := hrun
  have hreach : stampSystem.Reachable s :=
    TransitionSystem.Reachable.foldlM (M := stampSystem) (fun _ _ _ hs => hs) (.init ⟨_, rfl⟩) hrun
  exact ⟨s, s', hreach, hs, hpage, hlatest, hlsn⟩

end Rmdb
