import Rmdb.Execution.BlockJoin

namespace Rmdb

open Lib AbstractExecutor

/-!
# Joins with an empty side

`beginTuple` of a join returns early where a side has no record: before the right side is started, or
before the block is filled.  `is_end` then asks the right side, or finds the left side before its end.

* `Exec` — the trees of scans and joins that `convert_plan_executor` builds;
* `Exec.Means` — the records that a tree stands for;
* `AbstractExecutor.Stuck` — an executor that neither reports its end nor has a record after its first
  start;
* `Exec.restarts_or_stuck` — a tree goes through its records or is stuck;
* `join_never_ends` — a join with an empty side is always stuck.
-/

/-- The trees of scans and joins of `Portal::convert_plan_executor`. -/
inductive Exec where
  | seqScan (t : ScanTable) (conds : List Condition)
  | indexScan (t : ScanTable) (index : IndexMeta)
      (ih : IxIndexHandle (RawKey (IndexScan.ixCols index.cols))) (conds : List Condition)
  | join (left right : Exec) (conds : List Condition)

namespace Exec

/-- The states of the executor. -/
def State : Exec → Type
  | seqScan _ _ => Option Rid
  | indexScan _ _ _ _ => Option IxScan
  | join left right _ => JoinState left.State right.State

/-- The state after the constructors. -/
def init : (e : Exec) → e.State
  | seqScan _ _ => none
  | indexScan _ _ _ _ => none
  | join left right _ => JoinState.create left.init right.init

/-- The executor of a tree. -/
def executor (fuel : Nat) : (e : Exec) → AbstractExecutor e.State
  | seqScan t conds => AbstractExecutor.seqScan fuel t conds
  | indexScan t index ih conds => AbstractExecutor.indexScan fuel t index ih conds
  | join left right conds =>
    AbstractExecutor.blockNestedLoopJoin (left.executor fuel) (right.executor fuel) conds fuel

/-- **The records that a tree stands for**: those that a scan goes through, and the pairs of the two
sides that meet the conditions of a join. -/
inductive Means : Exec → List (List UInt8) → Prop
  | seqScan {t : ScanTable} {conds : List Condition} {rows : List (List UInt8)} (fuel : Nat)
      (h : ((seqScan t conds).executor fuel).Restarts rows) : Means (seqScan t conds) rows
  | indexScan {t : ScanTable} {index : IndexMeta}
      {ih : IxIndexHandle (RawKey (IndexScan.ixCols index.cols))} {conds : List Condition}
      {rows : List (List UInt8)} (fuel : Nat)
      (h : ((indexScan t index ih conds).executor fuel).Restarts rows) :
      Means (indexScan t index ih conds) rows
  | join {left right : Exec} {conds : List Condition} {ls rs : List (List UInt8)}
      (hl : Means left ls) (hr : Means right rs)
      (hconds : ∀ c ∈ conds, c.Typed
        (joinCols (left.executor 0).cols (right.executor 0).cols (left.executor 0).tupleLen)) :
      Means (join left right conds)
        (((nestedLoop ls rs).filter (pairMatches (left.executor 0) (right.executor 0) conds)).map
          (pairRow (left.executor 0) (right.executor 0)))

/-! ### Fuel -/

/-- The fuel matters neither to the columns nor to the length of the rows. -/
theorem executor_meta (e : Exec) (fuel : Nat) :
    (e.executor fuel).cols = (e.executor 0).cols ∧
      (e.executor fuel).tupleLen = (e.executor 0).tupleLen := by
  induction e with
  | seqScan t conds => exact ⟨rfl, rfl⟩
  | indexScan t index ih conds => exact ⟨rfl, rfl⟩
  | join left right conds ihl ihr =>
    constructor
    · show joinCols (left.executor fuel).cols (right.executor fuel).cols (left.executor fuel).tupleLen
        = joinCols (left.executor 0).cols (right.executor 0).cols (left.executor 0).tupleLen
      rw [ihl.1, ihl.2, ihr.1]
    · show (left.executor fuel).tupleLen + (right.executor fuel).tupleLen =
        (left.executor 0).tupleLen + (right.executor 0).tupleLen
      rw [ihl.2, ihr.2]

end Exec

/-! ### Joins of executors that go further -/

section Extends

variable {σ τ : Type} {left left' : AbstractExecutor σ} {right right' : AbstractExecutor τ}
  {conds : List Condition} {st st' : JoinState σ τ}

/-- Executors with the same columns, one of which goes further. -/
structure GoesFurther (e e' : AbstractExecutor σ) : Prop where
  ops : e.toTraversal.Extends e'.toTraversal
  cols : e'.cols = e.cols
  tupleLen : e'.tupleLen = e.tupleLen

/-- More fuel of the children does not change a step that ends. -/
theorem joinNext_further (hl : GoesFurther left left') (hr : GoesFurther right right')
    (st : JoinState σ τ) : joinNext left' right' st = joinNext left right st := by
  unfold joinNext
  rw [hl.tupleLen, hr.tupleLen, hr.ops.item]

/-- The same of the test for the end. -/
theorem joinEnd_further (hl : GoesFurther left left') (hr : GoesFurther right right')
    (st : JoinState σ τ) : joinEnd left' right' st = joinEnd left right st := by
  unfold joinEnd
  rw [hl.ops.isEnd, hr.ops.isEnd]

/-- The same of the search in a block. -/
theorem scanBlock_further (hl : GoesFurther left left') (hr : GoesFurther right right') (n : Nat)
    (st : JoinState σ τ) : scanBlock left' right' conds n st = scanBlock left right conds n st := by
  induction n generalizing st with
  | zero => rfl
  | succ n ih =>
    rw [scanBlock, scanBlock, joinNext_further hl hr, hl.cols, hr.cols, hl.tupleLen]
    simp only [ih]

/-- The same of the rows loaded into the block. -/
theorem loadFrom_further (hl : GoesFurther left left') {n : Nat}
    (h : loadFrom left n st = .ok st') : loadFrom left' n st = .ok st' := by
  induction n generalizing st with
  | zero => exact h
  | succ n ih =>
    rw [loadFrom] at h ⊢
    rw [hl.ops.isEnd, hl.ops.item]
    obtain ⟨b, hend, h⟩ := bind_eq_ok.mp h
    refine bind_eq_ok.mpr ⟨b, hend, ?_⟩
    cases b with
    | true => exact h
    | false =>
      rw [if_neg Bool.false_ne_true] at h ⊢
      obtain ⟨l, hitem, h⟩ := bind_eq_ok.mp h
      obtain ⟨next, hnext, h⟩ := bind_eq_ok.mp h
      exact bind_eq_ok.mpr ⟨l, hitem, bind_eq_ok.mpr ⟨next, hl.ops.next hnext, ih h⟩⟩

/-- The same of a whole block. -/
theorem loadLeftBuffer_further (hl : GoesFurther left left')
    (h : loadLeftBuffer left st = .ok st') : loadLeftBuffer left' st = .ok st' := by
  unfold loadLeftBuffer at h ⊢
  exact loadFrom_further hl h

/-- The same of the step to the next pair. -/
theorem advance_further (hl : GoesFurther left left') (hr : GoesFurther right right')
    {x : Bool × JoinState σ τ} (h : advance left right st = .ok x) :
    advance left' right' st = .ok x := by
  obtain ⟨next, hnext, h⟩ := bind_eq_ok.mp h
  refine bind_eq_ok.mpr ⟨next, hr.ops.next hnext, ?_⟩
  obtain ⟨b, hend, h⟩ := bind_eq_ok.mp h
  refine bind_eq_ok.mpr ⟨b, (hr.ops.isEnd _).trans hend, ?_⟩
  cases b with
  | false =>
    rw [if_neg Bool.false_ne_true] at h ⊢
    exact h
  | true =>
    rw [if_pos rfl] at h ⊢
    obtain ⟨b, hend, h⟩ := bind_eq_ok.mp h
    refine bind_eq_ok.mpr ⟨b, (hl.ops.isEnd _).trans hend, ?_⟩
    cases b with
    | true =>
      rw [if_pos rfl] at h ⊢
      exact h
    | false =>
      rw [if_neg Bool.false_ne_true] at h ⊢
      obtain ⟨first, hstart, h⟩ := bind_eq_ok.mp h
      obtain ⟨st₁, hload, h⟩ := bind_eq_ok.mp h
      exact bind_eq_ok.mpr ⟨first, hr.ops.start hstart,
        bind_eq_ok.mpr ⟨st₁, loadLeftBuffer_further hl hload, h⟩⟩

/-- The same of the search for a pair that meets the conditions. -/
theorem joinSeek_further (hl : GoesFurther left left') (hr : GoesFurther right right')
    {fuel fuel' : Nat} (hle : fuel ≤ fuel') (h : joinSeek left right conds fuel st = .ok st') :
    joinSeek left' right' conds fuel' st = .ok st' := by
  -- each round of the search is the same round, one after the other
  induction fuel generalizing fuel' st with
  | zero => cases h
  | succ fuel ih =>
    obtain ⟨n, rfl⟩ : ∃ n, fuel' = n + 1 := ⟨fuel' - 1, by omega⟩
    rw [joinSeek] at h ⊢
    rw [joinEnd_further hl hr]
    obtain ⟨b, hend, h⟩ := bind_eq_ok.mp h
    refine bind_eq_ok.mpr ⟨b, hend, ?_⟩
    cases b with
    | true =>
      -- the join has ended
      rw [if_pos rfl] at h ⊢
      exact h
    | false =>
      rw [if_neg Bool.false_ne_true] at h ⊢
      obtain ⟨⟨goOn, st₁⟩, henter, h⟩ := bind_eq_ok.mp h
      have henter' : enterBlock left' right' st = .ok (goOn, st₁) := by
        unfold enterBlock at henter ⊢
        split
        · rename_i heq
          rw [if_pos heq] at henter
          exact advance_further hl hr henter
        · rename_i hne
          rw [if_neg hne] at henter
          exact henter
      refine bind_eq_ok.mpr ⟨(goOn, st₁), henter', ?_⟩
      dsimp only at h ⊢
      cases goOn with
      | false =>
        rw [if_neg Bool.false_ne_true] at h ⊢
        exact h
      | true =>
        rw [if_pos rfl] at h ⊢
        obtain ⟨⟨found, st₂⟩, hscan, h⟩ := bind_eq_ok.mp h
        refine bind_eq_ok.mpr ⟨(found, st₂), (scanBlock_further hl hr _ _).trans hscan, ?_⟩
        dsimp only at h ⊢
        cases found with
        | true =>
          rw [if_pos rfl] at h ⊢
          exact h
        | false =>
          rw [if_neg Bool.false_ne_true] at h ⊢
          exact ih (Nat.le_of_succ_le_succ hle) h

/-- The same of `beginTuple`. -/
theorem joinBegin_further (hl : GoesFurther left left') (hr : GoesFurther right right')
    {fuel fuel' : Nat} (hle : fuel ≤ fuel') (h : joinBegin left right conds fuel st = .ok st') :
    joinBegin left' right' conds fuel' st = .ok st' := by
  obtain ⟨l, hlstart, h⟩ := bind_eq_ok.mp h
  refine bind_eq_ok.mpr ⟨l, hl.ops.start hlstart, ?_⟩
  obtain ⟨b, hend, h⟩ := bind_eq_ok.mp h
  refine bind_eq_ok.mpr ⟨b, (hl.ops.isEnd _).trans hend, ?_⟩
  cases b with
  | true =>
    rw [if_pos rfl] at h ⊢
    exact h
  | false =>
    rw [if_neg Bool.false_ne_true] at h ⊢
    obtain ⟨r, hrstart, h⟩ := bind_eq_ok.mp h
    refine bind_eq_ok.mpr ⟨r, hr.ops.start hrstart, ?_⟩
    obtain ⟨b, hend, h⟩ := bind_eq_ok.mp h
    refine bind_eq_ok.mpr ⟨b, (hr.ops.isEnd _).trans hend, ?_⟩
    cases b with
    | true =>
      rw [if_pos rfl] at h ⊢
      exact h
    | false =>
      rw [if_neg Bool.false_ne_true] at h ⊢
      obtain ⟨st₁, hload, h⟩ := bind_eq_ok.mp h
      exact bind_eq_ok.mpr ⟨st₁, loadLeftBuffer_further hl hload, joinSeek_further hl hr hle h⟩

/-- A join goes further where its children do. -/
theorem blockNestedLoopJoin_further (hl : GoesFurther left left') (hr : GoesFurther right right')
    {fuel fuel' : Nat} (hle : fuel ≤ fuel') :
    GoesFurther (blockNestedLoopJoin left right conds fuel)
      (blockNestedLoopJoin left' right' conds fuel') where
  ops :=
    { start := joinBegin_further hl hr hle
      next := joinSeek_further hl hr hle
      isEnd := joinEnd_further hl hr
      item := joinNext_further hl hr }
  cols := by
    show joinCols left'.cols right'.cols left'.tupleLen = joinCols left.cols right.cols left.tupleLen
    rw [hl.cols, hr.cols, hl.tupleLen]
  tupleLen := by
    show left'.tupleLen + right'.tupleLen = left.tupleLen + right.tupleLen
    rw [hl.tupleLen, hr.tupleLen]

end Extends

namespace Exec

/-- With more fuel an executor goes further. -/
theorem executor_further (e : Exec) {fuel fuel' : Nat} (hle : fuel ≤ fuel') :
    GoesFurther (e.executor fuel) (e.executor fuel') := by
  induction e with
  | seqScan t conds => exact ⟨(Cursor.traversal_extends hle).bindItem _, rfl, rfl⟩
  | indexScan t index ih conds => exact ⟨(Cursor.traversal_extends hle).bindItem _, rfl, rfl⟩
  | join left right conds ihl ihr => exact blockNestedLoopJoin_further ihl ihr hle

/-- Before the first start nothing can be asked. -/
theorem isEnd_init (e : Exec) (fuel : Nat) :
    (e.executor fuel).isEnd e.init = .error .nullPointer := by
  induction e with
  | seqScan t conds => rfl
  | indexScan t index ih conds => rfl
  | join left right conds ihl _ =>
    show ((left.executor fuel).isEnd left.init >>= _) = _
    rw [ihl]
    rfl

/-- Whether a tree is at its end after a start that went well. -/
theorem isEnd_of_restarts {e : Exec} {rows : List (List UInt8)} {fuel fuel' : Nat}
    (h : (e.executor fuel).Restarts rows) {st st' : e.State}
    (hstart : (e.executor fuel').start st = .ok st') :
    (e.executor fuel').isEnd st' = .ok rows.isEmpty := by
  have hmax := h
  have hle := e.executor_further (Nat.le_max_left fuel fuel')
  have hle' := e.executor_further (Nat.le_max_right fuel fuel')
  obtain ⟨st₁, hst, hyields⟩ := hle.ops.restarts h st
  cases hst.symm.trans (hle'.ops.start hstart)
  rw [← hle'.ops.isEnd]
  exact hyields.isEnd

end Exec

/-! ### Executors that are stuck -/

/-- After the first start, if there is no error, the executor is not at its end and has no record. -/
def AbstractExecutor.Stuck {σ : Type} (e : AbstractExecutor σ) (init : σ) : Prop :=
  ∀ st, e.start init = .ok st →
    (∃ err, e.isEnd st = .error err) ∨ (e.isEnd st = .ok false ∧ ∃ err, e.item st = .error err)

section Stuck

variable {σ τ : Type} {left : AbstractExecutor σ} {right : AbstractExecutor τ}
  {conds : List Condition} {l : σ} {r : τ}
  {fuel : Nat} {st st' : JoinState σ τ}

/-- An executor that is stuck does not end at once. -/
theorem AbstractExecutor.Stuck.not_isEnd {e : AbstractExecutor σ} (h : e.Stuck l) :
    ¬ ∃ st, e.start l = .ok st ∧ e.isEnd st = .ok true := by
  rintro ⟨st, hstart, hend⟩
  rcases h st hstart with ⟨err, herr⟩ | ⟨hfalse, -⟩
  · cases hend.symm.trans herr
  · cases hend.symm.trans hfalse

/-- No loop over a stuck executor comes to its end. -/
theorem AbstractExecutor.Stuck.not_run {e : AbstractExecutor σ} (h : e.Stuck l) (stuck : RunError)
    (n : Nat) (rows : List (List UInt8)) : e.run stuck n l ≠ .ok rows := by
  intro hrun
  obtain ⟨st, hstart, hcollect⟩ := bind_eq_ok.mp hrun
  cases n with
  | zero => cases hcollect
  | succ n =>
    obtain ⟨b, hend, hcollect⟩ := bind_eq_ok.mp hcollect
    rcases h st hstart with ⟨err, herr⟩ | ⟨hfalse, err, herr⟩
    · cases hend.symm.trans herr
    · cases hend.symm.trans hfalse
      rw [if_neg Bool.false_ne_true] at hcollect
      obtain ⟨a, hitem, -⟩ := bind_eq_ok.mp hcollect
      cases hitem.symm.trans herr

/-- What `load_left_buffer` leaves as it is. -/
theorem loadFrom_keeps {n : Nat} (h : loadFrom left n st = .ok st') :
    st'.right = st.right ∧ st'.leftPtr = st.leftPtr ∧ st.leftSize ≤ st'.leftSize ∧
      ∀ i < st.leftSize, st'.buffer i = st.buffer i := by
  induction n generalizing st with
  | zero =>
    cases h
    exact ⟨rfl, rfl, Nat.le_refl _, fun _ _ => rfl⟩
  | succ n ih =>
    rw [loadFrom] at h
    obtain ⟨b, -, h⟩ := bind_eq_ok.mp h
    cases b with
    | true =>
      rw [if_pos rfl] at h
      cases h
      exact ⟨rfl, rfl, Nat.le_refl _, fun _ _ => rfl⟩
    | false =>
      rw [if_neg Bool.false_ne_true] at h
      obtain ⟨a, -, h⟩ := bind_eq_ok.mp h
      obtain ⟨next, -, h⟩ := bind_eq_ok.mp h
      obtain ⟨hr, hp, hs, hb⟩ := ih h
      refine ⟨hr, hp, Nat.le_of_succ_le hs, fun i hi => ?_⟩
      rw [hb i (Nat.lt_succ_of_lt hi)]
      exact if_neg (Nat.ne_of_lt hi)

/-- A block is never empty where the left side is not at its end. -/
theorem loadFrom_fills {n : Nat} (hend : left.isEnd st.left = .ok false)
    (h : loadFrom left (n + 1) st = .ok st') :
    st'.right = st.right ∧ st'.leftPtr = st.leftPtr ∧ st.leftSize < st'.leftSize ∧
      ∃ a, left.item st.left = .ok a ∧ st'.buffer st.leftSize = some a := by
  rw [loadFrom] at h
  obtain ⟨b, hend', h⟩ := bind_eq_ok.mp h
  cases hend.symm.trans hend'
  rw [if_neg Bool.false_ne_true] at h
  obtain ⟨a, hitem, h⟩ := bind_eq_ok.mp h
  obtain ⟨next, -, h⟩ := bind_eq_ok.mp h
  obtain ⟨hr, hp, hs, hb⟩ := loadFrom_keeps h
  refine ⟨hr, hp, hs, a, hitem, ?_⟩
  rw [hb st.leftSize (Nat.lt_succ_self _)]
  exact if_pos rfl

/-- **Where `beginTuple` of a join returns.** -/
theorem joinBegin_cases (h : joinBegin left right conds fuel (JoinState.create l r) = .ok st) :
    ∃ l', left.start l = .ok l' ∧
      ((left.isEnd l' = .ok true ∧ st = { JoinState.create l r with left := l' }) ∨
      (left.isEnd l' = .ok false ∧ ∃ r', right.start r = .ok r' ∧
        ((right.isEnd r' = .ok true ∧ st = { JoinState.create l r with left := l', right := r' }) ∨
        (right.isEnd r' = .ok false ∧ ∃ st₁,
          loadLeftBuffer left { JoinState.create l r with left := l', right := r' } = .ok st₁ ∧
          joinSeek left right conds fuel { st₁ with leftPtr := 0 } = .ok st)))) := by
  obtain ⟨l', hl, h⟩ := bind_eq_ok.mp h
  obtain ⟨b, hend, h⟩ := bind_eq_ok.mp h
  refine ⟨l', hl, ?_⟩
  cases b with
  | true =>
    cases h
    exact .inl ⟨hend, rfl⟩
  | false =>
    rw [if_neg Bool.false_ne_true] at h
    obtain ⟨r', hr, h⟩ := bind_eq_ok.mp h
    obtain ⟨b, hrend, h⟩ := bind_eq_ok.mp h
    refine .inr ⟨hend, r', hr, ?_⟩
    cases b with
    | true =>
      cases h
      exact .inl ⟨hrend, rfl⟩
    | false =>
      rw [if_neg Bool.false_ne_true] at h
      obtain ⟨st₁, hload, hseek⟩ := bind_eq_ok.mp h
      -- the pointer wraps around to the first slot
      have hwrap : incPtr (2 ^ 64 - 1) = 0 := rfl
      unfold joinNextTuple at hseek
      rw [hwrap] at hseek
      exact .inr ⟨hrend, st₁, hload, hseek⟩

/-- The left side has no record: the right side was never started. -/
theorem stuck_of_left_end (hl : ∀ st, left.start l = .ok st → left.isEnd st = .ok true)
    (hr : ∃ err, right.isEnd r = .error err) :
    (blockNestedLoopJoin left right conds fuel).Stuck (JoinState.create l r) := by
  intro st hstart
  obtain ⟨l', hlstart, ⟨hend, rfl⟩ | ⟨hend, -⟩⟩ := joinBegin_cases hstart
  · obtain ⟨err, herr⟩ := hr
    refine .inl ⟨err, ?_⟩
    show (left.isEnd l' >>= _) = _
    rw [hend]
    exact herr
  · cases (hl l' hlstart).symm.trans hend

/-- The join stops before the block is filled, with the left side before its end. -/
theorem stuck_before_block {l' : σ} {r' : τ} (hend : left.isEnd l' = .ok false) :
    (blockNestedLoopJoin left right conds fuel).isEnd
        { JoinState.create l r with left := l', right := r' } = .ok false ∧
      ∃ err, (blockNestedLoopJoin left right conds fuel).item
        { JoinState.create l r with left := l', right := r' } = .error err := by
  refine ⟨?_, .nullPointer, rfl⟩
  show (left.isEnd l' >>= _) = _
  rw [hend]
  rfl

/-- The right side has no record: the join returns before the block is filled. -/
theorem stuck_of_right_end (hl : ∀ st, left.start l = .ok st → left.isEnd st = .ok false)
    (hr : ∀ st, right.start r = .ok st → right.isEnd st = .ok true) :
    (blockNestedLoopJoin left right conds fuel).Stuck (JoinState.create l r) := by
  intro st hstart
  obtain ⟨l', hlstart, ⟨hend, -⟩ | ⟨hend, r', hrstart, ⟨-, rfl⟩ | ⟨hrend, -⟩⟩⟩ :=
    joinBegin_cases hstart
  · cases (hl l' hlstart).symm.trans hend
  · exact .inr (stuck_before_block hend)
  · cases (hr r' hrstart).symm.trans hrend

/-- A left side that is stuck. -/
theorem stuck_of_left_stuck (hl : left.Stuck l) :
    (blockNestedLoopJoin left right conds fuel).Stuck (JoinState.create l r) := by
  intro st hstart
  obtain ⟨l', hlstart, hcase⟩ := joinBegin_cases hstart
  rcases hl l' hlstart with ⟨err, herr⟩ | ⟨hfalse, err, herr⟩
  · rcases hcase with ⟨hend, -⟩ | ⟨hend, -⟩
    · cases hend.symm.trans herr
    · cases hend.symm.trans herr
  · obtain ⟨hend, -⟩ | ⟨hend, r', -, ⟨-, rfl⟩ | ⟨-, st₁, hload, -⟩⟩ := hcase
    · cases hend.symm.trans hfalse
    · exact .inr (stuck_before_block hend)
    · -- the block cannot be filled
      obtain ⟨-, -, -, a, hitem, -⟩ := loadFrom_fills (n := 2047) (by exact hend) hload
      cases hitem.symm.trans herr

/-- The first pair cannot be read where the right side has no record. -/
theorem not_joinSeek {n : Nat} {a : List UInt8} (hsize : st.leftSize = n + 1)
    (hslot : st.buffer 0 = some a) (hend : right.isEnd st.right = .ok false)
    (hitem : ∃ err, right.item st.right = .error err) :
    joinSeek left right conds fuel { st with leftPtr := 0 } ≠ .ok st' := by
  intro h
  cases fuel with
  | zero => cases h
  | succ fuel =>
    have hnot := h
    rw [joinSeek] at hnot
    obtain ⟨b, hb, -⟩ := bind_eq_ok.mp hnot
    cases b with
    | true =>
      obtain ⟨c, -, hb⟩ := bind_eq_ok.mp hb
      cases c with
      | true => cases hend.symm.trans hb
      | false => cases hb
    | false =>
      have henter : enterBlock left right { st with leftPtr := 0 } =
          .ok (true, { st with leftPtr := 0 }) := by
        unfold enterBlock
        rw [if_neg (by rw [hsize]; exact (Nat.succ_ne_zero n).symm)]
      rw [joinSeek_succ hb henter, if_pos rfl] at h
      obtain ⟨x, hscan, -⟩ := bind_eq_ok.mp h
      obtain ⟨err, herr⟩ := hitem
      rw [show st.leftSize - 0 = n + 1 from hsize, scanBlock] at hscan
      obtain ⟨row, hnext, -⟩ := bind_eq_ok.mp hscan
      rw [joinNext, hslot] at hnext
      obtain ⟨row, hrow, -⟩ := bind_eq_ok.mp hnext
      cases hrow.symm.trans herr

/-- A right side that is stuck, with a left side that is not at its end. -/
theorem stuck_of_right_stuck (hl : ∀ st, left.start l = .ok st → left.isEnd st = .ok false)
    (hr : right.Stuck r) :
    (blockNestedLoopJoin left right conds fuel).Stuck (JoinState.create l r) := by
  intro st hstart
  exfalso
  obtain ⟨l', hlstart, ⟨hend, -⟩ | ⟨hend, r', hrstart, hcase⟩⟩ := joinBegin_cases hstart
  · cases (hl l' hlstart).symm.trans hend
  rcases hr r' hrstart with ⟨err, herr⟩ | ⟨hfalse, err, herr⟩
  · rcases hcase with ⟨hrend, -⟩ | ⟨hrend, -⟩
    · cases hrend.symm.trans herr
    · cases hrend.symm.trans herr
  · obtain ⟨hrend, -⟩ | ⟨-, st₁, hload, hseek⟩ := hcase
    · cases hrend.symm.trans hfalse
    obtain ⟨hright, -, hsize, a, -, hslot⟩ := loadFrom_fills (n := 2047) (by exact hend) hload
    have hright' : st₁.right = r' := hright
    obtain ⟨n, hn⟩ : ∃ n, st₁.leftSize = n + 1 := ⟨st₁.leftSize - 1, by dsimp only at hsize; omega⟩
    exact not_joinSeek hn hslot (hright'.symm ▸ hfalse) ⟨err, hright'.symm ▸ herr⟩ hseek

end Stuck

/-! ### Trees -/

namespace Exec

variable {left right : Exec} {conds : List Condition} {rows ls rs : List (List UInt8)}

/-- The tree goes through these records, in some order, when it has fuel enough. -/
def GoesThrough (e : Exec) (rows : List (List UInt8)) : Prop :=
  ∃ rows' : List (List UInt8), rows'.Perm rows ∧ ∃ fuel, (e.executor fuel).Restarts rows'

/-- The end is there at once exactly when there are no rows. -/
theorem GoesThrough.isEnd {e : Exec} (h : e.GoesThrough rows) {fuel : Nat} {st st' : e.State}
    (hstart : (e.executor fuel).start st = .ok st') :
    (e.executor fuel).isEnd st' = .ok rows.isEmpty := by
  obtain ⟨rows', hperm, fuel', hrows⟩ := h
  rw [isEnd_of_restarts hrows hstart]
  have hiff : rows' = [] ↔ rows = [] := ⟨fun h => (h ▸ hperm).symm.eq_nil, fun h => (h ▸ hperm).eq_nil⟩
  cases rows' with
  | nil => rw [hiff.mp rfl]
  | cons x xs =>
    cases rows with
    | nil => cases hiff.mpr rfl
    | cons y ys => rfl

/-- A join with an empty side is stuck, when its sides go through their records or are stuck. -/
theorem stuck_of_sides (hl : left.GoesThrough ls ∨ ∀ fuel, (left.executor fuel).Stuck left.init)
    (hr : right.GoesThrough rs ∨ ∀ fuel, (right.executor fuel).Stuck right.init)
    (hempty : left.GoesThrough ls → right.GoesThrough rs → ls = [] ∨ rs = [])
    (conds : List Condition) (fuel : Nat) :
    ((join left right conds).executor fuel).Stuck (join left right conds).init := by
  rcases hl with hl | hl
  · by_cases hls : ls = []
    · subst hls
      exact stuck_of_left_end (fun st hst => hl.isEnd hst) ⟨_, right.isEnd_init fuel⟩
    · have hleft : ∀ st, (left.executor fuel).start left.init = .ok st →
          (left.executor fuel).isEnd st = .ok false := by
        intro st hst
        rw [hl.isEnd hst, List.isEmpty_eq_false_iff.mpr hls]
      rcases hr with hr | hr
      · have hrs := (hempty hl hr).resolve_left hls
        subst hrs
        exact stuck_of_right_end hleft fun st hst => hr.isEnd hst
      · exact stuck_of_right_stuck hleft (hr fuel)
  · exact stuck_of_left_stuck (hl fuel)

/-- The fuel does not matter to a pair of rows. -/
theorem pairMatches_executor (left right : Exec) (conds : List Condition) (fuel : Nat) :
    pairMatches (left.executor fuel) (right.executor fuel) conds =
        pairMatches (left.executor 0) (right.executor 0) conds ∧
      pairRow (left.executor fuel) (right.executor fuel) =
        pairRow (left.executor 0) (right.executor 0) := by
  obtain ⟨hlc, hll⟩ := left.executor_meta fuel
  obtain ⟨hrc, hrl⟩ := right.executor_meta fuel
  have hrow : pairRow (left.executor fuel) (right.executor fuel) =
      pairRow (left.executor 0) (right.executor 0) := by
    funext p
    unfold pairRow
    rw [hll, hrl]
  refine ⟨?_, hrow⟩
  funext p
  unfold pairMatches checkPair
  rw [hrow, hlc, hrc, hll]

/-- **A join of two sides that go through their records, some on each side, goes through its pairs.** -/
theorem GoesThrough.join (hl : left.GoesThrough ls) (hr : right.GoesThrough rs) (hls : ls ≠ [])
    (hrs : rs ≠ []) (hconds : ∀ c ∈ conds, c.Typed
      (joinCols (left.executor 0).cols (right.executor 0).cols (left.executor 0).tupleLen)) :
    (Exec.join left right conds).GoesThrough
      (((nestedLoop ls rs).filter (pairMatches (left.executor 0) (right.executor 0) conds)).map
        (pairRow (left.executor 0) (right.executor 0))) := by
  obtain ⟨ls', hlperm, fl, hls'⟩ := hl
  obtain ⟨rs', hrperm, fr, hrs'⟩ := hr
  -- fuel for both sides and for the loop of the join
  set fuel := fl + fr + (rs'.length + ls'.length * rs'.length + 2) with hfuel
  have hl' := (left.executor_further (by omega : fl ≤ fuel)).ops.restarts hls'
  have hr' := (right.executor_further (by omega : fr ≤ fuel)).ops.restarts hrs'
  have hne : ls' ≠ [] := fun h => hls (h ▸ hlperm).symm.eq_nil
  have hne' : rs' ≠ [] := fun h => hrs (h ▸ hrperm).symm.eq_nil
  obtain ⟨hmatch, hrow⟩ := pairMatches_executor left right conds fuel
  obtain ⟨hlc, hll⟩ := left.executor_meta fuel
  obtain ⟨hrc, -⟩ := right.executor_meta fuel
  have hconds' : ∀ c ∈ conds, c.Typed (joinCols (left.executor fuel).cols
      (right.executor fuel).cols (left.executor fuel).tupleLen) := by
    rw [hlc, hrc, hll]
    exact hconds
  have hlong : rs'.length + ls'.length * rs'.length + 1 < fuel := by omega
  have hjoin := join_restarts hconds' hl' hne hr' hne' hlong
  rw [hmatch, hrow] at hjoin
  refine ⟨_, ?_, fuel, hjoin⟩
  exact ((((blockLoop_perm (by decide) ls' rs').trans (nestedLoop_perm hlperm hrperm)).filter _).map _)

/-- **A tree goes through its records or is stuck.** -/
theorem restarts_or_stuck {e : Exec} (h : e.Means rows) :
    e.GoesThrough rows ∨ ∀ fuel, (e.executor fuel).Stuck e.init := by
  induction h with
  | seqScan fuel h => exact .inl ⟨_, .refl _, fuel, h⟩
  | indexScan fuel h => exact .inl ⟨_, .refl _, fuel, h⟩
  | @join left right conds ls rs hl hr hconds ihl ihr =>
    by_cases hboth : left.GoesThrough ls ∧ right.GoesThrough rs ∧ ls ≠ [] ∧ rs ≠ []
    · obtain ⟨hl, hr, hls, hrs⟩ := hboth
      exact .inl (hl.join hr hls hrs hconds)
    · refine .inr (stuck_of_sides ihl ihr (fun hl hr => ?_) conds)
      by_contra hne
      exact hboth ⟨hl, hr, (not_or.mp hne).1, (not_or.mp hne).2⟩

/-- **A join with an empty side never works:** after its start it does not report its end, and no loop
over it comes to an end. -/
theorem join_never_ends (hl : left.Means ls) (hr : right.Means rs) (hempty : ls = [] ∨ rs = [])
    (conds : List Condition) (fuel : Nat) :
    (¬ ∃ st, ((join left right conds).executor fuel).start (join left right conds).init = .ok st ∧
      ((join left right conds).executor fuel).isEnd st = .ok true) ∧
    ∀ n rows, ((join left right conds).executor fuel).run .outOfFuel n (join left right conds).init ≠
      .ok rows := by
  have hstuck := stuck_of_sides (restarts_or_stuck hl) (restarts_or_stuck hr)
    (fun _ _ => hempty) conds fuel
  exact ⟨hstuck.not_isEnd, hstuck.not_run _⟩

/-- A table without a record: its file has the header page only. -/
def emptyTable : ScanTable :=
  { tab := "t"
    cols := [{ name := "a", type := .int, len := 4, offset := 0 }]
    hdr := { recordSize := 4, numPages := 1, numRecordsPerPage := 8, firstFreePageNo := -1,
             bitmapSize := 1 }
    pages := fun _ _ => 0 }

/-- A scan of the empty table has no rows. -/
theorem emptyTable_means : (seqScan emptyTable []).Means [] := by
  have hvisits : (RmScan.cursor emptyTable.hdr emptyTable.pages RunError.outOfFuel).Visits
      (RmScan.start emptyTable.hdr emptyTable.pages) [] := .done rfl
  have hrids : ((RmScan.cursor emptyTable.hdr emptyTable.pages RunError.outOfFuel).traversal
      (.ok (RmScan.start emptyTable.hdr emptyTable.pages))
      (fun rid => (emptyTable.check [] rid).mapError .scan) .nullPointer 1).Restarts
        (([] : List Rid).filter fun _ => true) :=
    hvisits.restarts (fun _ h => absurd h List.not_mem_nil) Nat.zero_lt_one
  exact .seqScan 1 (hrids.bindItem (g := fun _ => []) fun _ h => nomatch h)

/-- Two empty tables. -/
theorem join_never_ends_two_tables :
    (¬ ∃ st, ((join (seqScan emptyTable []) (seqScan emptyTable []) []).executor 4).start
        (join (seqScan emptyTable []) (seqScan emptyTable []) []).init = .ok st ∧
      ((join (seqScan emptyTable []) (seqScan emptyTable []) []).executor 4).isEnd st = .ok true) ∧
    ∀ n rows, ((join (seqScan emptyTable []) (seqScan emptyTable []) []).executor 4).run .outOfFuel n
        (join (seqScan emptyTable []) (seqScan emptyTable []) []).init ≠ .ok rows :=
  join_never_ends emptyTable_means emptyTable_means (.inl rfl) [] 4

/-- The left table is empty: `is_end` reads the scan of the right one, which was never made. -/
theorem empty_left_side :
    let e := join (seqScan emptyTable []) (seqScan emptyTable []) []
    ∃ st, (e.executor 4).start e.init = .ok st ∧ (e.executor 4).isEnd st = .error .nullPointer :=
  ⟨_, rfl, rfl⟩

end Exec

end Rmdb
