import Rmdb.Lib.NestedLoop
import Rmdb.Execution.Executors

namespace Rmdb

open Lib AbstractExecutor

/-!
# The join in blocks

The left records come in blocks of `maxBufferSize`.  For each block the right side is read from its
start, and each of its records meets all records of the block.

* `Condition.Typed` — a condition that `check_clause` accepts;
* `InBlock` — a state in the middle of a block, and `pending`, the pairs that are still to come;
* `loadFrom_spec`, `scanBlock_spec`, `advance_spec`, `joinSeek_spec` — one lemma for each loop;
* `join_restarts` — the join goes through the pairs that meet the conditions, each once, and through
  the same sequence at every start.
-/

section Conditions

/-- The columns of the condition are there, can be read, and go together. -/
def Condition.Typed (cols : List ExecCol) (c : Condition) : Prop :=
  ∃ lhs, ExecCol.find? cols c.lhsCol = some lhs ∧ lhs.col.Declared ∧
    if c.isRhsVal = true then isCompatibleType lhs.col.type c.rhsVal.type = true
    else ∃ rhs, ExecCol.find? cols c.rhsCol = some rhs ∧ rhs.col.Declared ∧
      isCompatibleType lhs.col.type rhs.col.type = true

variable {cols : List ExecCol} {c : Condition} {conds : List Condition}

/-- A column that is there can be read. -/
theorem loadField_ok {x : TabCol} {f : ExecCol} (hfind : ExecCol.find? cols x = some f)
    (hdecl : f.col.Declared) (rec : List UInt8) :
    ∃ v, ExecutorUtils.loadField cols rec x = .ok v ∧ v.type = f.col.type := by
  unfold ExecutorUtils.loadField
  rw [hfind]
  exact hdecl.loadRaw _

/-- Such a condition can be checked on every record. -/
theorem Condition.Typed.checkField (h : c.Typed cols) (rec : List UInt8) :
    ∃ b, ExecutorUtils.checkField cols rec c = .ok b := by
  obtain ⟨lhs, hlhs, hdecl, hrhs⟩ := h
  obtain ⟨l, hl, hlt⟩ := loadField_ok hlhs hdecl rec
  have hr : ∃ r, ExecutorUtils.rhsField cols rec c = .ok r ∧
      isCompatibleType l.type r.type = true := by
    unfold ExecutorUtils.rhsField
    by_cases hval : c.isRhsVal = true
    · rw [if_pos hval] at hrhs ⊢
      exact ⟨_, rfl, hlt ▸ hrhs⟩
    · rw [if_neg hval] at hrhs ⊢
      obtain ⟨rhs, hfind, hdecl', hcompat⟩ := hrhs
      obtain ⟨r, hr, hrt⟩ := loadField_ok hfind hdecl' rec
      exact ⟨r, hr, by rw [hlt, hrt]; exact hcompat⟩
  obtain ⟨r, hr, hcompat⟩ := hr
  obtain ⟨b, hb, -⟩ := binop_of_compatible hcompat c.op
  exact ⟨b, bind_eq_ok.mpr ⟨l, hl, bind_eq_ok.mpr ⟨r, hr, hb⟩⟩⟩

/-- Typed conditions can be evaluated. -/
theorem checkFields_ok (h : ∀ c ∈ conds, c.Typed cols) (rec : List UInt8) :
    ∃ b, ExecutorUtils.checkFields cols rec conds = .ok b := by
  induction conds with
  | nil => exact ⟨true, rfl⟩
  | cons c conds ih =>
    obtain ⟨b, hb⟩ := (h c List.mem_cons_self).checkField rec
    rw [ExecutorUtils.checkFields, hb]
    cases b with
    | true => exact ih fun x hx => h x (List.mem_cons_of_mem _ hx)
    | false => exact ⟨false, rfl⟩

end Conditions

/-! ### The pairs of a join -/

section Join

variable {σ τ : Type} (left : AbstractExecutor σ) (right : AbstractExecutor τ) (conds : List Condition)

/-- The record of a pair. -/
def pairRow (p : List UInt8 × List UInt8) : List UInt8 :=
  joinRow left.tupleLen right.tupleLen p.1 p.2

/-- `checkConds` on the record of a pair. -/
def checkPair (p : List UInt8 × List UInt8) : Except ExecError Bool :=
  ExecutorUtils.checkFields (joinCols left.cols right.cols left.tupleLen) (pairRow left right p) conds

/-- The pair meets the conditions. -/
def pairMatches (p : List UInt8 × List UInt8) : Bool :=
  match checkPair left right conds p with
  | .ok b => b
  | .error _ => false

variable {left right conds}

/-- A pair is checked as its conditions say. -/
theorem checkPair_eq (h : ∀ c ∈ conds, c.Typed (joinCols left.cols right.cols left.tupleLen))
    (p : List UInt8 × List UInt8) :
    checkPair left right conds p = .ok (pairMatches left right conds p) := by
  obtain ⟨b, hb⟩ := checkFields_ok h (pairRow left right p)
  unfold pairMatches
  rw [show checkPair left right conds p = .ok b from hb]

/-! ### In the middle of a block -/

/-- The block holds these records, of the left side `lrest` is still to come, and the right side is at
    `r` with `rrest` behind it. -/
structure InBlock (left : AbstractExecutor σ) (right : AbstractExecutor τ) (st : JoinState σ τ)
    (block lrest : List (List UInt8)) (r : List UInt8) (rrest : List (List UInt8)) : Prop where
  lefts : left.Yields st.left lrest
  rights : right.Yields st.right (r :: rrest)
  size : st.leftSize = block.length
  slots : ∀ i < block.length, st.buffer i = block[i]?
  ptr : st.leftPtr ≤ block.length
  small : block.length ≤ maxBufferSize

/-- The pairs that are still to come from slot `ptr` on. -/
def pending (rs block lrest : List (List UInt8)) (r : List UInt8) (rrest : List (List UInt8))
    (ptr : Nat) : List (List UInt8 × List UInt8) :=
  (block.drop ptr).map (fun l => (l, r)) ++ nestedLoop block rrest ++
    blockLoop maxBufferSize lrest rs

/-- How often the right side may still go on. -/
def turns (rs lrest rrest : List (List UInt8)) : Nat := rrest.length + lrest.length * rs.length

variable {st : JoinState σ τ} {rs block lrest rrest : List (List UInt8)} {r : List UInt8}

/-- The pointer stays within the buffer. -/
theorem incPtr_eq {n : Nat} (h : n ≤ maxBufferSize) : incPtr n = n + 1 := by
  have hmax : maxBufferSize = 2048 := rfl
  unfold incPtr
  omega

namespace InBlock

/-- Within a block the join has not ended. -/
theorem joinEnd (h : InBlock left right st block lrest r rrest) :
    AbstractExecutor.joinEnd left right st = .ok false := by
  unfold AbstractExecutor.joinEnd
  rw [h.lefts.isEnd]
  cases lrest with
  | nil => exact h.rights.isEnd
  | cons l lrest => rfl

/-- The row at the pointer. -/
theorem joinNext (h : InBlock left right st block lrest r rrest) (hptr : st.leftPtr < block.length) :
    AbstractExecutor.joinNext left right st = .ok (pairRow left right (block[st.leftPtr], r)) := by
  have hitem : right.item st.right = .ok r := by
    cases h.rights with
    | item _ hitem => exact hitem
  unfold AbstractExecutor.joinNext
  rw [h.slots _ hptr, List.getElem?_eq_getElem hptr, hitem]
  rfl

/-- Another slot of the same block. -/
theorem move (h : InBlock left right st block lrest r rrest) (ptr : Nat) (hptr : ptr ≤ block.length) :
    InBlock left right { st with leftPtr := ptr } block lrest r rrest :=
  { h with ptr := hptr }

end InBlock

/-- A round of the search in the block. -/
theorem scanBlock_succ {p : List UInt8 × List UInt8} {b : Bool}
    (hnext : joinNext left right st = .ok (pairRow left right p))
    (hcheck : checkPair left right conds p = .ok b) (n : Nat) :
    scanBlock left right conds (n + 1) st =
      if b = true then .ok (true, st)
      else scanBlock left right conds n { st with leftPtr := incPtr st.leftPtr } := by
  rw [scanBlock, hnext]
  show ((checkPair left right conds p).mapError RunError.exec >>= _) = _
  rw [hcheck]
  rfl

/-- The loop over the slots: where it finds a pair that meets the conditions, or the end of the block. -/
theorem scanBlock_spec (hconds : ∀ c ∈ conds, c.Typed (joinCols left.cols right.cols left.tupleLen))
    (h : InBlock left right st block lrest r rrest) {n : Nat} (hn : n = block.length - st.leftPtr) :
    ∃ found ptr, scanBlock left right conds n st = .ok (found, { st with leftPtr := ptr }) ∧
      ptr ≤ block.length ∧
      ((block.drop ptr).map fun l => (l, r)).filter (pairMatches left right conds) =
        ((block.drop st.leftPtr).map fun l => (l, r)).filter (pairMatches left right conds) ∧
      (found = true → ∃ h : ptr < block.length, pairMatches left right conds (block[ptr], r) = true) ∧
      (found = false → ptr = block.length) := by
  induction n generalizing st with
  | zero =>
    have hptr := h.ptr
    exact ⟨false, st.leftPtr, rfl, hptr, rfl, fun h => (nomatch h), fun _ => by omega⟩
  | succ n ih =>
    have hptr : st.leftPtr < block.length := by omega
    have hdrop := List.drop_eq_getElem_cons hptr
    rw [scanBlock_succ (h.joinNext hptr) (checkPair_eq hconds _)]
    cases hm : pairMatches left right conds (block[st.leftPtr], r) with
    | true => exact ⟨true, st.leftPtr, rfl, h.ptr, rfl, fun _ => ⟨hptr, hm⟩, fun h => (nomatch h)⟩
    | false =>
      have hinc : incPtr st.leftPtr = st.leftPtr + 1 := incPtr_eq (h.ptr.trans h.small)
      obtain ⟨found, ptr, hscan, hle, hfilter, hfound, hnot⟩ :=
        ih (h.move (st.leftPtr + 1) hptr)
          (show n = block.length - (st.leftPtr + 1) by omega)
      refine ⟨found, ptr, ?_, hle, ?_, hfound, hnot⟩
      · rw [if_neg Bool.false_ne_true, hinc, hscan]
      · rw [hfilter, hdrop, List.map_cons, List.filter_cons, hm, if_neg Bool.false_ne_true]

/-- What `load_left_buffer` puts behind the slots that are filled. -/
theorem loadFrom_spec (st : JoinState σ τ) {l : List (List UInt8)} (h : left.Yields st.left l)
    (n : Nat) :
    ∃ st', loadFrom left n st = .ok st' ∧ left.Yields st'.left (l.drop n) ∧ st'.right = st.right ∧
      st'.leftPtr = st.leftPtr ∧ st'.leftSize = st.leftSize + (l.take n).length ∧
      (∀ i < st.leftSize, st'.buffer i = st.buffer i) ∧
      ∀ i < (l.take n).length, st'.buffer (st.leftSize + i) = (l.take n)[i]? := by
  induction n generalizing st l with
  | zero =>
    exact ⟨st, rfl, h, rfl, rfl, rfl, fun _ _ => rfl, fun i hi => absurd hi (Nat.not_lt_zero i)⟩
  | succ n ih =>
    rw [loadFrom, h.isEnd]
    cases h with
    | done hend =>
      exact ⟨st, rfl, .done hend, rfl, rfl, rfl, fun _ _ => rfl,
        fun i hi => absurd hi (Nat.not_lt_zero i)⟩
    | @item _ next a l hend hitem hnext hrest =>
      obtain ⟨st', hload, hy, hr, hp, hsize, hkeep, hnew⟩ := ih { st with
        left := next
        buffer := fun i => if i = st.leftSize then some a else st.buffer i
        leftSize := st.leftSize + 1 } hrest
      refine ⟨st', ?_, hy, hr, hp, ?_, fun i hi => ?_, fun i hi => ?_⟩
      · show (left.item st.left >>= _) = _
        rw [hitem]
        show (left.next st.left >>= _) = _
        rw [hnext]
        exact hload
      · rw [hsize, List.take_succ_cons, List.length_cons]
        exact Nat.succ_add_eq_add_succ _ _
      · rw [hkeep i (Nat.lt_succ_of_lt hi)]
        exact if_neg (Nat.ne_of_lt hi)
      · cases i with
        | zero =>
          rw [Nat.add_zero, hkeep st.leftSize (Nat.lt_succ_self _)]
          exact if_pos rfl
        | succ i =>
          rw [List.take_succ_cons, List.length_cons] at hi
          have h := hnew i (Nat.lt_of_succ_lt_succ hi)
          rw [List.take_succ_cons, List.getElem?_cons_succ, ← h]
          show st'.buffer (st.leftSize + (i + 1)) = st'.buffer (st.leftSize + 1 + i)
          congr 1
          omega

/-- `load_left_buffer` brings the next block. -/
theorem loadLeftBuffer_spec (st : JoinState σ τ) {l : List (List UInt8)} (hl : left.Yields st.left l)
    (hr : right.Yields st.right (r :: rrest)) :
    ∃ st', loadLeftBuffer left st = .ok st' ∧
      InBlock left right st' (l.take maxBufferSize) (l.drop maxBufferSize) r rrest := by
  obtain ⟨st', hload, hy, hright, hptr, hsize, -, hnew⟩ :=
    loadFrom_spec { st with leftPtr := 0, leftSize := 0 } hl maxBufferSize
  rw [Nat.zero_add] at hsize
  refine ⟨st', hload, hy, hright ▸ hr, hsize, fun i hi => ?_, ?_, ?_⟩
  · have h := hnew i hi
    rwa [Nat.zero_add] at h
  · rw [hptr]
    exact Nat.zero_le _
  · rw [List.length_take]
    exact Nat.min_le_left _ _

/-- **Behind the last slot:** the next record of the right side, or the next block, or the end. -/
theorem advance_spec (hr : right.Restarts rs) (hrs : rs ≠ [])
    (h : InBlock left right st block lrest r rrest) :
    ∃ goOn st', advance left right st = .ok (goOn, st') ∧
      (goOn = false → left.Yields st'.left [] ∧ right.Yields st'.right [] ∧
        pending rs block lrest r rrest block.length = []) ∧
      (goOn = true → ∃ block' lrest' r' rrest', InBlock left right st' block' lrest' r' rrest' ∧
        st'.leftPtr = 0 ∧
        pending rs block' lrest' r' rrest' 0 = pending rs block lrest r rrest block.length ∧
        turns rs lrest' rrest' < turns rs lrest rrest) := by
  have hpending : pending rs block lrest r rrest block.length =
      nestedLoop block rrest ++ blockLoop maxBufferSize lrest rs := by
    unfold pending
    rw [List.drop_length, List.map_nil, List.nil_append]
  obtain ⟨next, hnext, hrest⟩ : ∃ next, right.next st.right = .ok next ∧ right.Yields next rrest := by
    cases h.rights with
    | item _ _ hnext hrest => exact ⟨_, hnext, hrest⟩
  unfold advance
  rw [hnext]
  show ∃ goOn st', (right.isEnd next >>= _) = _ ∧ _
  rw [hrest.isEnd]
  cases rrest with
  | cons r' rrest =>
    refine ⟨true, _, rfl, fun h => (nomatch h), fun _ => ⟨block, lrest, r', rrest, ?_, rfl, ?_, ?_⟩⟩
    · exact { h with rights := hrest, ptr := Nat.zero_le _ }
    · rw [hpending, nestedLoop_cons]
      rfl
    · unfold turns
      rw [List.length_cons]
      omega
  | nil =>
    show ∃ goOn st', (left.isEnd st.left >>= _) = _ ∧ _
    rw [h.lefts.isEnd]
    by_cases hl : lrest = []
    · subst hl
      refine ⟨false, _, rfl, fun _ => ⟨h.lefts, hrest, ?_⟩, fun h => (nomatch h)⟩
      rw [hpending, blockLoop_nil]
      rfl
    · obtain ⟨first, hstart, hfirst⟩ := hr next
      obtain ⟨r', rrest', rfl⟩ := List.exists_cons_of_ne_nil hrs
      obtain ⟨st', hload, hblock⟩ :=
        loadLeftBuffer_spec { st with right := first } h.lefts hfirst
      refine ⟨true, { st' with leftPtr := 0 }, ?_, fun h => (nomatch h), fun _ =>
        ⟨_, _, r', rrest', hblock.move 0 (Nat.zero_le _), rfl, ?_, ?_⟩⟩
      · rw [List.isEmpty_eq_false_iff.mpr hl]
        show (right.start next >>= _) = _
        rw [hstart]
        show (loadLeftBuffer left { st with right := first } >>= _) = _
        rw [hload]
        rfl
      · rw [hpending, nestedLoop_nil_right, List.nil_append, blockLoop_of_ne_nil (by decide) hl,
          nestedLoop_cons]
        rfl
      · -- a block takes at least one record of the left side
        have hmax : maxBufferSize = 2048 := rfl
        have hpos := List.length_pos_iff.mpr hl
        have hdrop : (lrest.drop maxBufferSize).length + 1 ≤ lrest.length := by
          rw [List.length_drop]
          omega
        have hmul := Nat.mul_le_mul_right (r' :: rrest').length hdrop
        unfold turns
        rw [List.length_nil, Nat.zero_add]
        rw [Nat.succ_mul] at hmul
        have hcons : (r' :: rrest').length = rrest'.length + 1 := rfl
        omega

/-- Where the loop stops: the end, or the first of the pending pairs that meets the conditions. -/
def Sought (left : AbstractExecutor σ) (right : AbstractExecutor τ) (conds : List Condition)
    (rs : List (List UInt8)) (pairs : List (List UInt8 × List UInt8)) (most : Nat)
    (st : JoinState σ τ) : Prop :=
  (left.Yields st.left [] ∧ right.Yields st.right [] ∧
      pairs.filter (pairMatches left right conds) = []) ∨
    ∃ block lrest r rrest, InBlock left right st block lrest r rrest ∧
      (∃ h : st.leftPtr < block.length,
        pairMatches left right conds (block[st.leftPtr], r) = true) ∧
      (pending rs block lrest r rrest st.leftPtr).filter (pairMatches left right conds) =
        pairs.filter (pairMatches left right conds) ∧
      turns rs lrest rrest ≤ most

/-- A round of the search for a pair. -/
theorem joinSeek_succ {goOn : Bool} {st₁ : JoinState σ τ} (hend : joinEnd left right st = .ok false)
    (henter : enterBlock left right st = .ok (goOn, st₁)) (fuel : Nat) :
    joinSeek left right conds (fuel + 1) st =
      if goOn = true then
        (scanBlock left right conds (st₁.leftSize - st₁.leftPtr) st₁).bind fun x =>
          if x.1 = true then .ok x.2 else joinSeek left right conds fuel x.2
      else .ok st₁ := by
  rw [joinSeek, hend]
  show (enterBlock left right st >>= _) = _
  rw [henter]
  rfl

/-- More fuel. -/
theorem Sought.mono {pairs : List (List UInt8 × List UInt8)} {m n : Nat}
    (h : Sought left right conds rs pairs m st) (hle : m ≤ n) :
    Sought left right conds rs pairs n st := by
  rcases h with h | ⟨block, lrest, r, rrest, h, hm, hp, ht⟩
  · exact .inl h
  · exact .inr ⟨block, lrest, r, rrest, h, hm, hp, ht.trans hle⟩

/-- The rest of a block, and the loop from its end on. -/
theorem scanBlock_then (hconds : ∀ c ∈ conds, c.Typed (joinCols left.cols right.cols left.tupleLen))
    (h : InBlock left right st block lrest r rrest) {fuel : Nat}
    (hbehind : ∃ st', joinSeek left right conds fuel { st with leftPtr := block.length } = .ok st' ∧
      Sought left right conds rs (pending rs block lrest r rrest block.length)
        (turns rs lrest rrest) st') :
    ∃ st', ((scanBlock left right conds (st.leftSize - st.leftPtr) st).bind fun x =>
        if x.1 = true then .ok x.2 else joinSeek left right conds fuel x.2) = .ok st' ∧
      Sought left right conds rs (pending rs block lrest r rrest st.leftPtr)
        (turns rs lrest rrest) st' := by
  obtain ⟨found, ptr, hscan, hle, hfilter, hfound, hnot⟩ := scanBlock_spec hconds h
    (n := st.leftSize - st.leftPtr) (by rw [h.size])
  have hsame : (pending rs block lrest r rrest ptr).filter (pairMatches left right conds) =
      (pending rs block lrest r rrest st.leftPtr).filter (pairMatches left right conds) := by
    rw [pending, pending, List.filter_append, List.filter_append, List.filter_append,
      List.filter_append, hfilter]
  rw [hscan]
  show ∃ st', (if found = true then _ else _) = _ ∧ _
  cases found with
  | true =>
    exact ⟨_, rfl, .inr ⟨block, lrest, r, rrest, h.move ptr hle, hfound rfl, hsame, Nat.le_refl _⟩⟩
  | false =>
    cases hnot rfl
    obtain ⟨st', hseek, hsought⟩ := hbehind
    refine ⟨st', hseek, ?_⟩
    unfold Sought at hsought ⊢
    rwa [← hsame]

/-- From the end of a block. -/
theorem joinSeek_behind (hconds : ∀ c ∈ conds, c.Typed (joinCols left.cols right.cols left.tupleLen))
    (hr : right.Restarts rs) (hrs : rs ≠ []) (h : InBlock left right st block lrest r rrest)
    (hptr : st.leftPtr = block.length) {fuel : Nat} (hfuel : turns rs lrest rrest < fuel) :
    ∃ st', joinSeek left right conds fuel st = .ok st' ∧ Sought left right conds rs
      (pending rs block lrest r rrest block.length) (turns rs lrest rrest) st' := by
  induction fuel generalizing st block lrest r rrest with
  | zero => omega
  | succ fuel ih =>
    obtain ⟨goOn, st₁, hadv, hstop, hgo⟩ := advance_spec hr hrs h
    have henter : enterBlock left right st = .ok (goOn, st₁) := by
      rw [enterBlock, if_pos (hptr.trans h.size.symm), hadv]
    rw [joinSeek_succ h.joinEnd henter]
    cases goOn with
    | false =>
      obtain ⟨hl, hr', hnil⟩ := hstop rfl
      exact ⟨st₁, rfl, .inl ⟨hl, hr', by rw [hnil]; rfl⟩⟩
    | true =>
      obtain ⟨block', lrest', r', rrest', h₁, hzero, hpend, hturns⟩ := hgo rfl
      obtain ⟨st', hseek, hsought⟩ := scanBlock_then hconds h₁
        (ih (h₁.move _ (Nat.le_refl _)) rfl (by omega))
      rw [hzero, hpend] at hsought
      exact ⟨st', hseek, hsought.mono (Nat.le_of_lt hturns)⟩

/-- **The loop of `nextTuple`** finds the next pair that meets the conditions. -/
theorem joinSeek_spec (hconds : ∀ c ∈ conds, c.Typed (joinCols left.cols right.cols left.tupleLen))
    (hr : right.Restarts rs) (hrs : rs ≠ []) (h : InBlock left right st block lrest r rrest)
    (fuel : Nat) (hfuel : turns rs lrest rrest + 1 < fuel) :
    ∃ st', joinSeek left right conds fuel st = .ok st' ∧ Sought left right conds rs
      (pending rs block lrest r rrest st.leftPtr) (turns rs lrest rrest) st' := by
  by_cases hptr : st.leftPtr = block.length
  · rw [hptr]
    exact joinSeek_behind hconds hr hrs h hptr (by omega)
  · obtain ⟨fuel, rfl⟩ : ∃ n, fuel = n + 1 := ⟨fuel - 1, by omega⟩
    have henter : enterBlock left right st = .ok (true, st) := by
      rw [enterBlock, if_neg (fun heq => hptr (heq.trans h.size))]
    rw [joinSeek_succ h.joinEnd henter, if_pos rfl]
    exact scanBlock_then hconds h
      (joinSeek_behind hconds hr hrs (h.move _ (Nat.le_refl _)) rfl (by omega))

/-! ### The whole join -/

/-- The end is reached when both children are at theirs. -/
theorem joinEnd_done (hl : left.Yields st.left []) (hr : right.Yields st.right []) :
    joinEnd left right st = .ok true := by
  unfold joinEnd
  rw [hl.isEnd]
  exact hr.isEnd

/-- From a state that the loop leaves, the join yields the pending pairs that meet the conditions. -/
theorem Sought.yields (hconds : ∀ c ∈ conds, c.Typed (joinCols left.cols right.cols left.tupleLen))
    (hr : right.Restarts rs) (hrs : rs ≠ []) {pairs : List (List UInt8 × List UInt8)} {most : Nat}
    (h : Sought left right conds rs pairs most st) {fuel : Nat} (hfuel : most + 1 < fuel) :
    (blockNestedLoopJoin left right conds fuel).Yields st
      ((pairs.filter (pairMatches left right conds)).map (pairRow left right)) := by
  induction hn : (pairs.filter (pairMatches left right conds)).length using Nat.strongRecOn
    generalizing st pairs with
  | ind n ih =>
    rcases h with ⟨hl, hr', hnil⟩ | ⟨block, lrest, r, rrest, h, ⟨hptr, hm⟩, hp, ht⟩
    · rw [hnil]
      exact .done (joinEnd_done hl hr')
    · have hinc : incPtr st.leftPtr = st.leftPtr + 1 := incPtr_eq (h.ptr.trans h.small)
      -- the pair at the slot is the first of those to come
      have hcons : pairs.filter (pairMatches left right conds) = (block[st.leftPtr], r) ::
          (pending rs block lrest r rrest (st.leftPtr + 1)).filter (pairMatches left right conds) := by
        rw [← hp, pending, pending, List.drop_eq_getElem_cons hptr, List.map_cons, List.cons_append,
          List.cons_append, List.filter_cons, hm, if_pos rfl]
      obtain ⟨st', hseek, hsought⟩ := joinSeek_spec hconds hr hrs
        (h.move (st.leftPtr + 1) hptr) fuel (by omega)
      have hrest := ih _ (by rw [← hn, hcons]; exact Nat.lt_succ_self _) (hsought.mono ht) rfl
      rw [hcons, List.map_cons]
      refine .item h.joinEnd (h.joinNext hptr) ?_ hrest
      show joinSeek left right conds fuel { st with leftPtr := incPtr st.leftPtr } = _
      rw [hinc, hseek]

/-- **The join goes through the pairs that meet the conditions**, in blocks, at every start. -/
theorem join_restarts (hconds : ∀ c ∈ conds, c.Typed (joinCols left.cols right.cols left.tupleLen))
    {ls : List (List UInt8)} (hl : left.Restarts ls) (hls : ls ≠ []) (hr : right.Restarts rs)
    (hrs : rs ≠ []) {fuel : Nat} (hfuel : rs.length + ls.length * rs.length + 1 < fuel) :
    (blockNestedLoopJoin left right conds fuel).Restarts
      (((blockLoop maxBufferSize ls rs).filter (pairMatches left right conds)).map
        (pairRow left right)) := by
  intro st
  obtain ⟨l, hlstart, hly⟩ := hl st.left
  obtain ⟨r, hrstart, hry⟩ := hr st.right
  obtain ⟨r', rrest, rfl⟩ := List.exists_cons_of_ne_nil hrs
  obtain ⟨st₁, hload, h₁⟩ := loadLeftBuffer_spec { st with left := l, right := r } hly hry
  have hpend : pending (r' :: rrest) (ls.take maxBufferSize) (ls.drop maxBufferSize) r' rrest 0 =
      blockLoop maxBufferSize ls (r' :: rrest) := by
    rw [blockLoop_of_ne_nil (by decide) hls, nestedLoop_cons]
    rfl
  have hturns : turns (r' :: rrest) (ls.drop maxBufferSize) rrest ≤
      (r' :: rrest).length + ls.length * (r' :: rrest).length := by
    have hdrop : (ls.drop maxBufferSize).length ≤ ls.length := by
      rw [List.length_drop]
      omega
    have hmul := Nat.mul_le_mul_right (r' :: rrest).length hdrop
    have hcons : (r' :: rrest).length = rrest.length + 1 := rfl
    unfold turns
    omega
  obtain ⟨st', hseek, hsought⟩ := joinSeek_spec hconds hr hrs
    (h₁.move 0 (Nat.zero_le _)) fuel (by omega)
  rw [hpend] at hsought
  refine ⟨st', ?_, hsought.yields hconds hr hrs (by omega)⟩
  show (left.start st.left >>= _) = _
  rw [hlstart]
  show (left.isEnd l >>= _) = _
  rw [hly.isEnd, List.isEmpty_eq_false_iff.mpr hls]
  show (right.start st.right >>= _) = _
  rw [hrstart]
  show (right.isEnd r >>= _) = _
  rw [hry.isEnd]
  show (loadLeftBuffer left { st with left := l, right := r } >>= _) = _
  rw [hload]
  -- the pointer wraps around to the first slot
  have hwrap : incPtr (2 ^ 64 - 1) = 0 := rfl
  show joinSeek left right conds fuel { st₁ with leftPtr := incPtr (2 ^ 64 - 1) } = _
  rw [hwrap, hseek]

/-- **The join is a nested loop:** the run ends, each pair of records that meets the conditions comes
once and nothing else comes, and a new start from any state brings the same sequence again. -/
theorem blockNestedLoopJoin_rows {ls : List (List UInt8)} (hl : left.Restarts ls) (hls : ls ≠ [])
    (hr : right.Restarts rs) (hrs : rs ≠ [])
    (hconds : ∀ c ∈ conds, c.Typed (joinCols left.cols right.cols left.tupleLen)) :
    ∃ pairs : List (List UInt8 × List UInt8),
      pairs.Perm ((nestedLoop ls rs).filter (pairMatches left right conds)) ∧
      ∃ most, ∀ fuel, most ≤ fuel → ∀ st,
        (blockNestedLoopJoin left right conds fuel).run .outOfFuel fuel st =
          .ok (pairs.map (pairRow left right)) := by
  have hperm := blockLoop_perm (n := maxBufferSize) (by decide) ls rs
  refine ⟨_, hperm.filter _, rs.length + ls.length * rs.length + 2, fun fuel hfuel st => ?_⟩
  refine (join_restarts hconds hl hls hr hrs (by omega)).run _ ?_ st
  have hlen := hperm.length_eq
  have hle := List.length_filter_le (pairMatches left right conds) (blockLoop maxBufferSize ls rs)
  have hcount : (nestedLoop ls rs).length = ls.length * rs.length := by
    rw [nestedLoop, List.length_flatMap]
    simp [Nat.mul_comm]
  rw [List.length_map]
  omega

end Join

/-! ### Records in memory -/

/-- The executor that goes through a list of records. -/
def AbstractExecutor.ofRows (rows : List (List UInt8)) (cols : List ExecCol) (tupleLen : Nat) :
    AbstractExecutor (List (List UInt8)) where
  start _ := .ok rows
  next st := .ok st.tail
  isEnd st := .ok st.isEmpty
  item
    | [] => .error .nullPointer
    | row :: _ => .ok row
  cols := cols
  tupleLen := tupleLen
  getColOffset := findOffset cols

/-- Given rows can be gone through again. -/
theorem ofRows_restarts (rows : List (List UInt8)) (cols : List ExecCol) (tupleLen : Nat) :
    (ofRows rows cols tupleLen).Restarts rows := by
  have hyields : ∀ st : List (List UInt8), (ofRows rows cols tupleLen).Yields st st := by
    intro st
    induction st with
    | nil => exact .done rfl
    | cons row st ih => exact .item rfl rfl rfl ih
  exact fun st => ⟨rows, rfl, hyields rows⟩

/-- Two tables with one INT column each, joined on it. -/
theorem blockNestedLoopJoin_two_tables :
    let left := ofRows [[1, 0, 0, 0], [2, 0, 0, 0]]
      [⟨"t", { name := "a", type := .int, len := 4, offset := 0 }⟩] 4
    let right := ofRows [[2, 0, 0, 0]]
      [⟨"u", { name := "b", type := .int, len := 4, offset := 0 }⟩] 4
    let conds : List Condition := [⟨⟨"t", "a"⟩, .eq, false, ⟨"u", "b"⟩, ⟨.int, 0, [], []⟩⟩]
    ∃ pairs : List (List UInt8 × List UInt8),
      pairs.Perm ((nestedLoop [[1, 0, 0, 0], [2, 0, 0, 0]] [[2, 0, 0, 0]]).filter
        (pairMatches left right conds)) ∧
      ∃ most, ∀ fuel, most ≤ fuel → ∀ st,
        (blockNestedLoopJoin left right conds fuel).run .outOfFuel fuel st =
          .ok (pairs.map (pairRow left right)) := by
  intro left right conds
  refine blockNestedLoopJoin_rows (ofRows_restarts _ _ _) (List.cons_ne_nil _ _)
    (ofRows_restarts _ _ _) (List.cons_ne_nil _ _) fun c hc => ?_
  cases List.mem_singleton.mp hc
  exact ⟨_, rfl, rfl, _, rfl, rfl, rfl⟩

end Rmdb
