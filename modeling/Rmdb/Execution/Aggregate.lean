import Mathlib.Data.List.MinMax
import Mathlib.Order.Bounds.Basic
import Rmdb.Execution.KeyRange

namespace Rmdb

/-!
# Aggregates (`QlManager::select_from`, `executor_projection.h`)

COUNT, MAX, MIN and SUM each run once through the rows of a projection on one column.  MAX and MIN
keep the first best record next to its value and print from the start of the record; SUM adds in the
width of the column.

* `Aggregate.selectFrom` — the four branches;
* `Reports` — what they are asked for, over the values of the column;
* `reports_count`, `reports_max`, `reports_min`, `reports_sum` — what each branch does;
* `selectFrom_reports_iff` — all four are right if the sum fits the column.

A signed overflow wraps.
-/

/-- A column of the answer, before `std::to_string`. -/
inductive Cell where
  | int (v : Int)
  | float (bits : Nat)
  | text (s : List UInt8)
  deriving DecidableEq, Repr

/-- `enum SvAggregateType`. -/
inductive AggregateFn where
  | count
  | max
  | min
  | sum
  deriving DecidableEq, Repr

/-- The column of a projection on one column. -/
def Projection.col (sel : ColMeta) : ColMeta := { sel with offset := 0 }

/-- `ProjectionExecutor::Next` for one column. -/
def Projection.next (sel : ColMeta) (rec : List UInt8) : List UInt8 := slice rec sel.offset sel.len

namespace Aggregate

/-- `SELECT_WITH_COUNT`: the counter is a `size_t`. -/
def count (rows : List (List UInt8)) : Nat := rows.foldl (fun num _ => (num + 1) % 2 ^ 64) 0

/-- One turn of the loop of MAX and MIN: the record kept and its value. -/
def extremeStep (op : CompOp) (col : ColMeta) (best : Option (List UInt8 × Value))
    (tempTuple : List UInt8) : Except ExecError (Option (List UInt8 × Value)) := do
  let tempVal ← Value.loadRaw col.type col.len (tempTuple.drop col.offset)
  match best with
  | none => return some (tempTuple, tempVal)
  | some (_, val) => return if ← binop op val tempVal then some (tempTuple, tempVal) else best

/-- The switch that prints: it reads at the start of the record. -/
def printTuple (col : ColMeta) (tuple : List UInt8) : Except ExecError Cell :=
  match col.type with
  | .int => .ok (.int (signed 32 (ofLeBytes (tuple.take 4))))
  | .bigint => .ok (.int (signed 64 (ofLeBytes (tuple.take 8))))
  | .float => .ok (.float (ofLeBytes (tuple.take 4)))
  | .string => .ok (.text (tuple.take col.len))
  | .datetime => .error (.internalError "Unsupported type.")

/-- `SELECT_WITH_MAX` and `SELECT_WITH_MIN`. -/
def extreme (op : CompOp) (col : ColMeta) (rows : List (List UInt8)) :
    Except ExecError (List Cell) := do
  match ← rows.foldlM (extremeStep op col) none with
  | none => return []
  | some (tuple, _) => return [← printTuple col tuple]

/-- One turn of the loop of SUM. -/
def sumStep (floatAdd : Nat → Nat → Nat) (col : ColMeta) (sum : Nat) (tuple : List UInt8) :
    Except ExecError Nat := do
  let val ← Value.loadRaw col.type col.len tuple
  match col.type with
  | .int => return (sum + val.bits) % 2 ^ 32
  | .bigint => return (sum + val.bits) % 2 ^ 64
  | .float => return floatAdd sum val.bits
  | _ => return sum

/-- The total that SUM prints; nothing for a text. -/
def printSum (col : ColMeta) (sum : Nat) : List Cell :=
  match col.type with
  | .int => [.int (signed 32 sum)]
  | .bigint => [.int (signed 64 sum)]
  | .float => [.float sum]
  | _ => []

/-- `QlManager::select_from` on an aggregate: the cells printed for the rows of the projection. -/
def selectFrom (floatAdd : Nat → Nat → Nat) (fn : AggregateFn) (col : ColMeta)
    (rows : List (List UInt8)) : Except ExecError (List Cell) :=
  match fn with
  | .count => .ok [.int (count rows)]
  | .max => extreme .lt col rows
  | .min => extreme .gt col rows
  | .sum => do return printSum col (← rows.foldlM (sumStep floatAdd col) 0)

end Aggregate

/-! ### What the aggregates are for -/

/-- An INT or BIGINT column, as the grammar declares it. -/
def ColMeta.IsInteger (col : ColMeta) : Prop :=
  (col.type = .int ∧ col.len = 4) ∨ (col.type = .bigint ∧ col.len = 8)

/-- The integer at the start of these bytes. -/
def ColMeta.intAt (col : ColMeta) (data : List UInt8) : Int :=
  signed (8 * col.len) (ofLeBytes (data.take col.len))

/-- The value of an integer column in a record. -/
def ColMeta.valueIn (col : ColMeta) (rec : List UInt8) : Int := col.intAt (rec.drop col.offset)

/-- The integers of the column's width. -/
def ColMeta.InRange (col : ColMeta) (v : Int) : Prop :=
  -2 ^ (8 * col.len - 1) ≤ v ∧ v < 2 ^ (8 * col.len - 1)

/-- **What an aggregate says of the values of the column.** -/
def Reports (vs : List Int) (out : Except ExecError (List Cell)) : AggregateFn → Prop
  | .count => out = .ok [.int vs.length]
  | .max => (vs = [] ∧ out = .ok []) ∨ ∃ m, IsGreatest {v | v ∈ vs} m ∧ out = .ok [.int m]
  | .min => (vs = [] ∧ out = .ok []) ∨ ∃ m, IsLeast {v | v ∈ vs} m ∧ out = .ok [.int m]
  | .sum => out = .ok [.int vs.sum]

namespace Aggregate

variable {col : ColMeta} {rows : List (List UInt8)}

/-! ### Counting -/

/-- The counter goes up by one for each row, modulo `2^64`. -/
theorem foldl_count (rows : List (List UInt8)) (num : Nat) :
    rows.foldl (fun num _ => (num + 1) % 2 ^ 64) (num % 2 ^ 64) = (num + rows.length) % 2 ^ 64 := by
  induction rows generalizing num with
  | nil => rfl
  | cons row rows ih =>
    rw [List.foldl_cons, Nat.mod_add_mod, ih (num + 1), List.length_cons]
    congr 1
    omega

/-- `COUNT` is the number of rows. -/
theorem count_eq : count rows = rows.length % 2 ^ 64 := by
  have h := foldl_count rows 0
  rwa [Nat.zero_mod, Nat.zero_add] at h

/-! ### Loading -/

/-- The value `load_raw` makes of a field of an integer column. -/
def loaded (col : ColMeta) (data : List UInt8) : Value :=
  { type := col.type, bits := ofLeBytes (data.take col.len), datetimeVal := [], strVal := [] }

/-- An integer column is read. -/
theorem loadRaw_integer (hcol : col.IsInteger) (data : List UInt8) :
    Value.loadRaw col.type col.len data = .ok (loaded col data) := by
  rcases hcol with ⟨htype, hlen⟩ | ⟨htype, hlen⟩
  · simp [Value.loadRaw, loaded, htype, hlen]
  · simp [Value.loadRaw, loaded, htype, hlen]

/-- Two integers are compared. -/
theorem binop_loaded (hcol : col.IsInteger) (op : CompOp) (a b : List UInt8) :
    binop op (loaded col a) (loaded col b) =
      .ok (op.holds (some (compare (col.intAt a) (col.intAt b)))) := by
  rcases hcol with ⟨htype, hlen⟩ | ⟨htype, hlen⟩
  · simp [binop, Value.compare, loaded, ColMeta.intAt, htype, hlen]
  · simp [binop, Value.compare, loaded, ColMeta.intAt, htype, hlen]

/-! ### The best record -/

/-- An integer is printed. -/
theorem printTuple_integer (hcol : col.IsInteger) (tuple : List UInt8) :
    printTuple col tuple = .ok (.int (col.intAt tuple)) := by
  rcases hcol with ⟨htype, hlen⟩ | ⟨htype, hlen⟩
  · simp [printTuple, ColMeta.intAt, htype, hlen]
  · simp [printTuple, ColMeta.intAt, htype, hlen]

/-- The loop keeps the first record that no other one beats. -/
theorem foldlM_extremeStep (hcol : col.IsInteger) (hoff : col.offset = 0) {op : CompOp}
    (beats : Int → Int → Prop) [DecidableRel beats]
    (hop : ∀ a b : Int, op.holds (some (compare a b)) = decide (beats b a))
    (best : Option (List UInt8)) (rows : List (List UInt8)) :
    rows.foldlM (extremeStep op col) (best.map fun t => (t, loaded col t)) =
      .ok ((rows.foldl (List.argAux fun b c => beats (col.intAt b) (col.intAt c)) best).map
        fun t => (t, loaded col t)) := by
  induction rows generalizing best with
  | nil => rfl
  | cons row rows ih =>
    have hstep : extremeStep op col (best.map fun t => (t, loaded col t)) row =
        .ok ((List.argAux (fun b c => beats (col.intAt b) (col.intAt c)) best row).map
          fun t => (t, loaded col t)) := by
      unfold extremeStep
      rw [hoff, List.drop_zero, loadRaw_integer hcol]
      cases best with
      | none => rfl
      | some t =>
        show (do return if ← binop op (loaded col t) (loaded col row) then _ else _) = _
        rw [binop_loaded hcol, hop]
        by_cases hb : beats (col.intAt row) (col.intAt t)
        · simp [List.argAux, hb, pure, Except.pure]; rfl
        · simp [List.argAux, hb, pure, Except.pure]; rfl
    rw [List.foldlM_cons, hstep, List.foldl_cons]
    exact ih _

/-- The row that no other beats. -/
theorem extreme_eq (hcol : col.IsInteger) (hoff : col.offset = 0) {op : CompOp}
    (beats : Int → Int → Prop) [DecidableRel beats]
    (hop : ∀ a b : Int, op.holds (some (compare a b)) = decide (beats b a)) :
    extreme op col rows =
      .ok ((rows.foldl (List.argAux fun b c => beats (col.intAt b) (col.intAt c)) none).toList.map
        fun t => .int (col.intAt t)) := by
  have hfold := foldlM_extremeStep hcol hoff beats hop none rows
  unfold extreme
  rw [Option.map_none] at hfold
  rw [hfold]
  cases rows.foldl (List.argAux fun b c => beats (col.intAt b) (col.intAt c)) none with
  | none => rfl
  | some t =>
    show (do return [← printTuple col t]) = _
    rw [printTuple_integer hcol]
    rfl

/-- `<` on integers. -/
theorem holds_lt (a b : Int) : CompOp.lt.holds (some (compare a b)) = decide (a < b) := by
  simp [CompOp.holds, compare_lt_iff_lt]

/-- `>` on integers. -/
theorem holds_gt (a b : Int) : CompOp.gt.holds (some (compare a b)) = decide (b < a) := by
  simp [CompOp.holds, compare_gt_iff_gt]

/-! ### The total -/

/-- A row is added, modulo the width of the column. -/
theorem sumStep_integer (hcol : col.IsInteger) (floatAdd : Nat → Nat → Nat) (sum : Nat)
    (tuple : List UInt8) :
    sumStep floatAdd col sum tuple =
      .ok ((sum + ofLeBytes (tuple.take col.len)) % 2 ^ (8 * col.len)) := by
  unfold sumStep
  rw [loadRaw_integer hcol]
  rcases hcol with ⟨htype, hlen⟩ | ⟨htype, hlen⟩
  · rw [htype]
    show Except.ok ((sum + ofLeBytes (tuple.take col.len)) % 2 ^ 32) = _
    rw [hlen]
  · rw [htype]
    show Except.ok ((sum + ofLeBytes (tuple.take col.len)) % 2 ^ 64) = _
    rw [hlen]

/-- The sum is printed as a number of that width. -/
theorem printSum_integer (hcol : col.IsInteger) (sum : Nat) :
    printSum col sum = [.int (signed (8 * col.len) sum)] := by
  rcases hcol with ⟨htype, hlen⟩ | ⟨htype, hlen⟩
  · simp [printSum, htype, hlen]
  · simp [printSum, htype, hlen]

/-- The loop adds the values in the width of the column. -/
theorem foldlM_sumStep (hcol : col.IsInteger) (floatAdd : Nat → Nat → Nat) (sum : Nat)
    (rows : List (List UInt8)) :
    ∃ total, rows.foldlM (sumStep floatAdd col) sum = .ok total ∧
      signed (8 * col.len) total =
        Int.bmod (sum + (rows.map col.intAt).sum) (2 ^ (8 * col.len)) := by
  have hw : 0 < 8 * col.len := by
    rcases hcol with ⟨-, hlen⟩ | ⟨-, hlen⟩ <;> omega
  induction rows generalizing sum with
  | nil =>
    refine ⟨sum, rfl, ?_⟩
    rw [signed_eq_bmod hw, List.map_nil, List.sum_nil, Int.add_zero]
  | cons row rows ih =>
    obtain ⟨total, hfold, htotal⟩ :=
      ih ((sum + ofLeBytes (row.take col.len)) % 2 ^ (8 * col.len))
    refine ⟨total, ?_, ?_⟩
    · rw [List.foldlM_cons, sumStep_integer hcol]
      exact hfold
    · set n := 2 ^ (8 * col.len)
      set bits := ofLeBytes (row.take col.len) with hbits
      have hint : col.intAt row = Int.bmod bits n := by
        rw [ColMeta.intAt, signed_eq_bmod hw]
      rw [htotal, List.map_cons, List.sum_cons, hint, Int.natCast_emod, Int.emod_add_bmod,
        Int.natCast_add]
      calc Int.bmod (sum + bits + (rows.map col.intAt).sum) n
          = Int.bmod (bits + (sum + (rows.map col.intAt).sum)) n := by
            congr 1; omega
        _ = Int.bmod (Int.bmod bits n + (sum + (rows.map col.intAt).sum)) n :=
            Int.bmod_add_bmod.symm
        _ = Int.bmod (sum + (Int.bmod bits n + (rows.map col.intAt).sum)) n := by
            congr 1; omega

/-! ### The four aggregates -/

variable {sel : ColMeta}

/-- A projection keeps an integer column. -/
theorem IsInteger.projection (hsel : sel.IsInteger) : (Projection.col sel).IsInteger := hsel

/-- The rows of the projection hold the values of the column. -/
theorem map_intAt_next (sel : ColMeta) (rows : List (List UInt8)) :
    (rows.map (Projection.next sel)).map (Projection.col sel).intAt = rows.map sel.valueIn := by
  rw [List.map_map]
  refine List.map_congr_left fun rec _ => ?_
  show signed (8 * sel.len) (ofLeBytes (((rec.drop sel.offset).take sel.len).take sel.len)) = _
  rw [List.take_take, Nat.min_self]
  rfl

/-- COUNT is the number of rows, in a `size_t`. -/
theorem reports_count (floatAdd : Nat → Nat → Nat) (col : ColMeta) (vs : List Int)
    (rows : List (List UInt8)) :
    Reports vs (selectFrom floatAdd .count col rows) .count ↔
      rows.length % 2 ^ 64 = vs.length := by
  show Except.ok [Cell.int (count rows)] = Except.ok [Cell.int vs.length] ↔ _
  rw [count_eq]
  constructor
  · intro h
    injection h with h
    injection h with h
    injection h with h
    exact_mod_cast h
  · intro h
    rw [h]

/-- A branch that prints the best of the rows, and nothing if there are none. -/
theorem reports_best (best : Option (List UInt8)) {out : Except ExecError (List Cell)}
    {atMost : Int → Int → Prop} (hnone : best = none → rows = [])
    (hbest : ∀ t ∈ best, t ∈ rows ∧ ∀ row ∈ rows, atMost (col.intAt row) (col.intAt t))
    (hout : out = .ok (best.toList.map fun t => .int (col.intAt t))) :
    (rows.map col.intAt = [] ∧ out = .ok []) ∨
      ∃ v, (v ∈ rows.map col.intAt ∧ ∀ w ∈ rows.map col.intAt, atMost w v) ∧
        out = .ok [.int v] := by
  cases best with
  | none =>
    rw [hnone rfl]
    exact .inl ⟨rfl, hout⟩
  | some t =>
    obtain ⟨hmem, hmost⟩ := hbest t rfl
    refine .inr ⟨col.intAt t, ⟨List.mem_map_of_mem hmem, ?_⟩, hout⟩
    rintro w hw
    obtain ⟨row, hrow, rfl⟩ := List.mem_map.mp hw
    exact hmost row hrow

/-- MAX is right on any rows. -/
theorem reports_max (hcol : col.IsInteger) (hoff : col.offset = 0) (floatAdd : Nat → Nat → Nat)
    (rows : List (List UInt8)) :
    Reports (rows.map col.intAt) (selectFrom floatAdd .max col rows) .max := by
  refine reports_best (rows.argmax col.intAt) List.argmax_eq_none.mp ?_
    (extreme_eq hcol hoff (fun a b => b < a) holds_lt)
  intro t ht
  exact ⟨List.argmax_mem ht, fun row hrow => List.le_of_mem_argmax hrow ht⟩

/-- MIN is right on any rows. -/
theorem reports_min (hcol : col.IsInteger) (hoff : col.offset = 0) (floatAdd : Nat → Nat → Nat)
    (rows : List (List UInt8)) :
    Reports (rows.map col.intAt) (selectFrom floatAdd .min col rows) .min := by
  refine reports_best (rows.argmin col.intAt) List.argmin_eq_none.mp ?_
    (extreme_eq hcol hoff (fun a b => a < b) holds_gt)
  intro t ht
  exact ⟨List.argmin_mem ht, fun row hrow => List.le_of_mem_argmin hrow ht⟩

/-- SUM is right if the total fits the column. -/
theorem reports_sum (hcol : col.IsInteger) (floatAdd : Nat → Nat → Nat)
    (rows : List (List UInt8)) :
    Reports (rows.map col.intAt) (selectFrom floatAdd .sum col rows) .sum ↔
      col.InRange (rows.map col.intAt).sum := by
  obtain ⟨total, hfold, htotal⟩ := foldlM_sumStep hcol floatAdd 0 rows
  have hout : selectFrom floatAdd .sum col rows =
      .ok [.int (Int.bmod (rows.map col.intAt).sum (2 ^ (8 * col.len)))] := by
    show (do return printSum col (← rows.foldlM (sumStep floatAdd col) 0)) = _
    rw [hfold, ← Int.zero_add (rows.map col.intAt).sum]
    show Except.ok (printSum col total) = _
    rw [printSum_integer hcol, htotal]
    rfl
  show selectFrom floatAdd .sum col rows = .ok [.int (rows.map col.intAt).sum] ↔ _
  rw [hout]
  simp only [Except.ok.injEq, List.cons.injEq, and_true, Cell.int.injEq]
  rw [Int.bmod_eq_iff (Nat.two_pow_pos _)]
  rcases hcol with ⟨-, hlen⟩ | ⟨-, hlen⟩
  · rw [ColMeta.InRange, hlen]
    omega
  · rw [ColMeta.InRange, hlen]
    omega

/-- **The four aggregates are right** if and only if the sum of the column fits it and the number of
rows a `size_t`. -/
theorem selectFrom_reports_iff (hsel : sel.IsInteger) (floatAdd : Nat → Nat → Nat)
    (recs : List (List UInt8)) :
    (∀ fn, Reports (recs.map sel.valueIn)
        (selectFrom floatAdd fn (Projection.col sel) (recs.map (Projection.next sel))) fn) ↔
      recs.length < 2 ^ 64 ∧ sel.InRange (recs.map sel.valueIn).sum := by
  have hcol := IsInteger.projection hsel
  set rows := recs.map (Projection.next sel) with hrows
  have hvals : rows.map (Projection.col sel).intAt = recs.map sel.valueIn := map_intAt_next sel recs
  have hcount := reports_count floatAdd (Projection.col sel) (recs.map sel.valueIn) rows
  have hsum := reports_sum hcol floatAdd rows
  rw [hrows, List.length_map, List.length_map] at hcount
  rw [hvals] at hsum
  constructor
  · intro h
    have hlen := hcount.mp (h .count)
    exact ⟨by omega, hsum.mp (h .sum)⟩
  · rintro ⟨hlen, hrange⟩ fn
    cases fn with
    | count => exact hcount.mpr (Nat.mod_eq_of_lt hlen)
    | max => exact hvals ▸ reports_max hcol rfl floatAdd rows
    | min => exact hvals ▸ reports_min hcol rfl floatAdd rows
    | sum => exact hsum.mpr hrange

/-- A table of one INT column with the rows 7 and -2. -/
theorem selectFrom_reports_two_rows :
    let sel : ColMeta := { name := "a", type := .int, len := 4, offset := 0 }
    let recs : List (List UInt8) := [[7, 0, 0, 0], [254, 255, 255, 255]]
    ∀ fn, Reports (recs.map sel.valueIn)
      (selectFrom (fun a _ => a) fn (Projection.col sel) (recs.map (Projection.next sel))) fn :=
  (selectFrom_reports_iff (.inl ⟨rfl, rfl⟩) (fun a _ => a) [[7, 0, 0, 0], [254, 255, 255, 255]]).mpr
    ⟨by decide, by decide, by decide⟩

/-- The greatest `int` and 1: the sum is printed as -2147483648. -/
theorem sum_overflows :
    let sel : ColMeta := { name := "a", type := .int, len := 4, offset := 0 }
    let recs : List (List UInt8) := [[255, 255, 255, 127], [1, 0, 0, 0]]
    ¬ Reports (recs.map sel.valueIn)
      (selectFrom (fun a _ => a) .sum (Projection.col sel) (recs.map (Projection.next sel))) .sum := by
  intro sel recs h
  have hout : selectFrom (fun a _ => a) .sum (Projection.col sel) (recs.map (Projection.next sel)) =
      .ok [.int (-2147483648)] := rfl
  have hsum : (recs.map sel.valueIn).sum = 2147483648 := by decide
  unfold Reports at h
  rw [hout, hsum] at h
  injection h with h
  revert h
  decide

end Aggregate

end Rmdb
