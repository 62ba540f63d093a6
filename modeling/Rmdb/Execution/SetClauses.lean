import Mathlib.Data.List.Lex
import Mathlib.Order.Fin.Basic
import Rmdb.Execution.Aggregate

namespace Rmdb

open Lib

/-!
# SET clauses (`yacc.y`, `lex.l`, `Analyze::do_analyze`, `executor_update.h`)

A sum is written `c = d+k` or `c = d-k`.  The grammar has no operators: the sign is part of the literal
if it stands directly before the digits, and what follows `=` is a column name and a literal.  The
grammar keeps `c` and the literal, and the executor adds the literal to the old value of `c`.

* `SumOp.lexeme` — the literal that the lexer finds in a sum;
* `lexValueInt` — whether an integer literal becomes an `int` or an `int64_t`;
* `SetExpr.parse`, `Analyze.setClause`, `updateFields` — from the clauses to the new record;
* `Updates` — what the statement is for: every right side on the old record, the other columns as they
  were;
* `applySet_fields` — what is stored in each column;
* `updateFields_accepted` — when the statement runs.
-/

/-! ### Literals -/

/-- The sign of a `value_int`. -/
inductive LitSign where
  | none
  | plus
  | minus
  deriving DecidableEq, Repr

/-- The text of a `value_int`. -/
structure IntText where
  sign : LitSign
  digits : List (Fin 10)
  deriving DecidableEq, Repr

/-- The number that is written. -/
def IntText.num (k : IntText) : Int :=
  let n := k.digits.foldl (fun n (d : Fin 10) => 10 * n + d.val) 0
  if k.sign = .minus then -(n : Int) else n

/-- `int_max` and `int_min` of the lexer. -/
def intBound (sign : LitSign) : List (Fin 10) :=
  [2, 1, 4, 7, 4, 8, 3, 6, 4, if sign = .minus then 8 else 7]

/-- The literal is taken for an `int`.  The size of the bound counts its terminating zero. -/
def IntText.isInt (k : IntText) : Bool :=
  let size := (intBound k.sign).length + 1
  if k.digits.length < size then true
  else if size < k.digits.length then false
  else k.digits ≤ intBound k.sign

/-- The action of `value_int`: `atoi` keeps the low 32 bits, and the other half of the union is not set;
    `stoll` throws outside 64 bits. -/
def lexValueInt (otherHalf : IntText → Nat) (k : IntText) : Option Value :=
  if k.isInt then
    some { type := .int, bits := (k.num % 2 ^ 32).toNat + 2 ^ 32 * otherHalf k,
           datetimeVal := [], strVal := [] }
  else if -2 ^ 63 ≤ k.num ∧ k.num < 2 ^ 63 then
    some { type := .bigint, bits := (k.num % 2 ^ 64).toNat, datetimeVal := [], strVal := [] }
  else none

/-! ### Sums -/

/-- The operator of a sum. -/
inductive SumOp where
  | plus
  | minus
  deriving DecidableEq, Repr

/-- The `value_int` that the lexer returns for the operator of a sum, white space (if `gap`), and an
    integer literal; `none` where the clause is a syntax error.  A `+` on its own is a token that no
    production of `setClause` has, `--` starts a comment, and a `-` on its own is the unexpected
    character that `lex.l` reports and drops. -/
def SumOp.lexeme (op : SumOp) (gap : Bool) (k : IntText) : Option IntText :=
  match op, gap, k.sign with
  | .plus, false, .none => some { k with sign := .plus }
  | .plus, _, _ => none
  | .minus, false, .none => some { k with sign := .minus }
  | .minus, false, .minus => none
  | .minus, _, _ => some k

/-- The number that a sum adds, as it is written. -/
def SumOp.amount (op : SumOp) (k : IntText) : Int :=
  match op with
  | .plus => k.num
  | .minus => -k.num

/-! ### The statement -/

/-- `setClause` of the grammar, as it is written: `c = v`, or `c = d op k` with or without white space
    before `k`. -/
inductive SetExpr where
  | value (colName : String) (v : Value)
  | sum (colName other : String) (op : SumOp) (gap : Bool) (k : IntText)
  deriving DecidableEq, Repr

/-- The column that is set. -/
def SetExpr.lhs : SetExpr → String
  | .value colName _ => colName
  | .sum colName _ _ _ _ => colName

/-- The actions of `setClause`: the second column name of a sum is dropped. -/
def SetExpr.parse (otherHalf : IntText → Nat) : SetExpr → Option SetClause
  | .value colName v => some { lhs := colName, rhs := v, isSelfadd := false }
  | .sum colName _ op gap k =>
    ((op.lexeme gap k).bind (lexValueInt otherHalf)).map fun v =>
      { lhs := colName, rhs := v, isSelfadd := true }

/-- `do_analyze` of a set clause. -/
def Analyze.setClause (cols : List ColMeta) (x : SetClause) : Except ExecError Unit := do
  let col ← getCol cols x.lhs
  if !isCompatibleType col.type x.rhs.type then
    throw (.incompatibleTypeError col.type x.rhs.type)
  let _ ← x.rhs.initRaw col.len
  return ()

/-- The new record of an update; `none` where the lexer or the parser gives up. -/
def updateFields (floatAdd : Nat → Nat → Nat) (otherHalf : IntText → Nat) (cols : List ColMeta)
    (sets : List SetExpr) (old : List UInt8) : Option (Except ExecError (List UInt8)) := do
  let clauses ← sets.mapM (SetExpr.parse otherHalf)
  return do
    clauses.forM (Analyze.setClause cols)
    applySet floatAdd cols clauses old

/-! ### What an update is for -/

/-- The columns of a table lie in the record next to each other. -/
structure Layout (cols : List ColMeta) (recordSize : Nat) : Prop where
  apart : ∀ a ∈ cols, ∀ b ∈ cols, a ≠ b → a.offset + a.len ≤ b.offset ∨ b.offset + b.len ≤ a.offset
  inside : ∀ a ∈ cols, a.offset + a.len ≤ recordSize

/-- The clause sets this column. -/
def SetExpr.sets (cols : List ColMeta) (col : ColMeta) (s : SetExpr) : Bool :=
  cols.find? (fun c => c.name = s.lhs) = some col

/-- The last clause that sets this column. -/
def lastSet (cols : List ColMeta) (sets : List SetExpr) (col : ColMeta) : Option SetExpr :=
  (sets.filter (SetExpr.sets cols col)).getLast?

/-- The field is what the right side says on the old record. -/
def SetExpr.Gives (cols : List ColMeta) (old : List UInt8) (col : ColMeta) (field : List UInt8) :
    SetExpr → Prop
  | .value _ v => v.initRaw col.len = .ok field
  | .sum _ other op _ k => ∃ d, getCol cols other = .ok d ∧ d.IsInteger ∧
      col.intAt field = Int.bmod (d.valueIn old + op.amount k) (2 ^ (8 * col.len))

/-- **What an update is for.** -/
structure Updates (cols : List ColMeta) (sets : List SetExpr) (old new : List UInt8) : Prop where
  length : new.length = old.length
  keeps : ∀ col ∈ cols, lastSet cols sets col = none →
    slice new col.offset col.len = slice old col.offset col.len
  gives : ∀ col ∈ cols, ∀ s, lastSet cols sets col = some s →
    s.Gives cols old col (slice new col.offset col.len)

/-! ### Fields of a record -/

/-- The record keeps its length. -/
theorem length_splice {rec bytes : List UInt8} {offset : Nat}
    (h : offset + bytes.length ≤ rec.length) : (splice rec offset bytes).length = rec.length := by
  unfold splice
  simp only [List.length_append, List.length_take, List.length_drop]
  omega

/-- The field that was written. -/
theorem slice_splice_self {rec bytes : List UInt8} {offset : Nat}
    (h : offset + bytes.length ≤ rec.length) :
    slice (splice rec offset bytes) offset bytes.length = bytes := by
  have htake : (rec.take offset).length = offset := by
    rw [List.length_take]
    omega
  unfold slice splice
  rw [List.append_assoc, List.drop_left' htake, List.take_left' rfl]

/-- A field apart from the one that was written. -/
theorem slice_splice_apart {rec bytes : List UInt8} {offset o len : Nat}
    (h : offset + bytes.length ≤ rec.length)
    (hapart : o + len ≤ offset ∨ offset + bytes.length ≤ o) :
    slice (splice rec offset bytes) o len = slice rec o len := by
  have htake : (rec.take offset).length = offset := by
    rw [List.length_take]
    omega
  refine List.ext_getElem? fun i => ?_
  unfold slice splice
  rw [List.getElem?_take, List.getElem?_take, List.getElem?_drop, List.getElem?_drop]
  by_cases hi : i < len
  · rw [if_pos hi, if_pos hi]
    rcases hapart with hbefore | hafter
    · rw [List.append_assoc, List.getElem?_append_left (by omega), List.getElem?_take,
        if_pos (by omega)]
    · rw [List.getElem?_append_right (by rw [List.length_append, htake]; omega), List.length_append,
        htake, List.getElem?_drop]
      congr 1
      omega
  · rw [if_neg hi, if_neg hi]

/-! ### The lists of clauses -/

variable {cols : List ColMeta} {col : ColMeta} {sets : List SetExpr} {old : List UInt8}
  {floatAdd : Nat → Nat → Nat} {otherHalf : IntText → Nat}

/-- The assignment is to this column. -/
theorem SetExpr.sets_iff {s : SetExpr} : s.sets cols col = true ↔ getCol cols s.lhs = .ok col := by
  unfold SetExpr.sets getCol
  cases cols.find? (fun c => c.name = s.lhs) with
  | none => simp
  | some c => simp

/-- A column that is found is one of the table's. -/
theorem getCol_mem {name : String} (h : getCol cols name = .ok col) : col ∈ cols := by
  unfold getCol at h
  cases hfind : cols.find? (fun c => c.name = name) with
  | none =>
    rw [hfind] at h
    cases h
  | some c =>
    rw [hfind] at h
    cases h
    exact List.mem_of_find?_eq_some hfind

/-- A later assignment to the column goes before the first. -/
theorem lastSet_cons (s : SetExpr) (sets : List SetExpr) :
    lastSet cols (s :: sets) col =
      (lastSet cols sets col).or (if s.sets cols col = true then some s else none) := by
  unfold lastSet
  rw [List.filter_cons]
  by_cases hs : s.sets cols col = true
  · rw [if_pos hs, if_pos hs, List.getLast?_cons]
    cases (sets.filter (SetExpr.sets cols col)).getLast? <;> rfl
  · rw [if_neg hs, if_neg hs, Option.or_none]

/-- The last assignment is one of the list, and to this column. -/
theorem mem_of_lastSet {s : SetExpr} (h : lastSet cols sets col = some s) :
    s ∈ sets ∧ getCol cols s.lhs = .ok col := by
  obtain ⟨hmem, hsets⟩ := List.mem_filter.mp (List.mem_of_getLast? h)
  exact ⟨hmem, SetExpr.sets_iff.mp hsets⟩

/-- The parser keeps the column's name. -/
theorem SetExpr.parse_lhs {s : SetExpr} {x : SetClause}
    (h : s.parse otherHalf = some x) : x.lhs = s.lhs := by
  cases s with
  | value colName v =>
    cases h
    rfl
  | sum colName other op gap k =>
    obtain ⟨v, -, rfl⟩ := Option.map_eq_some_iff.mp h
    rfl

/-! ### What is stored -/

/-- The bytes that a clause writes. -/
def SetClause.stored (floatAdd : Nat → Nat → Nat) (col : ColMeta) (old : List UInt8)
    (x : SetClause) : Except ExecError (List UInt8) :=
  (if x.isSelfadd then x.rhs.selfAdd floatAdd col (slice old col.offset col.len)
    else .ok x.rhs).bind fun val => val.initRaw col.len

/-- An assignment writes its bytes at the column's offset. -/
theorem SetClause.apply_eq {x : SetClause}
    (hcol : getCol cols x.lhs = .ok col) (hcompat : isCompatibleType col.type x.rhs.type = true)
    (rec : List UInt8) :
    x.apply floatAdd cols old rec = (x.stored floatAdd col old).map (splice rec col.offset) := by
  unfold SetClause.apply SetClause.stored
  rw [hcol]
  simp only [hcompat, bind, Except.bind, pure, Except.pure, Bool.not_true, Bool.false_eq_true,
    if_false]
  split
  · cases x.rhs.selfAdd floatAdd col (slice old col.offset col.len) with
    | error e => rfl
    | ok val => cases val.initRaw col.len <;> rfl
  · show _ = (x.rhs.initRaw col.len).map _
    cases x.rhs.initRaw col.len <;> rfl

/-- What an assignment that succeeds has written. -/
theorem SetClause.apply_ok {rec new : List UInt8} {x : SetClause}
    (h : x.apply floatAdd cols old rec = .ok new) :
    ∃ col raw, getCol cols x.lhs = .ok col ∧ x.stored floatAdd col old = .ok raw ∧
      new = splice rec col.offset raw := by
  cases hcol : getCol cols x.lhs with
  | error e =>
    unfold SetClause.apply at h
    rw [hcol] at h
    cases h
  | ok col =>
    by_cases hcompat : isCompatibleType col.type x.rhs.type = true
    · rw [SetClause.apply_eq hcol hcompat] at h
      cases hraw : x.stored floatAdd col old with
      | error e =>
        rw [hraw] at h
        cases h
      | ok raw =>
        rw [hraw] at h
        cases h
        exact ⟨col, raw, rfl, hraw, rfl⟩
    · unfold SetClause.apply at h
      rw [hcol] at h
      simp only [bind, Except.bind, Bool.not_eq_true] at h hcompat
      rw [hcompat] at h
      cases h

/-- It writes as many bytes as the column has. -/
theorem SetClause.length_stored {x : SetClause} {raw : List UInt8}
    (h : x.stored floatAdd col old = .ok raw) : raw.length = col.len := by
  obtain ⟨val, -, hval⟩ := bind_eq_ok.mp h
  exact Value.length_initRaw hval

/-- **What is stored in each column:** the last clause for it decides, and reads the old record only. -/
theorem applySet_fields {clauses : List SetClause} {rec new : List UInt8}
    (hlayout : Layout cols rec.length) (hparse : sets.mapM (SetExpr.parse otherHalf) = some clauses)
    (h : clauses.foldlM (SetClause.apply floatAdd cols old) rec = .ok new) :
    new.length = rec.length ∧ ∀ col ∈ cols,
      (lastSet cols sets col = none →
        slice new col.offset col.len = slice rec col.offset col.len) ∧
      ∀ s, lastSet cols sets col = some s → ∃ x, s.parse otherHalf = some x ∧
        x.stored floatAdd col old = .ok (slice new col.offset col.len) := by
  induction sets generalizing clauses rec with
  | nil =>
    cases hparse
    cases h
    exact ⟨rfl, fun col _ => ⟨fun _ => rfl, fun s hs => nomatch hs⟩⟩
  | cons s sets ih =>
    rw [List.mapM_cons] at hparse
    obtain ⟨x, hx, hparse⟩ := Option.bind_eq_some_iff.mp hparse
    obtain ⟨rest, hrest, hparse⟩ := Option.bind_eq_some_iff.mp hparse
    cases hparse
    rw [List.foldlM_cons] at h
    obtain ⟨mid, hmid, h⟩ := bind_eq_ok.mp h
    obtain ⟨c, raw, hc, hraw, rfl⟩ := SetClause.apply_ok hmid
    have hrawlen := SetClause.length_stored hraw
    have hfit : c.offset + raw.length ≤ rec.length := hrawlen ▸ hlayout.inside c (getCol_mem hc)
    have hlen := length_splice hfit
    obtain ⟨hnew, hfields⟩ := ih (hlen ▸ hlayout) hrest h
    refine ⟨hnew.trans hlen, fun col hcol => ?_⟩
    obtain ⟨hkeep, hgive⟩ := hfields col hcol
    rw [lastSet_cons]
    by_cases hs : s.sets cols col = true
    · -- this clause decides unless a later one does
      have heq : c = col := by
        have h1 := SetExpr.sets_iff.mp hs
        rw [← SetExpr.parse_lhs hx, hc] at h1
        exact Except.ok.inj h1
      subst heq
      rw [if_pos hs]
      cases hlast : lastSet cols sets c with
      | none =>
        refine ⟨fun h => (nomatch h), fun t ht => ?_⟩
        cases ht
        refine ⟨x, hx, ?_⟩
        rw [hkeep hlast, hraw, ← hrawlen, slice_splice_self hfit]
      | some t =>
        refine ⟨fun h => (nomatch h), fun t' ht => ?_⟩
        cases ht
        exact hgive t hlast
    · -- the clause is for another column
      have hne : col ≠ c := by
        rintro rfl
        exact hs (SetExpr.sets_iff.mpr (SetExpr.parse_lhs hx ▸ hc))
      rw [if_neg hs, Option.or_none]
      refine ⟨fun hnone => ?_, hgive⟩
      rw [hkeep hnone, slice_splice_apart hfit]
      rw [hrawlen]
      exact hlayout.apart col hcol c (getCol_mem hc) hne

/-! ### Runs of the statement -/

/-- An update succeeds when parsing, the checks and all assignments do. -/
theorem updateFields_eq_ok {new : List UInt8} :
    updateFields floatAdd otherHalf cols sets old = some (.ok new) ↔
      ∃ clauses, sets.mapM (SetExpr.parse otherHalf) = some clauses ∧
        clauses.forM (Analyze.setClause cols) = .ok () ∧
        clauses.foldlM (SetClause.apply floatAdd cols old) old = .ok new := by
  unfold updateFields
  cases sets.mapM (SetExpr.parse otherHalf) with
  | none => simp
  | some clauses =>
    show some ((clauses.forM (Analyze.setClause cols)).bind fun _ => applySet floatAdd cols clauses old) =
      some (.ok new) ↔ _
    rw [Option.some_inj, bind_eq_ok]
    constructor
    · rintro ⟨⟨⟩, hanalyze, happly⟩
      exact ⟨clauses, rfl, hanalyze, happly⟩
    · rintro ⟨_, hclauses, hanalyze, happly⟩
      cases hclauses
      exact ⟨(), hanalyze, happly⟩

/-- Every clause was stored, also one that a later clause overwrites. -/
theorem stored_of_applySet {clauses : List SetClause} {rec new : List UInt8}
    (hparse : sets.mapM (SetExpr.parse otherHalf) = some clauses)
    (h : clauses.foldlM (SetClause.apply floatAdd cols old) rec = .ok new) :
    ∀ s ∈ sets, ∃ x col raw, s.parse otherHalf = some x ∧ getCol cols s.lhs = .ok col ∧
      x.stored floatAdd col old = .ok raw := by
  induction sets generalizing clauses rec with
  | nil => exact fun s hs => nomatch hs
  | cons s sets ih =>
    rw [List.mapM_cons] at hparse
    obtain ⟨x, hx, hparse⟩ := Option.bind_eq_some_iff.mp hparse
    obtain ⟨rest, hrest, hparse⟩ := Option.bind_eq_some_iff.mp hparse
    cases hparse
    rw [List.foldlM_cons] at h
    obtain ⟨mid, hmid, h⟩ := bind_eq_ok.mp h
    obtain ⟨c, raw, hc, hraw, -⟩ := SetClause.apply_ok hmid
    intro t ht
    rcases List.mem_cons.mp ht with rfl | ht
    · exact ⟨x, c, raw, hx, SetExpr.parse_lhs hx ▸ hc, hraw⟩
    · exact ih hrest h t ht

/-- The clause passes the parser, `do_analyze` and the executor. -/
def SetExpr.Accepted (floatAdd : Nat → Nat → Nat) (otherHalf : IntText → Nat) (cols : List ColMeta)
    (old : List UInt8) (s : SetExpr) : Prop :=
  ∃ x col, s.parse otherHalf = some x ∧ getCol cols s.lhs = .ok col ∧
    isCompatibleType col.type x.rhs.type = true ∧ (∃ raw, x.rhs.initRaw col.len = .ok raw) ∧
    ∃ raw, x.stored floatAdd col old = .ok raw

/-- Accepted assignments succeed. -/
theorem updateFields_accepted (hsets : ∀ s ∈ sets, s.Accepted floatAdd otherHalf cols old)
    (rec : List UInt8) :
    ∃ clauses new, sets.mapM (SetExpr.parse otherHalf) = some clauses ∧
      clauses.forM (Analyze.setClause cols) = .ok () ∧
      clauses.foldlM (SetClause.apply floatAdd cols old) rec = .ok new := by
  induction sets generalizing rec with
  | nil => exact ⟨[], rec, rfl, rfl, rfl⟩
  | cons s sets ih =>
    obtain ⟨x, col, hx, hcol, hcompat, ⟨init, hinit⟩, raw, hraw⟩ := hsets s List.mem_cons_self
    rw [← SetExpr.parse_lhs hx] at hcol
    obtain ⟨clauses, new, hparse, hanalyze, happly⟩ :=
      ih (fun t ht => hsets t (List.mem_cons_of_mem _ ht)) (splice rec col.offset raw)
    refine ⟨x :: clauses, new, ?_, ?_, ?_⟩
    · rw [List.mapM_cons, hx, hparse]
      rfl
    · have hone : Analyze.setClause cols x = .ok () := by
        unfold Analyze.setClause
        rw [hcol]
        simp [bind, Except.bind, hcompat, hinit, pure, Except.pure]
      show (Analyze.setClause cols x).bind (fun _ => clauses.forM (Analyze.setClause cols)) = _
      rw [hone]
      exact hanalyze
    · rw [List.foldlM_cons, SetClause.apply_eq hcol hcompat, hraw]
      exact happly

end Rmdb
