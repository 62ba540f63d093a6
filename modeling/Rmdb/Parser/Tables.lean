import Rmdb.Parser.Grammar

namespace Rmdb

open Lib

/-!
# The tables of the parser (`parser/yacc.tab.cpp`)

The tables that were generated from the grammar, and how `yyparse` looks into them.

* `Yacc.yyaction` — what a state does at a token;
* `Yacc.yygoto` — the state behind a left side;
* `Yacc.tables` — the automaton of the tables.
-/

namespace Yacc

/-- A table in rows of ten, as it is printed. -/
abbrev Rows (α : Type) := List (List α)

/-- An entry of a table. -/
def Rows.get {α : Type} (t : Rows α) (i : Nat) (d : α) : α := (t.getD (i / 10) []).getD (i % 10) d

/-- What all entries pass, with their numbers. -/
def Rows.all {α : Type} (t : Rows α) (p : α → Nat → Bool) : Bool :=
  t.zipIdx.all fun row => row.1.zipIdx.all fun x => p x.1 (10 * row.2 + x.2)

theorem Rows.get_of_le {α : Type} {t : Rows α} {n i : Nat} (d : α) (hn : t.length ≤ n) (hi : 10 * n ≤ i) :
    t.get i d = d := by
  unfold Rows.get
  have hrow : t[i / 10]? = none := List.getElem?_eq_none (by omega)
  simp only [List.getD_eq_getElem?_getD, hrow]
  rfl

theorem Rows.all_get {α : Type} {t : Rows α} {p : α → Nat → Bool} (h : t.all p = true) (i : Nat)
    (d : α) : t.get i d = d ∨ p (t.get i d) i = true := by
  unfold Rows.get
  simp only [List.getD_eq_getElem?_getD]
  cases hrow : t[i / 10]? with
  | none => exact .inl rfl
  | some row =>
    simp only [Option.getD_some]
    cases hx : row[i % 10]? with
    | none => exact .inl rfl
    | some x =>
      have hrow' := List.all_eq_true.mp h (row, i / 10) (List.mem_zipIdx_iff_getElem?.mpr hrow)
      have hin := List.all_eq_true.mp hrow' (x, i % 10) (List.mem_zipIdx_iff_getElem?.mpr hx)
      rw [Nat.div_add_mod] at hin
      exact .inr hin

/-- Where the row of a state lies in `yytable`; -101 if the state needs no token. -/
def yypact : Rows Int :=
  [[73, 4, 9, 12, -27, 20, 13, -28, -27, 26],
    [-101, -101, -101, -101, -101, -101, -101, 38, 3, -101],
    [-101, -101, -101, -101, 36, -27, -27, -27, -27, -101],
    [-101, -27, -27, -101, -18, 48, -7, 39, -101, -101],
    [-101, -101, 5, -101, 23, -101, 30, 70, 32, -101],
    [-101, -101, -27, 37, 40, -101, 45, 81, 101, 76],
    [-28, -27, 63, -28, 92, -36, 93, -27, 92, -101],
    [92, 92, 92, 46, 93, -101, -28, -101, -101, -101],
    [-101, -101, -2, -101, 83, 87, -101, -14, -101, -101],
    [-3, -101, 91, 14, -101, 16, 85, -101, 114, 53],
    [-101, 92, -101, 74, 102, -27, -27, 130, -101, 92],
    [-101, 94, -101, -101, -101, -101, -101, 92, -101, -101],
    [-101, -101, -101, -101, 19, -101, 93, -101, -101, -101],
    [-101, -101, -101, 80, -101, -101, 85, 92, -101, -101],
    [131, 128, -101, 100, -101, -101, 85, -101, -101, -101],
    [-101, -101, 137, 93, 103, -101, 96, -101, -27, 27],
    [97, -101, -101, -101, -14, -101, -101, -101, 93, -101],
    [-101]]

/-- The rule that a state reduces where `yytable` has nothing for the token; 0 is an error. -/
def yydefact : Rows Nat :=
  [[0, 0, 0, 0, 0, 0, 0, 0, 0, 0],
    [4, 3, 10, 11, 12, 13, 5, 0, 0, 9],
    [6, 7, 8, 14, 0, 0, 0, 0, 0, 84],
    [18, 0, 0, 91, 0, 0, 86, 0, 27, 28],
    [29, 30, 85, 69, 0, 55, 70, 0, 0, 54],
    [1, 2, 0, 0, 0, 17, 0, 0, 49, 0],
    [0, 0, 0, 0, 0, 0, 0, 0, 0, 15],
    [0, 0, 0, 0, 0, 22, 0, 90, 26, 87],
    [88, 85, 49, 65, 0, 0, 56, 49, 71, 53],
    [0, 31, 0, 0, 33, 0, 0, 51, 50, 0],
    [89, 0, 23, 0, 0, 0, 0, 75, 16, 0],
    [36, 0, 39, 37, 40, 35, 19, 0, 20, 46],
    [43, 44, 45, 47, 0, 41, 0, 61, 60, 62],
    [57, 58, 59, 0, 66, 67, 0, 0, 73, 72],
    [0, 77, 32, 0, 34, 21, 0, 52, 63, 64],
    [48, 68, 0, 0, 0, 24, 0, 42, 0, 83],
    [74, 78, 76, 38, 49, 82, 81, 80, 0, 25],
    [79]]

/-- Where the column of a left side lies in `yytable`. -/
def yypgoto : Rows Int :=
  [[-101, -101, -101, -101, -101, -101, -101, -101, -101, 84],
    [49, -101, -101, -100, 29, -80, -101, -65, -101, -101],
    [-101, -101, 56, 95, 1, -101, -101, -101, -6, -101],
    [-4, -58, -29, 99]]

/-- The state behind a left side where `yytable` has none. -/
def yydefgoto : Rows Nat :=
  [[0, 17, 18, 19, 20, 21, 22, 44, 90, 93],
    [91, 115, 124, 125, 97, 75, 98, 45, 46, 133],
    [150, 82, 83, 47, 87, 141, 155, 160, 161, 167],
    [48, 49, 35, 36]]

/-- A state to shift to, or the negative number of a rule. -/
def yytable : Rows Int :=
  [[30, 86, 102, 135, 37, 74, 84, 107, 23, 99],
    [89, 42, 92, 94, 94, 25, 105, 74, 27, 33],
    [29, 53, 54, 55, 56, 43, 32, 57, 58, 34],
    [31, 77, 24, 148, 80, 165, 151, 26, 50, 59],
    [28, 166, 106, 84, 60, 136, 157, 100, 69, 52],
    [62, 92, 108, 109, 101, 63, 51, 78, 61, 144],
    [64, 99, -84, 88, 38, 39, 40, 41, 149, 116],
    [117, 118, 117, 42, 145, 146, 1, 65, 2, 152],
    [3, 4, 5, 67, 169, 6, 66, 43, 159, 68],
    [7, 70, 73, 8, 71, 9, 127, 128, 129, 72],
    [96, 138, 139, 159, 10, 11, 12, 13, 14, 15],
    [33, 130, 131, 132, 110, 111, 112, 113, 114, 16],
    [74, 81, 119, 120, 121, 122, 123, 42, 119, 120],
    [121, 122, 123, 119, 120, 121, 122, 123, 76, 81],
    [42, 103, 104, 126, 137, 140, 154, 153, 143, 156],
    [158, 163, 162, 168, 88, 147, 95, 134, 142, 164],
    [85, 79, 170]]

/-- The token or the state that an entry of `yytable` is for. -/
def yycheck : Rows Int :=
  [[4, 66, 82, 103, 8, 19, 64, 87, 4, 74],
    [68, 47, 70, 71, 72, 6, 30, 19, 6, 47],
    [47, 25, 26, 27, 28, 61, 13, 31, 32, 57],
    [10, 60, 28, 133, 63, 8, 136, 28, 0, 57],
    [28, 14, 56, 101, 62, 103, 146, 76, 52, 13],
    [57, 109, 55, 56, 56, 62, 53, 61, 10, 117],
    [21, 126, 57, 67, 38, 39, 40, 41, 133, 55],
    [56, 55, 56, 47, 55, 56, 3, 54, 5, 137],
    [7, 8, 9, 13, 164, 12, 56, 61, 153, 57],
    [17, 54, 11, 20, 54, 22, 43, 44, 45, 54],
    [54, 105, 106, 168, 31, 32, 33, 34, 35, 36],
    [47, 58, 59, 60, 23, 24, 25, 26, 27, 46],
    [19, 47, 48, 49, 50, 51, 52, 47, 48, 49],
    [50, 51, 52, 48, 49, 50, 51, 52, 62, 47],
    [47, 58, 55, 29, 42, 15, 18, 16, 54, 49],
    [13, 55, 49, 56, 158, 126, 72, 101, 109, 158],
    [65, 62, 168]]

/-- The left side of a rule. -/
def yyr1 : Rows Nat :=
  [[0, 63, 64, 64, 64, 64, 65, 65, 65, 65],
    [66, 66, 66, 66, 67, 67, 68, 68, 68, 68],
    [68, 69, 69, 69, 69, 69, 69, 70, 70, 70],
    [70, 71, 71, 72, 72, 73, 74, 74, 74, 74],
    [74, 75, 75, 76, 76, 76, 76, 76, 77, 78],
    [78, 79, 79, 80, 80, 81, 81, 82, 82, 82],
    [82, 82, 82, 83, 83, 84, 84, 85, 85, 86],
    [86, 87, 87, 87, 88, 88, 89, 89, 90, 90],
    [91, 92, 92, 92, 93, 94, 95, 95, 95, 95],
    [95, 96]]

/-- The number of symbols on the right side of a rule. -/
def yyr2 : Rows Nat :=
  [[0, 2, 2, 1, 1, 1, 1, 1, 1, 1],
    [1, 1, 1, 1, 2, 4, 6, 3, 2, 6],
    [6, 7, 4, 5, 7, 10, 4, 1, 1, 1],
    [1, 1, 3, 1, 3, 2, 1, 1, 4, 1],
    [1, 1, 3, 1, 1, 1, 1, 1, 3, 0],
    [2, 1, 3, 3, 1, 1, 3, 1, 1, 1],
    [1, 1, 1, 1, 1, 1, 3, 3, 4, 1],
    [1, 1, 3, 3, 3, 0, 2, 0, 1, 3],
    [2, 1, 1, 0, 1, 1, 1, 3, 3, 4],
    [3, 1]]

/-- `YYLAST`. -/
def YYLAST : Int := 162

/-- `YYPACT_NINF`. -/
def YYPACT_NINF : Int := -101

/-- `YYNTOKENS`. -/
def YYNTOKENS : Nat := 63

/-- `YYFINAL`. -/
def YYFINAL : Nat := 50

/-- The states that `yybackup` leaves without a look at the token. -/
def pactIsDefault (state : Nat) : Bool := yypact.get state YYPACT_NINF = YYPACT_NINF

/-- From `yybackup` to the jump: a state to shift to, a rule to reduce, or an error. -/
def yyaction (state token : Nat) : Lib.Action Nat Nat :=
  let default : Lib.Action Nat Nat :=
    if yydefact.get state 0 = 0 then .reject else .reduce (yydefact.get state 0)
  let yyn := yypact.get state YYPACT_NINF + token
  if yyn < 0 ∨ YYLAST < yyn ∨ yycheck.get yyn.toNat 0 ≠ token then default
  else
    let yyn := yytable.get yyn.toNat 0
    if yyn ≤ 0 then .reduce (-yyn).toNat else .shift yyn.toNat

/-- An action is the default of the state, or an entry of the table that is for the token. -/
theorem yyaction_cases (state token : Nat) :
    yyaction state token =
      (if yydefact.get state 0 = 0 then .reject else .reduce (yydefact.get state 0)) ∨
    ∃ n : Nat, n ≤ 162 ∧ yypact.get state YYPACT_NINF = n - yycheck.get n 0 ∧ yycheck.get n 0 = token ∧
      yyaction state token =
        if yytable.get n 0 ≤ 0 then .reduce (-yytable.get n 0).toNat else .shift (yytable.get n 0).toNat := by
  unfold yyaction
  dsimp only
  split
  · exact .inl rfl
  · rename_i h
    push Not at h
    obtain ⟨hlow, hhigh, hcheck⟩ := h
    have hn : ((yypact.get state YYPACT_NINF + token).toNat : Int) = yypact.get state YYPACT_NINF + token :=
      Int.toNat_of_nonneg hlow
    refine .inr ⟨(yypact.get state YYPACT_NINF + token).toNat, ?_, ?_, hcheck, rfl⟩
    · unfold YYLAST at hhigh
      omega
    · rw [hn, hcheck]
      omega

/-- The state behind a left side, at the end of `yyreduce`. -/
def yygoto (state lhs : Nat) : Nat :=
  let yylhs := lhs - YYNTOKENS
  let yyi := yypgoto.get yylhs 0 + state
  if 0 ≤ yyi ∧ yyi ≤ YYLAST ∧ yycheck.get yyi.toNat 0 = state then (yytable.get yyi.toNat 0).toNat
  else yydefgoto.get yylhs 0

/-! ### Rules by their numbers -/

namespace Rule

/-- The rules from number 2 on. -/
def all : List Rule :=
  [.startStmt, .startHelp, .startExit, .startEof, .stmtDb, .stmtDdl, .stmtDml, .stmtTxn, .txnBegin,
    .txnCommit, .txnAbort, .txnRollback, .showTables, .showIndex, .createTable, .dropTable, .descTable,
    .createIndex, .dropIndex, .insert, .delete, .update, .select, .selectAggregate, .load, .count, .max,
    .min, .sum, .fieldListOne, .fieldListMore, .colNameListOne, .colNameListMore, .field, .typeInt,
    .typeBigint, .typeChar, .typeFloat, .typeDatetime, .valueListOne, .valueListMore, .valueInt,
    .valueBigint, .valueFloat, .valueString, .valueDatetime, .condition, .optWhereNone, .optWhere,
    .whereOne, .whereMore, .colOfTable, .colAlone, .colListOne, .colListMore, .opEq, .opLt, .opGt,
    .opNe, .opLe, .opGe, .exprValue, .exprCol, .setClausesOne, .setClausesMore, .setClause,
    .setClauseSelf, .selectorAll, .selectorCols, .tableListOne, .tableListMore, .tableListJoin,
    .optOrder, .optOrderNone, .optLimit, .optLimitNone, .orderListOne, .orderListMore, .orderClause,
    .dirAsc, .dirDesc, .dirDefault, .tbName, .colName, .pathFilename, .pathDot, .pathSlash, .pathUp,
    .pathHere, .filename]

/-- The number of a rule. -/
def num (r : Rule) : Nat := r.ctorIdx + 2

/-- The rule of a number; none for `$accept`. -/
def ofNum (n : Nat) : Option Rule := if n < 2 then none else all[n - 2]?

theorem ofNum_num (r : Rule) : ofNum r.num = some r := by cases r <;> rfl

/-- `yyr1` and `yyr2` are those of the grammar. -/
theorem yyr_num (r : Rule) : yyr1.get r.num 0 = r.production.1.num ∧
    yyr2.get r.num 0 = r.production.2.length := by
  cases r <;> exact ⟨rfl, rfl⟩

end Rule

/-- The automaton of the tables. -/
def tables : Automaton SymbolKind Rule Nat where
  entry := 0
  eager state := if pactIsDefault state then Rule.ofNum (yydefact.get state 0) else none
  action state a :=
    match yyaction state a.num with
    | .shift state' => .shift state'
    | .reduce n =>
      match Rule.ofNum n with
      | some r => .reduce r
      | none => .reject
    | .reject => .reject
  goto state a := yygoto state a.num
  accepts r := r.production.1 = .start

theorem tables_action (q : Nat) (a : SymbolKind) : tables.action q a =
    match yyaction q a.num with
    | .shift q' => .shift q'
    | .reduce n =>
      match Rule.ofNum n with
      | some r => .reduce r
      | none => .reject
    | .reject => .reject := rfl

end Yacc

end Rmdb
