import Rmdb.Parser.Tables

namespace Rmdb

open Lib

/-!
# What the states of the parser stand for

The report on the automaton: the rules that are under way in a state, the left sides that may begin there,
and the tokens that may follow.  That the tables agree with it is checked state by state.

* `Yacc.report` — the report;
* `Yacc.report_complete` — the tables do what the report allows, and all that it asks for.
-/

namespace Yacc

/-- The rules under way in a state, with the number of symbols behind us. -/
def stateItems : Rows (List (Rule × Nat)) :=
  [[[], [(.showTables, 1), (.showIndex, 1)], [(.createTable, 1), (.createIndex, 1)], [(.dropTable, 1),
      (.dropIndex, 1)], [(.descTable, 1)], [(.insert, 1)], [(.delete, 1)], [(.load, 1)], [(.update, 1)],
      [(.select, 1), (.selectAggregate, 1)]],
    [[(.startExit, 1)], [(.startHelp, 1)], [(.txnBegin, 1)], [(.txnCommit, 1)], [(.txnAbort, 1)],
      [(.txnRollback, 1)], [(.startEof, 1)], [], [(.startStmt, 1)], [(.stmtTxn, 1)]],
    [[(.stmtDb, 1)], [(.stmtDdl, 1)], [(.stmtDml, 1)], [(.showTables, 2)], [(.showIndex, 2)],
      [(.createTable, 2)], [(.createIndex, 2)], [(.dropTable, 2)], [(.dropIndex, 2)], [(.tbName, 1)]],
    [[(.descTable, 2)], [(.insert, 2)], [(.delete, 2)], [(.filename, 1)], [(.pathUp, 1), (.pathHere, 1)],
      [(.load, 2)], [(.pathFilename, 1), (.pathDot, 1), (.pathSlash, 1)], [(.update, 2)], [(.count, 1)],
      [(.max, 1)]],
    [[(.min, 1)], [(.sum, 1)], [(.tbName, 1), (.colName, 1)], [(.selectorAll, 1)], [(.selectAggregate,
      2)], [(.colListOne, 1)], [(.colListMore, 1), (.selectorCols, 1)], [(.select, 2)], [(.colOfTable,
      1)], [(.colAlone, 1)]],
    [[], [(.startStmt, 2)], [(.showIndex, 3)], [(.createTable, 3)], [(.createIndex, 3)], [(.dropTable,
      3)], [(.dropIndex, 3)], [(.insert, 3)], [(.delete, 3)], [(.pathUp, 2)]],
    [[(.pathHere, 2)], [(.load, 3)], [(.pathDot, 2)], [(.pathSlash, 2)], [(.update, 3)],
      [(.selectAggregate, 3)], [(.colListMore, 2)], [(.select, 3)], [(.colOfTable, 2)], [(.showIndex,
      4)]],
    [[(.createTable, 4)], [(.createIndex, 4)], [(.dropIndex, 4)], [(.insert, 4)], [(.optWhere, 1)],
      [(.delete, 4)], [(.pathUp, 3)], [(.pathHere, 3)], [(.load, 4)], [(.pathDot, 3)]],
    [[(.pathSlash, 3)], [(.colName, 1)], [(.update, 4), (.setClausesMore, 1)], [(.setClausesOne, 1)],
      [(.setClause, 1), (.setClauseSelf, 1)], [(.selectAggregate, 4)], [(.colListMore, 3)], [(.select,
      4), (.tableListMore, 1), (.tableListJoin, 1)], [(.tableListOne, 1)], [(.colOfTable, 3)]],
    [[(.createTable, 5), (.fieldListMore, 1)], [(.fieldListOne, 1)], [(.field, 1)], [(.createIndex, 5),
      (.colNameListMore, 1)], [(.colNameListOne, 1)], [(.dropIndex, 5), (.colNameListMore, 1)],
      [(.insert, 5)], [(.whereOne, 1)], [(.optWhere, 2), (.whereMore, 1)], [(.condition, 1)]],
    [[(.pathUp, 4)], [(.setClausesMore, 2)], [(.update, 5)], [(.setClause, 2), (.setClauseSelf, 2)],
      [(.selectAggregate, 5)], [(.tableListJoin, 2)], [(.tableListMore, 2)], [(.select, 5)],
      [(.createTable, 6)], [(.fieldListMore, 2)]],
    [[(.typeInt, 1)], [(.typeChar, 1)], [(.typeFloat, 1)], [(.typeBigint, 1)], [(.typeDatetime, 1)],
      [(.field, 2)], [(.createIndex, 6)], [(.colNameListMore, 2)], [(.dropIndex, 6)], [(.valueString,
      1)]],
    [[(.valueInt, 1)], [(.valueBigint, 1)], [(.valueFloat, 1)], [(.valueDatetime, 1)], [(.insert, 6),
      (.valueListMore, 1)], [(.valueListOne, 1)], [(.whereMore, 2)], [(.opLe, 1)], [(.opNe, 1)], [(.opGe,
      1)]],
    [[(.opEq, 1)], [(.opLt, 1)], [(.opGt, 1)], [(.condition, 2)], [(.setClausesMore, 3)], [(.setClause,
      3)], [(.setClauseSelf, 3)], [(.selectAggregate, 6)], [(.tableListJoin, 3)], [(.tableListMore, 3)]],
    [[(.optOrder, 1)], [(.select, 6)], [(.fieldListMore, 3)], [(.typeChar, 2)], [(.colNameListMore, 3)],
      [(.insert, 7)], [(.valueListMore, 2)], [(.whereMore, 3)], [(.exprValue, 1)], [(.exprCol, 1)]],
    [[(.condition, 3)], [(.setClauseSelf, 4)], [(.selectAggregate, 7)], [(.optOrder, 2)], [(.optLimit,
      1)], [(.select, 7)], [(.typeChar, 3)], [(.valueListMore, 3)], [(.selectAggregate, 8)],
      [(.orderClause, 1)]],
    [[(.optOrder, 3), (.orderListMore, 1)], [(.orderListOne, 1)], [(.optLimit, 2)], [(.typeChar, 4)],
      [(.selectAggregate, 9), (.tableListMore, 1), (.tableListJoin, 1)], [(.dirDesc, 1)], [(.dirAsc, 1)],
      [(.orderClause, 2)], [(.orderListMore, 2)], [(.selectAggregate, 10)]], [[(.orderListMore, 3)]]]

/-- The left sides that may begin in a state. -/
def stateOpens : Rows (List SymbolKind) :=
  [[[.start, .stmt, .dbStmt, .ddl, .dml, .txnStmt], [], [], [], [.tbName], [], [], [.path, .filename],
      [.tbName], [.selector, .aggregateFunction, .colList, .col, .tbName, .colName]],
    [[], [], [], [], [], [], [], [], [], []],
    [[], [], [], [], [], [.tbName], [.tbName], [.tbName], [.tbName], []],
    [[], [.tbName], [.tbName], [], [], [], [], [], [], []], [[], [], [], [], [], [], [], [], [], []],
    [[], [], [.tbName], [], [], [], [], [], [.optWhereClause], []],
    [[.path, .filename], [.tbName], [.filename], [.path, .filename], [.setClauses, .setClause, .colName],
      [.selector, .colList, .col, .tbName, .colName], [.col, .tbName, .colName], [.tableList, .tbName],
      [.colName], []],
    [[.fieldList, .field, .colName], [.colNameList, .colName], [.colNameList, .colName], [],
      [.whereClause, .condition, .col, .tbName, .colName], [], [.path, .filename], [], [], []],
    [[], [], [.optWhereClause], [], [], [], [], [.optWhereClause], [], []],
    [[], [], [.type], [], [], [], [.valueList, .value], [], [], [.op]],
    [[], [.setClause, .colName], [], [.value, .colName], [], [.tbName], [.tbName], [.optOrderClause], [],
      [.field, .colName]], [[], [], [], [], [], [], [], [.colName], [], []],
    [[], [], [], [], [], [], [.condition, .col, .tbName, .colName], [], [], []],
    [[], [], [], [.expr, .value, .col, .tbName, .colName], [], [], [.value], [.colName], [], []],
    [[], [.optLimit], [], [], [], [], [.value], [], [], []],
    [[], [], [], [.orderClauseList, .orderClause, .col, .tbName, .colName], [], [], [], [], [.tableList,
      .tbName], [.optAscDesc]],
    [[], [], [], [], [.optWhereClause], [], [], [], [.orderClause, .col, .tbName, .colName], []], [[]]]

/-- How much a state may still reduce. -/
def stateWeight : Rows Nat :=
  [[0, 0, 0, 0, 0, 0, 0, 0, 0, 0], [0, 0, 2, 2, 2, 2, 0, 0, 0, 1], [1, 1, 1, 1, 0, 0, 0, 0, 0, 8],
    [1, 0, 0, 2, 0, 0, 1, 0, 1, 1], [1, 1, 8, 1, 0, 2, 1, 0, 0, 6], [0, 0, 0, 0, 0, 0, 0, 0, 6, 0],
    [0, 0, 0, 0, 0, 0, 0, 0, 0, 0], [0, 0, 0, 0, 0, 0, 0, 0, 0, 0], [0, 7, 6, 7, 0, 0, 0, 6, 7, 4],
    [0, 1, 0, 0, 1, 0, 0, 5, 4, 0], [0, 0, 0, 0, 0, 0, 0, 4, 0, 0], [2, 0, 2, 2, 2, 1, 0, 0, 0, 7],
    [7, 7, 7, 7, 0, 1, 0, 1, 1, 1], [1, 1, 1, 0, 5, 6, 0, 0, 5, 5], [0, 2, 0, 0, 0, 0, 0, 3, 5, 5],
    [4, 5, 0, 0, 0, 0, 0, 0, 0, 4], [1, 2, 0, 0, 6, 3, 3, 2, 0, 0], [0]]

/-- The first tokens of a left side. -/
def first : SymbolKind → List SymbolKind
  | .start => [.SHOW, .CREATE, .DROP, .DESC, .INSERT, .DELETE, .LOAD, .UPDATE, .SELECT, .EXIT, .HELP,
      .TXN_BEGIN, .TXN_COMMIT, .TXN_ABORT, .TXN_ROLLBACK, .T_EOF]
  | .stmt => [.SHOW, .CREATE, .DROP, .DESC, .INSERT, .DELETE, .LOAD, .UPDATE, .SELECT, .TXN_BEGIN,
      .TXN_COMMIT, .TXN_ABORT, .TXN_ROLLBACK]
  | .txnStmt => [.TXN_BEGIN, .TXN_COMMIT, .TXN_ABORT, .TXN_ROLLBACK]
  | .dbStmt => [.SHOW]
  | .ddl => [.CREATE, .DROP, .DESC]
  | .dml => [.INSERT, .DELETE, .LOAD, .UPDATE, .SELECT]
  | .aggregateFunction => [.COUNT, .MAX, .MIN, .SUM]
  | .fieldList | .colNameList | .field | .condition | .whereClause | .col | .colList | .setClauses |
      .setClause | .tableList | .orderClauseList | .orderClause | .tbName | .colName | .filename =>
      [.IDENTIFIER]
  | .type => [.INT, .CHAR, .FLOAT, .BIGINT, .DATETIME]
  | .valueList | .value => [.VALUE_STRING, .VALUE_INT, .VALUE_BIGINT, .VALUE_FLOAT, .VALUE_DATETIME]
  | .optWhereClause => [.WHERE]
  | .op => [.LEQ, .NEQ, .GEQ, .equal, .less, .greater]
  | .expr => [.IDENTIFIER, .VALUE_STRING, .VALUE_INT, .VALUE_BIGINT, .VALUE_FLOAT, .VALUE_DATETIME]
  | .selector => [.IDENTIFIER, .star]
  | .optOrderClause => [.ORDER]
  | .optLimit => [.LIMIT]
  | .optAscDesc => [.DESC, .ASC]
  | .path => [.IDENTIFIER, .dot]
  | _ => []

/-- What may follow a left side. -/
def follow : SymbolKind → List SymbolKind
  | .stmt | .txnStmt | .dbStmt | .ddl | .dml | .optLimit => [.semicolon]
  | .aggregateFunction => [.lparen]
  | .fieldList | .colNameList | .field | .type | .valueList => [.rparen, .comma]
  | .value => [.ORDER, .LIMIT, .WHERE, .AND, .semicolon, .rparen, .comma]
  | .condition | .whereClause | .expr => [.ORDER, .LIMIT, .AND, .semicolon]
  | .optWhereClause => [.ORDER, .LIMIT, .semicolon]
  | .col => [.DESC, .FROM, .ASC, .ORDER, .LIMIT, .AND, .LEQ, .NEQ, .GEQ, .semicolon, .rparen, .comma,
      .equal, .less, .greater]
  | .colList => [.FROM, .rparen, .comma]
  | .op => [.IDENTIFIER, .VALUE_STRING, .VALUE_INT, .VALUE_BIGINT, .VALUE_FLOAT, .VALUE_DATETIME]
  | .setClauses | .setClause => [.WHERE, .semicolon, .comma]
  | .selector => [.FROM, .rparen]
  | .tableList => [.ORDER, .LIMIT, .WHERE, .JOIN, .semicolon, .comma]
  | .optOrderClause => [.LIMIT, .semicolon]
  | .orderClauseList | .orderClause | .optAscDesc => [.LIMIT, .semicolon, .comma]
  | .tbName => [.VALUES, .ORDER, .LIMIT, .WHERE, .SET, .JOIN, .semicolon, .lparen, .comma, .dot]
  | .colName => [.DESC, .FROM, .ASC, .ORDER, .LIMIT, .INT, .CHAR, .FLOAT, .BIGINT, .DATETIME, .AND,
      .LEQ, .NEQ, .GEQ, .VALUE_STRING, .VALUE_INT, .VALUE_BIGINT, .VALUE_FLOAT, .VALUE_DATETIME,
      .semicolon, .rparen, .comma, .equal, .less, .greater]
  | .path => [.INTO]
  | .filename => [.INTO, .dot, .slash]
  | _ => []

/-- The largest weight behind a left side. -/
def heavy : SymbolKind → Nat
  | .txnStmt | .dbStmt | .ddl | .dml | .field | .type | .colList | .orderClauseList | .filename => 1
  | .optOrderClause | .orderClause | .optAscDesc => 2
  | .optWhereClause | .whereClause | .expr => 4
  | .condition | .col => 5
  | .value | .setClauses | .tableList | .colName => 6
  | .setClause | .tbName => 7
  | _ => 0

/-- The report.  Behind a state where a column may begin, a table name goes on with a dot. -/
def report : Report SymbolKind Rule Nat where
  start := .start
  -- the end of the file is not among the tokens that `yylex` returns
  terminal a := a.isToken && a != .YYEOF
  items q := stateItems.get q []
  opens q := stateOpens.get q []
  looks q r :=
    if r = .tbName ∧ (.col ∈ stateOpens.get q [] ∨ q = 42) then [.dot] else follow r.production.1
  first := first
  nullable a := a ∈ [.optWhereClause, .optOrderClause, .optLimit, .optAscDesc]
  weight q := stateWeight.get q 0
  heavy := heavy
  maxWeight := 8

/-- `YYINITDEPTH`. -/
def YYINITDEPTH : Nat := 200

/-- The parser.  The stack holds the entry and has room for one more than it may keep. -/
def parser (ε : Type) : Parser SymbolKind Rule Nat (Except ε Token) Sem where
  toAutomaton := tables
  grammar := grammar ε
  limit := YYINITDEPTH - 2

/-! ### The checks -/

/-- The rules of a left side. -/
def rulesOf : SymbolKind → List Rule
  | .start => [.startStmt, .startHelp, .startExit, .startEof]
  | .stmt => [.stmtDb, .stmtDdl, .stmtDml, .stmtTxn]
  | .txnStmt => [.txnBegin, .txnCommit, .txnAbort, .txnRollback]
  | .dbStmt => [.showTables, .showIndex]
  | .ddl => [.createTable, .dropTable, .descTable, .createIndex, .dropIndex]
  | .dml => [.insert, .delete, .update, .select, .selectAggregate, .load]
  | .aggregateFunction => [.count, .max, .min, .sum]
  | .fieldList => [.fieldListOne, .fieldListMore]
  | .colNameList => [.colNameListOne, .colNameListMore]
  | .field => [.field]
  | .type => [.typeInt, .typeBigint, .typeChar, .typeFloat, .typeDatetime]
  | .valueList => [.valueListOne, .valueListMore]
  | .value => [.valueInt, .valueBigint, .valueFloat, .valueString, .valueDatetime]
  | .condition => [.condition]
  | .optWhereClause => [.optWhereNone, .optWhere]
  | .whereClause => [.whereOne, .whereMore]
  | .col => [.colOfTable, .colAlone]
  | .colList => [.colListOne, .colListMore]
  | .op => [.opEq, .opLt, .opGt, .opNe, .opLe, .opGe]
  | .expr => [.exprValue, .exprCol]
  | .setClauses => [.setClausesOne, .setClausesMore]
  | .setClause => [.setClause, .setClauseSelf]
  | .selector => [.selectorAll, .selectorCols]
  | .tableList => [.tableListOne, .tableListMore, .tableListJoin]
  | .optOrderClause => [.optOrder, .optOrderNone]
  | .optLimit => [.optLimit, .optLimitNone]
  | .orderClauseList => [.orderListOne, .orderListMore]
  | .orderClause => [.orderClause]
  | .optAscDesc => [.dirAsc, .dirDesc, .dirDefault]
  | .tbName => [.tbName]
  | .colName => [.colName]
  | .path => [.pathFilename, .pathDot, .pathSlash, .pathUp, .pathHere]
  | .filename => [.filename]
  | _ => []

/-- The rules that are under way in a state or begin there. -/
def itemsOf (q : Nat) : List (Rule × Nat) :=
  report.items q ++ (report.opens q).flatMap fun a => (rulesOf a).map fun r => (r, 0)

/-- The rule is under way in the state, or begins there. -/
def has (q : Nat) (r : Rule) (k : Nat) : Bool :=
  (report.items q).contains (r, k) || k == 0 && (report.opens q).contains r.production.1

/-- The second state is what the first one becomes behind the symbol. -/
def edge (q : Nat) (a : SymbolKind) (q' : Nat) : Bool :=
  !(report.items q').isEmpty && (report.items q').all fun i =>
    1 ≤ i.2 && i.1.production.2[i.2 - 1]? == some a && has q i.1 (i.2 - 1)

/-- The first list is in the second. -/
def subset (l l' : List SymbolKind) : Bool := l.all fun a => l'.contains a

/-- What a rule under way asks of the state before a symbol. -/
def advances (q : Nat) (r : Rule) (k : Nat) (a : SymbolKind) : Bool :=
  if report.terminal a then
    (tables.eager q).isNone && match tables.action q a with
    | .shift q' => (report.items q').contains (r, k + 1) && subset (report.looks q r) (report.looks q' r)
    | _ => false
  else
    let q' := tables.goto q a
    edge q a q' && report.weight q' ≤ report.heavy a && (report.items q').contains (r, k + 1) &&
      subset (report.looks q r) (report.looks q' r) && (report.opens q).contains a &&
      (rulesOf a).all fun r' =>
        subset (report.firstOf (r.production.2.drop (k + 1)) (report.looks q r)) (report.looks q r')

/-- What a complete rule asks of the state. -/
def finishes (q : Nat) (r : Rule) : Bool :=
  (tables.accepts r || heavy r.production.1 + 1 < r.production.2.length + report.weight q) &&
  match tables.eager q with
  | some r' => r' == r
  | none => !tables.accepts r && (report.looks q r).all fun a =>
      match tables.action q a with
      | .reduce r' => r' == r
      | _ => false

/-- The state does all that its rules ask for. -/
def checkItems (q : Nat) : Bool :=
  (itemsOf q).all fun i =>
    match i.1.production.2[i.2]? with
    | some a => advances q i.1 i.2 a
    | none => i.2 == i.1.production.2.length && finishes q i.1

/-- The tokens. -/
def tokens : List SymbolKind :=
  [.YYEOF, .YYerror, .YYUNDEF, .SHOW, .TABLES, .CREATE, .TABLE, .DROP, .DESC, .INSERT, .INTO, .VALUES,
    .DELETE, .FROM, .ASC, .ORDER, .BY, .LOAD, .LIMIT, .WHERE, .UPDATE, .SET, .SELECT, .INT, .CHAR,
    .FLOAT, .BIGINT, .DATETIME, .INDEX, .AND, .JOIN, .EXIT, .HELP, .TXN_BEGIN, .TXN_COMMIT, .TXN_ABORT,
    .TXN_ROLLBACK, .ORDER_BY, .COUNT, .MAX, .MIN, .SUM, .AS, .LEQ, .NEQ, .GEQ, .T_EOF, .IDENTIFIER,
    .VALUE_STRING, .VALUE_INT, .VALUE_BIGINT, .VALUE_FLOAT, .VALUE_DATETIME, .semicolon, .lparen,
    .rparen, .comma, .dot, .equal, .less, .greater, .star, .slash]

/-- The state reduces by default only what the report allows. -/
def checkReduce (q : Nat) : Bool :=
  match Rule.ofNum (yydefact.get q 0) with
  | some r => has q r r.production.2.length
  | none => true

/-- An entry of the tables that is for a token: the states that may get to it shift and reduce there only
    what the report allows. -/
def checkEntry (n : Nat) : Bool :=
  let c := yycheck.get n 0
  let t := yytable.get n 0
  c ≤ 0 || YYNTOKENS ≤ c || yypact.all fun p q => p != n - c ||
    if t ≤ 0 then match Rule.ofNum (-t).toNat with
      | some r => has q r r.production.2.length
      | none => true
    else edge q (tokens.getD c.toNat .YYEOF) t.toNat

/-- What may begin in a state is asked for by a rule. -/
def checkOpens (q : Nat) : Bool :=
  (report.opens q).all fun a => q == 0 && a == .start ||
    (itemsOf q).any fun i => i.1.production.2[i.2]? == some a

/-- Every state passes the check of its items. -/
theorem checkItems_all : (List.range 180).all checkItems = true := by decide +kernel

/-- Every state passes the check of its reductions. -/
theorem checkReduce_all : (List.range 180).all checkReduce = true := by decide +kernel

/-- Every entry of the tables passes its check. -/
theorem checkEntry_all : (List.range 163).all checkEntry = true := by decide +kernel

/-- Every state passes the check of what it opens. -/
theorem checkOpens_all : (List.range 180).all checkOpens = true := by decide +kernel

/-! ### What the checks come to -/

variable {ε : Type} {q : Nat} {r : Rule} {k : Nat} {a : SymbolKind}

/-- The items of the report, as a test. -/
theorem has_iff : report.Has (parser ε) q r k ↔ has q r k = true := by
  unfold Report.Has has
  simp only [Bool.or_eq_true, Bool.and_eq_true, List.contains_iff_mem, beq_iff_eq]
  exact Iff.rfl

/-- Each rule is listed under its left side. -/
theorem mem_rulesOf (r : Rule) : r ∈ rulesOf r.production.1 := by cases r <;> decide

/-- Only the rules of a symbol are listed under it. -/
theorem lhs_of_mem_rulesOf (h : r ∈ rulesOf a) : r.production.1 = a := by
  have hall : (rulesOf a).all (fun r => r.production.1 == a) = true := by cases a <;> rfl
  exact beq_iff_eq.mp (List.all_eq_true.mp hall r h)

/-- The items of a state, as a test. -/
theorem mem_itemsOf : (r, k) ∈ itemsOf q ↔ has q r k = true := by
  unfold itemsOf has
  simp only [List.mem_append, List.mem_flatMap, List.mem_map, Prod.mk.injEq, Bool.or_eq_true,
    Bool.and_eq_true,
    List.contains_iff_mem, beq_iff_eq]
  refine or_congr Iff.rfl ⟨?_, ?_⟩
  · rintro ⟨a, ha, r', hr', rfl, rfl⟩
    rw [lhs_of_mem_rulesOf hr']
    exact ⟨rfl, ha⟩
  · rintro ⟨rfl, hopens⟩
    exact ⟨_, hopens, r, mem_rulesOf r, rfl, rfl⟩

/-- Rules are under way in the states of the tables only. -/
theorem lt_of_has (h : has q r k = true) : q < 180 := by
  by_contra hq
  have hitems : report.items q = [] := Rows.get_of_le [] (n := 18) (by decide) (by omega)
  have hopens : report.opens q = [] := Rows.get_of_le [] (n := 18) (by decide) (by omega)
  unfold has at h
  rw [hitems, hopens] at h
  simp at h

/-- The edges of the report, as a test. -/
theorem edge_iff {q' : Nat} : edge q a q' = true ↔ report.Edge (parser ε) q a q' := by
  unfold edge Report.Edge
  simp only [Bool.and_eq_true, Bool.not_eq_true', List.isEmpty_eq_false_iff, List.all_eq_true, has_iff,
    decide_eq_true_eq, beq_iff_eq, and_assoc]
  exact Iff.rfl

/-- The test of a subset. -/
theorem subset_iff {l l' : List SymbolKind} : subset l l' = true ↔ l ⊆ l' := by
  unfold subset
  simp only [List.all_eq_true, List.contains_iff_mem]
  exact Iff.rfl

/-- A token is found under its number. -/
theorem tokens_num (h : a.isToken = true) : tokens.getD a.num .YYEOF = a := by
  cases a <;> first | rfl | cases h

/-- The report allows what the state does at the token. -/
def Allows (q : Nat) (a : SymbolKind) : Lib.Action Nat Nat → Prop
  | .shift q' => edge q a q' = true
  | .reduce n => ∀ r, Rule.ofNum n = some r → has q r r.production.2.length = true
  | .reject => True

/-- The report allows the action of the tables in every state. -/
theorem allows_yyaction (ha : report.terminal a = true) (hq : q < 180) : Allows q a (yyaction q a.num) := by
  obtain ⟨htoken, heof⟩ := Bool.and_eq_true_iff.mp ha
  rcases yyaction_cases q a.num with hdefault | ⟨n, hn, hpact, hcheck, haction⟩
  · rw [hdefault]
    split
    · trivial
    · intro r hr
      have hreduce := List.all_eq_true.mp checkReduce_all q (List.mem_range.mpr hq)
      unfold checkReduce at hreduce
      rw [hr] at hreduce
      exact hreduce
  · have hentry := List.all_eq_true.mp checkEntry_all n (List.mem_range.mpr (by omega))
    have hsmall : a.num < 63 := of_decide_eq_true htoken
    have hpos : a.num ≠ 0 := by
      intro h0
      have heq := tokens_num htoken
      rw [h0] at heq
      exact absurd heq.symm (bne_iff_ne.mp heof)
    unfold checkEntry at hentry
    dsimp only at hentry
    rw [Bool.or_eq_true, Bool.or_eq_true, decide_eq_true_eq, decide_eq_true_eq, hcheck] at hentry
    have hall := hentry.resolve_left (by unfold YYNTOKENS; omega)
    rw [haction]
    rw [hcheck] at hpact
    rcases Rows.all_get hall q YYPACT_NINF with hninf | hthis
    · -- the row of a state that needs no token lies before the table
      rw [hninf] at hpact
      unfold YYPACT_NINF at hpact
      omega
    · rw [hpact, Bool.or_eq_true, bne_self_eq_false, Int.toNat_natCast, tokens_num htoken] at hthis
      have hthis := hthis.resolve_left Bool.false_ne_true
      split
      · rename_i ht
        intro r hr
        rw [if_pos ht, hr] at hthis
        exact hthis
      · rename_i ht
        rw [if_neg ht] at hthis
        exact hthis

/-- A state that takes no part in the report does nothing. -/
theorem yyaction_of_le (ha : a.isToken = true) (hq : 180 ≤ q) : yyaction q a.num = .reject := by
  rcases yyaction_cases q a.num with hdefault | ⟨n, hn, hpact, hcheck, haction⟩
  · rw [hdefault, Rows.get_of_le 0 (n := 18) (by decide) (by omega)]
    rfl
  · have hsmall : a.num < 63 := of_decide_eq_true ha
    rw [Rows.get_of_le YYPACT_NINF (n := 18) (by decide) (by omega), hcheck] at hpact
    unfold YYPACT_NINF at hpact
    omega

/-- A shift of the tables. -/
theorem action_shift {q' : Nat} (h : tables.action q a = .shift q') : yyaction q a.num = .shift q' := by
  rw [tables_action] at h
  cases haction : yyaction q a.num with
  | shift q'' =>
    rw [haction] at h
    exact congrArg Lib.Action.shift (Lib.Action.shift.inj h)
  | reduce n =>
    simp only [haction] at h
    split at h <;> cases h
  | reject =>
    rw [haction] at h
    cases h

/-- A reduction of the tables, by a rule of the grammar. -/
theorem action_reduce (h : tables.action q a = .reduce r) :
    ∃ n, yyaction q a.num = .reduce n ∧ Rule.ofNum n = some r := by
  rw [tables_action] at h
  cases haction : yyaction q a.num with
  | shift q'' =>
    rw [haction] at h
    cases h
  | reduce n =>
    refine ⟨n, rfl, ?_⟩
    simp only [haction] at h
    split at h
    · rename_i r' hr'
      rw [hr', Lib.Action.reduce.inj h]
    · cases h
  | reject =>
    rw [haction] at h
    cases h

/-- What the check of the items says of one of them. -/
theorem checkItem (h : has q r k = true) :
    match r.production.2[k]? with
    | some a => advances q r k a = true
    | none => k = r.production.2.length ∧ finishes q r = true := by
  have hall := List.all_eq_true.mp checkItems_all q (List.mem_range.mpr (lt_of_has h))
  have hitem := List.all_eq_true.mp hall (r, k) (mem_itemsOf.mpr h)
  dsimp only at hitem
  split
  · rename_i a ha
    rw [ha] at hitem
    exact hitem
  · rename_i ha
    rw [ha, Bool.and_eq_true, beq_iff_eq] at hitem
    exact hitem

/-- A state with a finished item may reduce by it. -/
theorem finishes_of_has (h : has q r r.production.2.length = true) : finishes q r = true := by
  have hitem := checkItem h
  rw [List.getElem?_eq_none (Nat.le_refl _)] at hitem
  exact hitem.2

/-- A state with an unfinished item may go on with its next symbol. -/
theorem advances_of_has (h : has q r k = true) (ha : r.production.2[k]? = some a) :
    advances q r k a = true := by
  have hitem := checkItem h
  rw [ha] at hitem
  exact hitem

/-- The entry state has no item of its own. -/
theorem items_entry : report.items 0 = [] := by decide

/-- It opens the start symbol. -/
theorem start_mem_opens : report.start ∈ report.opens 0 := by decide

/-- No right side has the start symbol. -/
theorem start_notMem (r : Rule) : .start ∉ r.production.2 := by cases r <;> decide

/-- The tables do what the report allows. -/
theorem report_sound (ε : Type) : report.Sound (parser ε) where
  entry_items := items_entry
  terminal := by
    rintro (e | t) a hkind
    · cases hkind
    · obtain rfl := Option.some.inj hkind
      cases t with
      | plain kind h => cases kind <;> first | rfl | cases h
      | _ => rfl
  shift := by
    -- each entry of the tables has been checked; beyond the last state they reject
    intro q a q' ha _ haction
    by_cases hq : q < 180
    · have hallows := allows_yyaction ha hq
      rw [action_shift haction] at hallows
      exact edge_iff.mp hallows
    · have hreject := yyaction_of_le (Bool.and_eq_true_iff.mp ha).1 (Nat.not_lt.mp hq)
      rw [action_shift haction] at hreject
      cases hreject
  eager := by
    intro q r heager
    change (if pactIsDefault q then Rule.ofNum (yydefact.get q 0) else none) = some r at heager
    split at heager
    · by_cases hq : q < 180
      · have hreduce := List.all_eq_true.mp checkReduce_all q (List.mem_range.mpr hq)
        unfold checkReduce at hreduce
        rw [heager] at hreduce
        exact has_iff.mpr hreduce
      · rw [Rows.get_of_le 0 (n := 18) (by decide) (by omega)] at heager
        cases heager
    · cases heager
  reduce := by
    intro q a r ha _ haction
    obtain ⟨n, hn, hr⟩ := action_reduce haction
    by_cases hq : q < 180
    · have hallows := allows_yyaction ha hq
      rw [hn] at hallows
      exact has_iff.mpr (hallows r hr)
    · have hreject := yyaction_of_le (Bool.and_eq_true_iff.mp ha).1 (Nat.not_lt.mp hq)
      rw [hn] at hreject
      cases hreject
  goto := by
    -- a finished symbol leads on to where its items go
    intro q r k a hhas hsymbol ha
    have hadvances := advances_of_has (has_iff.mp hhas) hsymbol
    unfold advances at hadvances
    rw [if_neg (by rw [ha]; exact Bool.false_ne_true)] at hadvances
    simp only [Bool.and_eq_true, decide_eq_true_eq] at hadvances
    exact ⟨edge_iff.mp hadvances.1.1.1.1.1, hadvances.1.1.1.1.2⟩
  opens := by
    -- what a state opens, one of its items asks for
    intro q a ha
    have hq : q < 180 := by
      by_contra hq
      have hopens : report.opens q = [] := Rows.get_of_le [] (n := 18) (by decide) (by omega)
      rw [hopens] at ha
      cases ha
    have hopens := List.all_eq_true.mp (List.all_eq_true.mp checkOpens_all q (List.mem_range.mpr hq)) a ha
    simp only [Bool.or_eq_true, Bool.and_eq_true, beq_iff_eq, List.any_eq_true] at hopens
    refine hopens.imp_right ?_
    rintro ⟨⟨r, k⟩, hitem, hsymbol⟩
    exact ⟨r, k, has_iff.mpr (mem_itemsOf.mp hitem), hsymbol⟩
  accepts := decide_eq_true_iff
  start_notMem := start_notMem
  lhs_terminal := by
    intro r
    cases r <;> rfl
  weight_le := by
    -- the weights bound the reductions between two shifts
    intro q
    have hall : stateWeight.all (fun w _ => w ≤ 8) = true := by decide
    rcases Rows.all_get hall q 0 with hzero | hle
    · exact hzero.le.trans (by decide)
    · exact of_decide_eq_true hle
  weight_lt := by
    intro q r hhas haccepts
    have hfinishes := finishes_of_has (has_iff.mp hhas)
    unfold finishes at hfinishes
    have haccepts' : tables.accepts r = false := haccepts
    simp only [haccepts', Bool.false_or, Bool.and_eq_true, decide_eq_true_eq] at hfinishes
    exact hfinishes.1

/-- The tables do all that the report asks for. -/
theorem report_complete (ε : Type) : report.Complete (parser ε) where
  toSound := report_sound ε
  entry_opens := start_mem_opens
  start_last := by
    intro r h
    cases r <;> first | exact ⟨_, rfl, rfl⟩ | cases h
  advance := by
    -- a terminal behind the dot: the state shifts it
    intro q r k a hhas hsymbol ha
    have hadvances := advances_of_has (has_iff.mp hhas) hsymbol
    unfold advances at hadvances
    rw [if_pos ha, Bool.and_eq_true, Option.isNone_iff_eq_none] at hadvances
    obtain ⟨heager, haction⟩ := hadvances
    split at haction
    · rename_i q' hq'
      rw [Bool.and_eq_true, List.contains_iff_mem, subset_iff] at haction
      exact ⟨heager, q', hq', haction.1, haction.2⟩
    · cases haction
  cover := by
    -- a nonterminal behind the dot: the state has the rules for it
    intro q r k a hhas hsymbol ha
    have hadvances := advances_of_has (has_iff.mp hhas) hsymbol
    unfold advances at hadvances
    rw [if_neg (by rw [ha]; exact Bool.false_ne_true)] at hadvances
    simp only [Bool.and_eq_true, decide_eq_true_eq, List.contains_iff_mem, subset_iff, List.all_eq_true]
      at hadvances
    obtain ⟨⟨⟨⟨⟨-, -⟩, hitem⟩, hlooks⟩, hopens⟩, hfollow⟩ := hadvances
    refine ⟨hitem, hlooks, hopens, fun r' hr' => hfollow r' ?_⟩
    rw [← hr']
    exact mem_rulesOf r'
  finish := by
    -- a finished item: the state reduces, by default or on every token that may follow
    intro q r hhas
    have hfinishes := finishes_of_has (has_iff.mp hhas)
    unfold finishes at hfinishes
    rw [Bool.and_eq_true] at hfinishes
    have hlast := hfinishes.2
    split at hlast
    · rename_i r' heager
      rw [beq_iff_eq.mp hlast] at heager
      exact .inl heager
    · rename_i heager
      rw [Bool.and_eq_true, Bool.not_eq_true', List.all_eq_true] at hlast
      refine .inr ⟨heager, hlast.1, fun a ha => ?_⟩
      have haction := hlast.2 a ha
      split at haction
      · rename_i r' hr'
        rw [beq_iff_eq.mp haction] at hr'
        exact hr'
      · cases haction
  terminal_nullable := by
    intro a h
    cases a <;> first | rfl | cases h
  nullable := by
    intro r h
    cases r <;> first | rfl | exact absurd (h _ List.mem_cons_self) (by decide)
  first := by
    intro r
    exact subset_iff.mp (by cases r <;> rfl)

end Yacc

end Rmdb
