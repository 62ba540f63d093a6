import Rmdb.Parser.Report

namespace Rmdb

open Lib Ast

/-!
# The parser (`parser/yacc.tab.cpp`)

`yyparse` over its stacks.  A slot of the value stack keeps its value when it is popped, and so does `yylval`,
of which a token sets one member.  A rule with an empty right side begins with the value of the slot above the
stack, whatever that is, and two of these rules leave it as it is.

* `Yacc.SemValue` — all members of a value;
* `Yacc.switch` — the actions of the rules;
* `Yacc.yystep`, `Yacc.yyrun` — the loop.
-/

namespace Yacc

/-! ### Values -/

/-- `ast::SemValue`.  A pointer may be null; a list of pointers is a list of what they point to. -/
structure SemValue where
  svInt : Int
  svBigint : Int
  svFloat : Nat
  svDatetime : String
  svStr : String
  svStrs : List String
  svNode : Option TreeNode
  svCompOp : CompOp
  svTypeLen : Option TypeLen
  svField : Option ColDef
  svFields : List ColDef
  svExpr : Option Expr
  svVal : Option Ast.Value
  svVals : List Ast.Value
  svCol : Option Col
  svCols : List Col
  svSetClause : Option Ast.SetClause
  svSetClauses : List Ast.SetClause
  svCond : Option BinaryExpr
  svConds : List BinaryExpr
  svOrderbyDir : OrderByDir
  svOrderby : Option Ast.OrderBy
  svAggregateType : AggregateType
  svOrderbys : List Ast.OrderBy

/-- The member that the scanner sets for a token. -/
def Token.store (t : Token) (yylval : SemValue) : SemValue :=
  match t with
  | .plain _ _ => yylval
  | .identifier s => { yylval with svStr := s }
  | .valueString s => { yylval with svStr := s }
  | .valueInt n => { yylval with svInt := n }
  | .valueBigint n => { yylval with svBigint := n }
  | .valueFloat b => { yylval with svFloat := b }
  | .valueDatetime s => { yylval with svDatetime := s }

/-- Where an action leads: `YYACCEPT` with the tree it has stored, or on with `yyval`. -/
inductive Jump where
  | accept (parseTree : Option TreeNode)
  | next (yyval : SemValue)

/-- The actions.  `yyvsp i` is `yyvsp[-i]`, and `yyval` has the value of `$1` before the action.  No node is
    made of a null pointer here, and none is pushed to a list: the pointers that the rules use are not
    null. -/
def switch (r : Rule) (yyvsp : Nat → SemValue) (yyval : SemValue) : Jump :=
  match r with
  | .startStmt => .accept (yyvsp 1).svNode
  | .startHelp => .accept (some .help)
  | .startExit => .accept none
  | .startEof => .accept none
  | .stmtDb => .next yyval
  | .stmtDdl => .next yyval
  | .stmtDml => .next yyval
  | .stmtTxn => .next yyval
  | .txnBegin => .next { yyval with svNode := some .txnBegin }
  | .txnCommit => .next { yyval with svNode := some .txnCommit }
  | .txnAbort => .next { yyval with svNode := some .txnAbort }
  | .txnRollback => .next { yyval with svNode := some .txnRollback }
  | .showTables => .next { yyval with svNode := some .showTables }
  | .showIndex => .next { yyval with svNode := some (.showIndex (yyvsp 0).svStr) }
  | .createTable => .next { yyval with svNode := some (.createTable (yyvsp 3).svStr (yyvsp 1).svFields) }
  | .dropTable => .next { yyval with svNode := some (.dropTable (yyvsp 0).svStr) }
  | .descTable => .next { yyval with svNode := some (.descTable (yyvsp 0).svStr) }
  | .createIndex => .next { yyval with svNode := some (.createIndex (yyvsp 3).svStr (yyvsp 1).svStrs) }
  | .dropIndex => .next { yyval with svNode := some (.dropIndex (yyvsp 3).svStr (yyvsp 1).svStrs) }
  | .insert => .next { yyval with svNode := some (.insertStmt (yyvsp 4).svStr (yyvsp 1).svVals) }
  | .delete => .next { yyval with svNode := some (.deleteStmt (yyvsp 1).svStr (yyvsp 0).svConds) }
  | .update => .next { yyval with
      svNode := some (.updateStmt (yyvsp 3).svStr (yyvsp 1).svSetClauses (yyvsp 0).svConds) }
  | .select => .next { yyval with
      svNode := some (.selectStmt (.select (yyvsp 5).svCols (yyvsp 3).svStrs (yyvsp 2).svConds
        (yyvsp 1).svOrderbys (yyvsp 0).svInt)) }
  | .selectAggregate => .next { yyval with
      svNode := some (.selectStmt (.aggregate (yyvsp 6).svCols (yyvsp 1).svStrs (yyvsp 0).svConds
        (yyvsp 8).svAggregateType (yyvsp 3).svStr)) }
  | .load => .next { yyval with svNode := some (.loadStmt (yyvsp 2).svStr (yyvsp 0).svStr) }
  | .count => .next { yyval with svAggregateType := .count }
  | .max => .next { yyval with svAggregateType := .max }
  | .min => .next { yyval with svAggregateType := .min }
  | .sum => .next { yyval with svAggregateType := .sum }
  | .fieldListOne => .next { yyval with svFields := (yyvsp 0).svField.toList }
  | .fieldListMore => .next { yyval with svFields := yyval.svFields ++ (yyvsp 0).svField.toList }
  | .colNameListOne => .next { yyval with svStrs := [(yyvsp 0).svStr] }
  | .colNameListMore => .next { yyval with svStrs := yyval.svStrs ++ [(yyvsp 0).svStr] }
  | .field => .next { yyval with svField := (yyvsp 0).svTypeLen.map (ColDef.mk (yyvsp 1).svStr) }
  | .typeInt => .next { yyval with svTypeLen := some .int }
  | .typeBigint => .next { yyval with svTypeLen := some .bigint }
  | .typeChar => .next { yyval with svTypeLen := some (.char (yyvsp 1).svInt) }
  | .typeFloat => .next { yyval with svTypeLen := some .float }
  | .typeDatetime => .next { yyval with svTypeLen := some .datetime }
  | .valueListOne => .next { yyval with svVals := (yyvsp 0).svVal.toList }
  | .valueListMore => .next { yyval with svVals := yyval.svVals ++ (yyvsp 0).svVal.toList }
  | .valueInt => .next { yyval with svVal := some (.intLit (yyvsp 0).svInt) }
  | .valueBigint => .next { yyval with svVal := some (.bigintLit (yyvsp 0).svBigint) }
  | .valueFloat => .next { yyval with svVal := some (.floatLit (yyvsp 0).svFloat) }
  | .valueString => .next { yyval with svVal := some (.stringLit (yyvsp 0).svStr) }
  | .valueDatetime => .next { yyval with svVal := some (.datetimeLit (yyvsp 0).svDatetime) }
  | .condition => .next { yyval with
      svCond := do return ⟨← (yyvsp 2).svCol, (yyvsp 1).svCompOp, ← (yyvsp 0).svExpr⟩ }
  -- the value that lies above the stack stays
  | .optWhereNone => .next yyval
  | .optWhere => .next { yyval with svConds := (yyvsp 0).svConds }
  | .whereOne => .next { yyval with svConds := (yyvsp 0).svCond.toList }
  | .whereMore => .next { yyval with svConds := yyval.svConds ++ (yyvsp 0).svCond.toList }
  | .colOfTable => .next { yyval with svCol := some ⟨(yyvsp 2).svStr, (yyvsp 0).svStr⟩ }
  | .colAlone => .next { yyval with svCol := some ⟨"", (yyvsp 0).svStr⟩ }
  | .colListOne => .next { yyval with svCols := (yyvsp 0).svCol.toList }
  | .colListMore => .next { yyval with svCols := yyval.svCols ++ (yyvsp 0).svCol.toList }
  | .opEq => .next { yyval with svCompOp := .eq }
  | .opLt => .next { yyval with svCompOp := .lt }
  | .opGt => .next { yyval with svCompOp := .gt }
  | .opNe => .next { yyval with svCompOp := .ne }
  | .opLe => .next { yyval with svCompOp := .le }
  | .opGe => .next { yyval with svCompOp := .ge }
  | .exprValue => .next { yyval with svExpr := (yyvsp 0).svVal.map .value }
  | .exprCol => .next { yyval with svExpr := (yyvsp 0).svCol.map .col }
  | .setClausesOne => .next { yyval with svSetClauses := (yyvsp 0).svSetClause.toList }
  | .setClausesMore => .next { yyval with
      svSetClauses := yyval.svSetClauses ++ (yyvsp 0).svSetClause.toList }
  | .setClause => .next { yyval with
      svSetClause := (yyvsp 0).svVal.map fun v => ⟨(yyvsp 2).svStr, v, false⟩ }
  | .setClauseSelf => .next { yyval with
      svSetClause := (yyvsp 0).svVal.map fun v => ⟨(yyvsp 3).svStr, v, true⟩ }
  | .selectorAll => .next { yyval with svCols := [] }
  | .selectorCols => .next yyval
  | .tableListOne => .next { yyval with svStrs := [(yyvsp 0).svStr] }
  | .tableListMore => .next { yyval with svStrs := yyval.svStrs ++ [(yyvsp 0).svStr] }
  | .tableListJoin => .next { yyval with svStrs := yyval.svStrs ++ [(yyvsp 0).svStr] }
  | .optOrder => .next { yyval with svOrderbys := (yyvsp 0).svOrderbys }
  -- the value that lies above the stack stays
  | .optOrderNone => .next yyval
  | .optLimit => .next { yyval with svInt := (yyvsp 0).svInt }
  | .optLimitNone => .next { yyval with svInt := -1 }
  | .orderListOne => .next { yyval with svOrderbys := (yyvsp 0).svOrderby.toList }
  | .orderListMore => .next { yyval with svOrderbys := yyval.svOrderbys ++ (yyvsp 0).svOrderby.toList }
  | .orderClause => .next { yyval with
      svOrderby := (yyvsp 1).svCol.map fun c => ⟨c, (yyvsp 0).svOrderbyDir⟩ }
  | .dirAsc => .next { yyval with svOrderbyDir := .asc }
  | .dirDesc => .next { yyval with svOrderbyDir := .desc }
  | .dirDefault => .next { yyval with svOrderbyDir := .default }
  | .tbName => .next yyval
  | .colName => .next yyval
  | .pathFilename => .next { yyval with svStr := (yyvsp 0).svStr }
  | .pathDot => .next { yyval with svStr := (yyvsp 2).svStr ++ "." ++ (yyvsp 0).svStr }
  | .pathSlash => .next { yyval with svStr := (yyvsp 2).svStr ++ "/" ++ (yyvsp 0).svStr }
  | .pathUp => .next { yyval with svStr := "../" ++ (yyvsp 0).svStr }
  | .pathHere => .next { yyval with svStr := "./" ++ (yyvsp 0).svStr }
  | .filename => .next yyval

/-! ### The loop -/

/-- The variables of `yyparse`, the tokens that `yylex` is going to return, and `ast::parse_tree`.  The states
    are listed from the top of the stack on. -/
structure YyState (ε : Type) where
  yyss : List Nat
  yyvsa : Nat → SemValue
  /-- The index of the top of the value stack. -/
  yyvsp : Nat
  /-- The lookahead token; none for `YYEMPTY`. -/
  yychar : Option Token
  yylval : SemValue
  input : List (Except ε Token)
  parseTree : Option TreeNode

/-- How `yyparse` ends. -/
inductive YyResult (ε : Type) where
  /-- It returns this number, and leaves this in `ast::parse_tree`. -/
  | returned (yyresult : Nat) (parseTree : Option TreeNode)
  /-- `yylex` throws. -/
  | thrown (e : ε)
  /-- `yylex` is called once more behind the listed tokens. -/
  | starved
  /-- A point that no run comes to: the error token is shifted, or `$accept` is reduced. -/
  | unreached

variable {ε : Type}

/-- The state that shifts the error token, from `yyerrlab1`. -/
def yyerrlab1 : List Nat → Option Nat
  | [] => none
  | state :: yyss =>
    let yyn := yypact.get state YYPACT_NINF + SymbolKind.YYerror.num
    if ¬pactIsDefault state ∧ 0 ≤ yyn ∧ yyn ≤ YYLAST ∧
        yycheck.get yyn.toNat 0 = SymbolKind.YYerror.num ∧ 0 < yytable.get yyn.toNat 0 then
      some (yytable.get yyn.toNat 0).toNat
    else yyerrlab1 yyss

/-- `yyerrlab`: the stack is unwound. -/
def yyerrlab (s : YyState ε) : YyResult ε :=
  match yyerrlab1 s.yyss with
  | some _ => .unreached
  | none => .returned 1 s.parseTree

/-- `yysetstate`: the stack must have room for one more. -/
def yysetstate (s : YyState ε) : YyState ε ⊕ YyResult ε :=
  if YYINITDEPTH - 1 ≤ s.yyss.length - 1 then .inr (.returned 2 s.parseTree)
  else if s.yyss.headD 0 = YYFINAL then .inr (.returned 0 s.parseTree)
  else .inl s

/-- Write the slot above the top, and raise the top to it. -/
def YyState.push (s : YyState ε) (v : SemValue) (state : Nat) : YyState ε :=
  { s with yyss := state :: s.yyss, yyvsp := s.yyvsp + 1, yyvsa := Function.update s.yyvsa (s.yyvsp + 1) v }

/-- `YYPOPSTACK`. -/
def YyState.popstack (s : YyState ε) (n : Nat) : YyState ε :=
  { s with yyss := s.yyss.drop n, yyvsp := s.yyvsp - n }

/-- `yyreduce`. -/
def yyreduce (s : YyState ε) (yyn : Nat) : YyState ε ⊕ YyResult ε :=
  match Rule.ofNum yyn with
  | none => .inr .unreached
  | some r =>
    let yylen := yyr2.get yyn 0
    let yyval := s.yyvsa (s.yyvsp + 1 - yylen)
    match switch r (fun i => s.yyvsa (s.yyvsp - i)) yyval with
    | .accept tree => .inr (.returned 0 tree)
    | .next yyval =>
      let s := s.popstack yylen
      yysetstate (s.push yyval (yygoto (s.yyss.headD 0) (yyr1.get yyn 0)))

/-- The lookahead, read if there is none. -/
def YyState.lookahead (s : YyState ε) : YyResult ε ⊕ YyState ε × Token :=
  match s.yychar with
  | some t => .inr (s, t)
  | none =>
    match s.input with
    | [] => .inl .starved
    | .error e :: _ => .inl (.thrown e)
    | .ok t :: input => .inr ({ s with yychar := some t, yylval := t.store s.yylval, input := input }, t)

/-- One round, from `yybackup` to `yysetstate`. -/
def yystep (s : YyState ε) : YyState ε ⊕ YyResult ε :=
  let state := s.yyss.headD 0
  if pactIsDefault state then
    if yydefact.get state 0 = 0 then .inr (yyerrlab s) else yyreduce s (yydefact.get state 0)
  else
    match s.lookahead with
    | .inl o => .inr o
    | .inr (s, t) =>
      match yyaction state t.kind.num with
      | .shift state' => yysetstate { s.push s.yylval state' with yychar := none }
      | .reduce n => yyreduce s n
      | .reject => .inr (yyerrlab s)

/-- The loop, as long as there is fuel. -/
def yyrun : Nat → YyState ε → Option (YyResult ε)
  | 0, _ => none
  | fuel + 1, s =>
    match yystep s with
    | .inl s' => yyrun fuel s'
    | .inr o => some o

/-- The state at the start, where the slots and `yylval` are as they were constructed. -/
def YyState.init (yyvsa : Nat → SemValue) (yylval : SemValue) (parseTree : Option TreeNode)
    (input : List (Except ε Token)) : YyState ε where
  yyss := [0]
  yyvsa := yyvsa
  yyvsp := 0
  yychar := none
  yylval := yylval
  input := input
  parseTree := parseTree

/-- `yyparse`, with fuel for all the rounds that there may be. -/
def yyparse (yyvsa : Nat → SemValue) (yylval : SemValue) (parseTree : Option TreeNode)
    (input : List (Except ε Token)) : Option (YyResult ε) :=
  yyrun (10 * input.length + 1) (.init yyvsa yylval parseTree input)

end Yacc

end Rmdb
