import Mathlib.Tactic.CasesM
import Rmdb.Lib.ShiftReduce
import Rmdb.Parser.Ast

namespace Rmdb

open Lib Ast

/-!
# The grammar (`parser/yacc.y`)

The rules of the grammar and what they compute.  A value is one member of `SemValue`: the one that `%type`
and `%token` declare for the symbol.

* `Yacc.SymbolKind` — the symbols in the order of `yysymbol_kind_t`;
* `Yacc.Rule.production`, `Yacc.Rule.act` — the rules in the order of the grammar, and their actions;
* `Yacc.Token` — what `yylex` returns;
* `Yacc.Sem.Fits`, `Yacc.derives_fits` — every symbol has a value of its type.
-/

namespace Yacc

/-- `yysymbol_kind_t`: the tokens, and from `acceptSymbol` on the other symbols. -/
inductive SymbolKind where
  | YYEOF | YYerror | YYUNDEF | SHOW | TABLES | CREATE | TABLE | DROP | DESC | INSERT | INTO | VALUES
  | DELETE | FROM | ASC | ORDER | BY | LOAD | LIMIT | WHERE | UPDATE | SET | SELECT | INT | CHAR | FLOAT
  | BIGINT | DATETIME | INDEX | AND | JOIN | EXIT | HELP | TXN_BEGIN | TXN_COMMIT | TXN_ABORT
  | TXN_ROLLBACK | ORDER_BY | COUNT | MAX | MIN | SUM | AS | LEQ | NEQ | GEQ | T_EOF | IDENTIFIER
  | VALUE_STRING | VALUE_INT | VALUE_BIGINT | VALUE_FLOAT | VALUE_DATETIME | semicolon | lparen | rparen
  | comma | dot | equal | less | greater | star | slash | acceptSymbol | start | stmt | txnStmt | dbStmt
  | ddl | dml | aggregateFunction | fieldList | colNameList | field | type | valueList | value
  | condition | optWhereClause | whereClause | col | colList | op | expr | setClauses | setClause
  | selector | tableList | optOrderClause | optLimit | orderClauseList | orderClause | optAscDesc
  | tbName | colName | path | filename
  deriving DecidableEq, Repr

namespace SymbolKind

/-- The number of the symbol. -/
def num (k : SymbolKind) : Nat := k.ctorIdx

/-- A token: the number is below `YYNTOKENS`. -/
def isToken (k : SymbolKind) : Bool := k.num < 63

/-- The tokens of a type. -/
def typed : List SymbolKind :=
  [.IDENTIFIER, .VALUE_STRING, .VALUE_INT, .VALUE_BIGINT, .VALUE_FLOAT, .VALUE_DATETIME]

/-- The tokens without a value that `yylex` may return. -/
def isPlain (k : SymbolKind) : Bool := k.isToken && k ∉ typed && k ∉ [.YYEOF, .YYerror]

end SymbolKind

/-- The rules but for `$accept`. -/
inductive Rule where
  | startStmt | startHelp | startExit | startEof | stmtDb | stmtDdl | stmtDml | stmtTxn | txnBegin
  | txnCommit | txnAbort | txnRollback | showTables | showIndex | createTable | dropTable | descTable
  | createIndex | dropIndex | insert | delete | update | select | selectAggregate | load | count | max
  | min | sum | fieldListOne | fieldListMore | colNameListOne | colNameListMore | field | typeInt
  | typeBigint | typeChar | typeFloat | typeDatetime | valueListOne | valueListMore | valueInt
  | valueBigint | valueFloat | valueString | valueDatetime | condition | optWhereNone | optWhere
  | whereOne | whereMore | colOfTable | colAlone | colListOne | colListMore | opEq | opLt | opGt | opNe
  | opLe | opGe | exprValue | exprCol | setClausesOne | setClausesMore | setClause | setClauseSelf
  | selectorAll | selectorCols | tableListOne | tableListMore | tableListJoin | optOrder | optOrderNone
  | optLimit | optLimitNone | orderListOne | orderListMore | orderClause | dirAsc | dirDesc | dirDefault
  | tbName | colName | pathFilename | pathDot | pathSlash | pathUp | pathHere | filename
  deriving DecidableEq, Repr

/-- A value: the member of `SemValue` that goes with the type of the symbol. -/
inductive Sem where
  /-- A symbol without a type. -/
  | none
  | svInt (n : Int)
  | svBigint (n : Int)
  | svFloat (bits : Nat)
  | svDatetime (s : String)
  | svStr (s : String)
  | svStrs (l : List String)
  | svNode (n : TreeNode)
  | svCompOp (op : CompOp)
  | svTypeLen (t : TypeLen)
  | svField (f : ColDef)
  | svFields (l : List ColDef)
  | svExpr (e : Expr)
  | svVal (v : Ast.Value)
  | svVals (l : List Ast.Value)
  | svCol (c : Col)
  | svCols (l : List Col)
  | svSetClause (c : Ast.SetClause)
  | svSetClauses (l : List Ast.SetClause)
  | svCond (c : BinaryExpr)
  | svConds (l : List BinaryExpr)
  | svOrderbyDir (d : OrderByDir)
  | svOrderby (o : Ast.OrderBy)
  | svOrderbys (l : List Ast.OrderBy)
  | svAggregateType (t : AggregateType)
  /-- `parse_tree`, that the rules of `start` assign to. -/
  | parseTree (tree : Option TreeNode)
  deriving DecidableEq, Repr

namespace Rule

/-- The left side and the right side. -/
def production : Rule → SymbolKind × List SymbolKind
  | .startStmt => (.start, [.stmt, .semicolon])
  | .startHelp => (.start, [.HELP])
  | .startExit => (.start, [.EXIT])
  | .startEof => (.start, [.T_EOF])
  | .stmtDb => (.stmt, [.dbStmt])
  | .stmtDdl => (.stmt, [.ddl])
  | .stmtDml => (.stmt, [.dml])
  | .stmtTxn => (.stmt, [.txnStmt])
  | .txnBegin => (.txnStmt, [.TXN_BEGIN])
  | .txnCommit => (.txnStmt, [.TXN_COMMIT])
  | .txnAbort => (.txnStmt, [.TXN_ABORT])
  | .txnRollback => (.txnStmt, [.TXN_ROLLBACK])
  | .showTables => (.dbStmt, [.SHOW, .TABLES])
  | .showIndex => (.dbStmt, [.SHOW, .INDEX, .FROM, .tbName])
  | .createTable => (.ddl, [.CREATE, .TABLE, .tbName, .lparen, .fieldList, .rparen])
  | .dropTable => (.ddl, [.DROP, .TABLE, .tbName])
  | .descTable => (.ddl, [.DESC, .tbName])
  | .createIndex => (.ddl, [.CREATE, .INDEX, .tbName, .lparen, .colNameList, .rparen])
  | .dropIndex => (.ddl, [.DROP, .INDEX, .tbName, .lparen, .colNameList, .rparen])
  | .insert => (.dml, [.INSERT, .INTO, .tbName, .VALUES, .lparen, .valueList, .rparen])
  | .delete => (.dml, [.DELETE, .FROM, .tbName, .optWhereClause])
  | .update => (.dml, [.UPDATE, .tbName, .SET, .setClauses, .optWhereClause])
  | .select => (.dml, [.SELECT, .selector, .FROM, .tableList, .optWhereClause, .optOrderClause, .optLimit])
  | .selectAggregate => (.dml, [.SELECT, .aggregateFunction, .lparen, .selector, .rparen, .AS,
      .colName, .FROM, .tableList, .optWhereClause])
  | .load => (.dml, [.LOAD, .path, .INTO, .tbName])
  | .count => (.aggregateFunction, [.COUNT])
  | .max => (.aggregateFunction, [.MAX])
  | .min => (.aggregateFunction, [.MIN])
  | .sum => (.aggregateFunction, [.SUM])
  | .fieldListOne => (.fieldList, [.field])
  | .fieldListMore => (.fieldList, [.fieldList, .comma, .field])
  | .colNameListOne => (.colNameList, [.colName])
  | .colNameListMore => (.colNameList, [.colNameList, .comma, .colName])
  | .field => (.field, [.colName, .type])
  | .typeInt => (.type, [.INT])
  | .typeBigint => (.type, [.BIGINT])
  | .typeChar => (.type, [.CHAR, .lparen, .VALUE_INT, .rparen])
  | .typeFloat => (.type, [.FLOAT])
  | .typeDatetime => (.type, [.DATETIME])
  | .valueListOne => (.valueList, [.value])
  | .valueListMore => (.valueList, [.valueList, .comma, .value])
  | .valueInt => (.value, [.VALUE_INT])
  | .valueBigint => (.value, [.VALUE_BIGINT])
  | .valueFloat => (.value, [.VALUE_FLOAT])
  | .valueString => (.value, [.VALUE_STRING])
  | .valueDatetime => (.value, [.VALUE_DATETIME])
  | .condition => (.condition, [.col, .op, .expr])
  | .optWhereNone => (.optWhereClause, [])
  | .optWhere => (.optWhereClause, [.WHERE, .whereClause])
  | .whereOne => (.whereClause, [.condition])
  | .whereMore => (.whereClause, [.whereClause, .AND, .condition])
  | .colOfTable => (.col, [.tbName, .dot, .colName])
  | .colAlone => (.col, [.colName])
  | .colListOne => (.colList, [.col])
  | .colListMore => (.colList, [.colList, .comma, .col])
  | .opEq => (.op, [.equal])
  | .opLt => (.op, [.less])
  | .opGt => (.op, [.greater])
  | .opNe => (.op, [.NEQ])
  | .opLe => (.op, [.LEQ])
  | .opGe => (.op, [.GEQ])
  | .exprValue => (.expr, [.value])
  | .exprCol => (.expr, [.col])
  | .setClausesOne => (.setClauses, [.setClause])
  | .setClausesMore => (.setClauses, [.setClauses, .comma, .setClause])
  | .setClause => (.setClause, [.colName, .equal, .value])
  | .setClauseSelf => (.setClause, [.colName, .equal, .colName, .value])
  | .selectorAll => (.selector, [.star])
  | .selectorCols => (.selector, [.colList])
  | .tableListOne => (.tableList, [.tbName])
  | .tableListMore => (.tableList, [.tableList, .comma, .tbName])
  | .tableListJoin => (.tableList, [.tableList, .JOIN, .tbName])
  | .optOrder => (.optOrderClause, [.ORDER, .BY, .orderClauseList])
  | .optOrderNone => (.optOrderClause, [])
  | .optLimit => (.optLimit, [.LIMIT, .VALUE_INT])
  | .optLimitNone => (.optLimit, [])
  | .orderListOne => (.orderClauseList, [.orderClause])
  | .orderListMore => (.orderClauseList, [.orderClauseList, .comma, .orderClause])
  | .orderClause => (.orderClause, [.col, .optAscDesc])
  | .dirAsc => (.optAscDesc, [.ASC])
  | .dirDesc => (.optAscDesc, [.DESC])
  | .dirDefault => (.optAscDesc, [])
  | .tbName => (.tbName, [.IDENTIFIER])
  | .colName => (.colName, [.IDENTIFIER])
  | .pathFilename => (.path, [.filename])
  | .pathDot => (.path, [.filename, .dot, .filename])
  | .pathSlash => (.path, [.filename, .slash, .path])
  | .pathUp => (.path, [.dot, .dot, .slash, .path])
  | .pathHere => (.path, [.dot, .slash, .path])
  | .filename => (.filename, [.IDENTIFIER])

/-- The action, from the values of the right side.  It is not asked for other values. -/
def act : Rule → List Sem → Sem
  | .startStmt, [.svNode n, _] => .parseTree (some n)
  | .startHelp, _ => .parseTree (some .help)
  | .startExit, _ => .parseTree none
  | .startEof, _ => .parseTree none
  | .stmtDb, [v] => v
  | .stmtDdl, [v] => v
  | .stmtDml, [v] => v
  | .stmtTxn, [v] => v
  | .txnBegin, _ => .svNode .txnBegin
  | .txnCommit, _ => .svNode .txnCommit
  | .txnAbort, _ => .svNode .txnAbort
  | .txnRollback, _ => .svNode .txnRollback
  | .showTables, _ => .svNode .showTables
  | .showIndex, [_, _, _, .svStr tab] => .svNode (.showIndex tab)
  | .createTable, [_, _, .svStr tab, _, .svFields fields, _] => .svNode (.createTable tab fields)
  | .dropTable, [_, _, .svStr tab] => .svNode (.dropTable tab)
  | .descTable, [_, .svStr tab] => .svNode (.descTable tab)
  | .createIndex, [_, _, .svStr tab, _, .svStrs cols, _] => .svNode (.createIndex tab cols)
  | .dropIndex, [_, _, .svStr tab, _, .svStrs cols, _] => .svNode (.dropIndex tab cols)
  | .insert, [_, _, .svStr tab, _, _, .svVals vals, _] => .svNode (.insertStmt tab vals)
  | .delete, [_, _, .svStr tab, .svConds conds] => .svNode (.deleteStmt tab conds)
  | .update, [_, .svStr tab, _, .svSetClauses sets, .svConds conds] => .svNode (.updateStmt tab sets conds)
  | .select, [_, .svCols cols, _, .svStrs tabs, .svConds conds, .svOrderbys orders, .svInt limit] =>
    .svNode (.selectStmt (.select cols tabs conds orders limit))
  | .selectAggregate, [_, .svAggregateType agg, _, .svCols cols, _, _, .svStr name, _, .svStrs tabs,
      .svConds conds] => .svNode (.selectStmt (.aggregate cols tabs conds agg name))
  | .load, [_, .svStr path, _, .svStr tab] => .svNode (.loadStmt path tab)
  | .count, _ => .svAggregateType .count
  | .max, _ => .svAggregateType .max
  | .min, _ => .svAggregateType .min
  | .sum, _ => .svAggregateType .sum
  | .fieldListOne, [.svField f] => .svFields [f]
  | .fieldListMore, [.svFields l, _, .svField f] => .svFields (l ++ [f])
  | .colNameListOne, [.svStr s] => .svStrs [s]
  | .colNameListMore, [.svStrs l, _, .svStr s] => .svStrs (l ++ [s])
  | .field, [.svStr name, .svTypeLen t] => .svField ⟨name, t⟩
  | .typeInt, _ => .svTypeLen .int
  | .typeBigint, _ => .svTypeLen .bigint
  | .typeChar, [_, _, .svInt n, _] => .svTypeLen (.char n)
  | .typeFloat, _ => .svTypeLen .float
  | .typeDatetime, _ => .svTypeLen .datetime
  | .valueListOne, [.svVal v] => .svVals [v]
  | .valueListMore, [.svVals l, _, .svVal v] => .svVals (l ++ [v])
  | .valueInt, [.svInt n] => .svVal (.intLit n)
  | .valueBigint, [.svBigint n] => .svVal (.bigintLit n)
  | .valueFloat, [.svFloat b] => .svVal (.floatLit b)
  | .valueString, [.svStr s] => .svVal (.stringLit s)
  | .valueDatetime, [.svDatetime s] => .svVal (.datetimeLit s)
  | .condition, [.svCol c, .svCompOp op, .svExpr e] => .svCond ⟨c, op, e⟩
  | .optWhereNone, _ => .svConds []
  | .optWhere, [_, .svConds l] => .svConds l
  | .whereOne, [.svCond c] => .svConds [c]
  | .whereMore, [.svConds l, _, .svCond c] => .svConds (l ++ [c])
  | .colOfTable, [.svStr tab, _, .svStr name] => .svCol ⟨tab, name⟩
  | .colAlone, [.svStr name] => .svCol ⟨"", name⟩
  | .colListOne, [.svCol c] => .svCols [c]
  | .colListMore, [.svCols l, _, .svCol c] => .svCols (l ++ [c])
  | .opEq, _ => .svCompOp .eq
  | .opLt, _ => .svCompOp .lt
  | .opGt, _ => .svCompOp .gt
  | .opNe, _ => .svCompOp .ne
  | .opLe, _ => .svCompOp .le
  | .opGe, _ => .svCompOp .ge
  | .exprValue, [.svVal v] => .svExpr (.value v)
  | .exprCol, [.svCol c] => .svExpr (.col c)
  | .setClausesOne, [.svSetClause c] => .svSetClauses [c]
  | .setClausesMore, [.svSetClauses l, _, .svSetClause c] => .svSetClauses (l ++ [c])
  | .setClause, [.svStr name, _, .svVal v] => .svSetClause ⟨name, v, false⟩
  | .setClauseSelf, [.svStr name, _, _, .svVal v] => .svSetClause ⟨name, v, true⟩
  | .selectorAll, _ => .svCols []
  | .selectorCols, [v] => v
  | .tableListOne, [.svStr s] => .svStrs [s]
  | .tableListMore, [.svStrs l, _, .svStr s] => .svStrs (l ++ [s])
  | .tableListJoin, [.svStrs l, _, .svStr s] => .svStrs (l ++ [s])
  | .optOrder, [_, _, .svOrderbys l] => .svOrderbys l
  | .optOrderNone, _ => .svOrderbys []
  | .optLimit, [_, .svInt n] => .svInt n
  | .optLimitNone, _ => .svInt (-1)
  | .orderListOne, [.svOrderby o] => .svOrderbys [o]
  | .orderListMore, [.svOrderbys l, _, .svOrderby o] => .svOrderbys (l ++ [o])
  | .orderClause, [.svCol c, .svOrderbyDir d] => .svOrderby ⟨c, d⟩
  | .dirAsc, _ => .svOrderbyDir .asc
  | .dirDesc, _ => .svOrderbyDir .desc
  | .dirDefault, _ => .svOrderbyDir .default
  | .tbName, [v] => v
  | .colName, [v] => v
  | .pathFilename, [v] => v
  | .pathDot, [.svStr s, _, .svStr t] => .svStr (s ++ "." ++ t)
  | .pathSlash, [.svStr s, _, .svStr t] => .svStr (s ++ "/" ++ t)
  | .pathUp, [_, _, _, .svStr t] => .svStr ("../" ++ t)
  | .pathHere, [_, _, .svStr t] => .svStr ("./" ++ t)
  | .filename, [v] => v
  | _, _ => .none

end Rule

/-- What `yylex` returns, with the member of `yylval` that goes with it. -/
inductive Token where
  | plain (kind : SymbolKind) (h : kind.isPlain = true)
  | identifier (svStr : String)
  | valueString (svStr : String)
  | valueInt (svInt : Int)
  | valueBigint (svBigint : Int)
  | valueFloat (svFloat : Nat)
  | valueDatetime (svDatetime : String)
  deriving DecidableEq, Repr

namespace Token

/-- The symbol. -/
def kind : Token → SymbolKind
  | .plain kind _ => kind
  | .identifier _ => .IDENTIFIER
  | .valueString _ => .VALUE_STRING
  | .valueInt _ => .VALUE_INT
  | .valueBigint _ => .VALUE_BIGINT
  | .valueFloat _ => .VALUE_FLOAT
  | .valueDatetime _ => .VALUE_DATETIME

/-- The value. -/
def value : Token → Sem
  | .plain _ _ => .none
  | .identifier s => .svStr s
  | .valueString s => .svStr s
  | .valueInt n => .svInt n
  | .valueBigint n => .svBigint n
  | .valueFloat b => .svFloat b
  | .valueDatetime s => .svDatetime s

end Token

/-- The grammar.  An exception of `yylex` is a token that cannot be read. -/
def grammar (ε : Type) : Grammar SymbolKind Rule (Except ε Token) Sem where
  lhs r := r.production.1
  rhs r := r.production.2
  act := Rule.act
  kind
    | .ok t => some t.kind
    | .error _ => none
  value
    | .ok t => t.value
    | .error _ => .none

/-! ### Types -/

/-- The members of `SemValue`, and `parse_tree`. -/
inductive Member where
  | none | svInt | svBigint | svFloat | svDatetime | svStr | svStrs | svNode | svCompOp | svTypeLen | svField
  | svFields | svExpr | svVal | svVals | svCol | svCols | svSetClause | svSetClauses | svCond | svConds
  | svOrderbyDir | svOrderby | svOrderbys | svAggregateType | parseTree
  deriving DecidableEq, Repr

/-- The declarations `%token` and `%type`. -/
def SymbolKind.member : SymbolKind → Member
  | .IDENTIFIER | .VALUE_STRING => .svStr
  | .VALUE_INT => .svInt
  | .VALUE_BIGINT => .svBigint
  | .VALUE_FLOAT => .svFloat
  | .VALUE_DATETIME => .svDatetime
  | .stmt | .dbStmt | .ddl | .dml | .txnStmt => .svNode
  | .field => .svField
  | .fieldList => .svFields
  | .type => .svTypeLen
  | .op => .svCompOp
  | .expr => .svExpr
  | .value => .svVal
  | .valueList => .svVals
  | .tbName | .colName | .path | .filename => .svStr
  | .tableList | .colNameList => .svStrs
  | .col => .svCol
  | .colList | .selector => .svCols
  | .setClause => .svSetClause
  | .setClauses => .svSetClauses
  | .condition => .svCond
  | .whereClause | .optWhereClause => .svConds
  | .orderClause => .svOrderby
  | .optAscDesc => .svOrderbyDir
  | .aggregateFunction => .svAggregateType
  | .optLimit => .svInt
  | .orderClauseList | .optOrderClause => .svOrderbys
  | .start => .parseTree
  | _ => .none

/-- The value is this member. -/
def Sem.Is (v : Sem) : Member → Prop
  | .none => v = .none
  | .svInt => ∃ n, v = .svInt n
  | .svBigint => ∃ n, v = .svBigint n
  | .svFloat => ∃ b, v = .svFloat b
  | .svDatetime => ∃ s, v = .svDatetime s
  | .svStr => ∃ s, v = .svStr s
  | .svStrs => ∃ l, v = .svStrs l
  | .svNode => ∃ n, v = .svNode n
  | .svCompOp => ∃ op, v = .svCompOp op
  | .svTypeLen => ∃ t, v = .svTypeLen t
  | .svField => ∃ f, v = .svField f
  | .svFields => ∃ l, v = .svFields l
  | .svExpr => ∃ e, v = .svExpr e
  | .svVal => ∃ x, v = .svVal x
  | .svVals => ∃ l, v = .svVals l
  | .svCol => ∃ c, v = .svCol c
  | .svCols => ∃ l, v = .svCols l
  | .svSetClause => ∃ c, v = .svSetClause c
  | .svSetClauses => ∃ l, v = .svSetClauses l
  | .svCond => ∃ c, v = .svCond c
  | .svConds => ∃ l, v = .svConds l
  | .svOrderbyDir => ∃ d, v = .svOrderbyDir d
  | .svOrderby => ∃ o, v = .svOrderby o
  | .svOrderbys => ∃ l, v = .svOrderbys l
  | .svAggregateType => ∃ t, v = .svAggregateType t
  | .parseTree => ∃ tree, v = .parseTree tree

/-- The value is of the type of the symbol. -/
def Sem.Fits (k : SymbolKind) (v : Sem) : Prop := v.Is k.member

/-- A rule makes a value of its type. -/
theorem act_fits {r : Rule} {vs : List Sem} (h : List.Forall₂ Sem.Fits r.production.2 vs) :
    (r.act vs).Fits r.production.1 := by
  cases r
  all_goals
    -- the values of the right side, one by one
    repeat
      obtain _ | ⟨hv, h⟩ := h
      first | obtain ⟨_, rfl⟩ := hv | obtain rfl := hv | skip
    exact ⟨_, rfl⟩

theorem isPlain_member {k : SymbolKind} (h : k.isPlain = true) : k.member = .none := by
  cases k <;> first | rfl | cases h

theorem Token.value_fits (t : Token) : t.value.Fits t.kind := by
  cases t with
  | plain kind h =>
    show Sem.Is Sem.none kind.member
    rw [isPlain_member h]
    rfl
  | _ => exact ⟨_, rfl⟩

/-- In a derivation every symbol has a value of its type. -/
theorem derives_fits {ε : Type} {ss : List SymbolKind} {ts : List (Except ε Token)} {vs : List Sem}
    {d : Nat}
    (h : (grammar ε).Derives ss ts vs d) : List.Forall₂ Sem.Fits ss vs := by
  induction h with
  | nil => exact .nil
  | @token a t ss ts vs d hkind hrest ih =>
    cases t with
    | ok t =>
      obtain rfl := Option.some.inj hkind
      exact .cons t.value_fits ih
    | error e => cases hkind
  | rule hrhs hrest ihrhs ihrest => exact .cons (act_fits ihrhs) ihrest

end Yacc

end Rmdb
