import Mathlib.Data.List.Induction
import Rmdb.Lib.JoinedWords
import Rmdb.Parser.Statements

namespace Rmdb

open Lib Ast

/-!
# The tokens of a tree (`parser/yacc.y`)

A tree is written down as tokens, and `yyparse` makes the same tree of them.  What the parser leaves out of
the tree is left out: a `JOIN` is a comma, and a `SET col = col val` names its column twice.

* `Yacc.tokens` — the tokens of a statement;
* `Yacc.Writable` — the trees that the grammar has tokens for;
* `Yacc.LoadPath` — the paths of `LOAD`, and how far the stack rises over them;
* `Yacc.yyparse_tokens` — the tokens are parsed back to the tree;
* `Yacc.writable_of_returned` — the parser makes writable trees only.
-/

namespace Yacc

/-! ### Writing -/

section Tokens

variable {α : Type}

/-- The tokens of some items, with one token between each two. -/
def listed (sep : SymbolKind) (h : sep.isPlain = true) (t : α → List Token) : List α → List Token
  | [] => []
  | x :: xs => joined (.plain sep h) (t x) (xs.map t)

def nameTokens (s : String) : List Token := [.identifier s]

def namesTokens (l : List String) : List Token := listed .comma rfl nameTokens l

def colTokens (c : Col) : List Token :=
  if c.tabName = "" then [.identifier c.colName]
  else [.identifier c.tabName, .plain .dot rfl, .identifier c.colName]

def valueTokens : Ast.Value → List Token
  | .intLit n => [.valueInt n]
  | .bigintLit n => [.valueBigint n]
  | .floatLit b => [.valueFloat b]
  | .stringLit s => [.valueString s]
  | .datetimeLit s => [.valueDatetime s]

def typeTokens : TypeLen → List Token
  | .int => [.plain .INT rfl]
  | .bigint => [.plain .BIGINT rfl]
  | .char n => [.plain .CHAR rfl, .plain .lparen rfl, .valueInt n, .plain .rparen rfl]
  | .float => [.plain .FLOAT rfl]
  | .datetime => [.plain .DATETIME rfl]

def fieldTokens (f : ColDef) : List Token := .identifier f.colName :: typeTokens f.typeLen

def opTokens : CompOp → List Token
  | .eq => [.plain .equal rfl]
  | .lt => [.plain .less rfl]
  | .gt => [.plain .greater rfl]
  | .ne => [.plain .NEQ rfl]
  | .le => [.plain .LEQ rfl]
  | .ge => [.plain .GEQ rfl]

def exprTokens : Expr → List Token
  | .value v => valueTokens v
  | .col c => colTokens c

def conditionTokens (c : BinaryExpr) : List Token := colTokens c.lhs ++ (opTokens c.op ++ exprTokens c.rhs)

def whereTokens : List BinaryExpr → List Token
  | [] => []
  | c :: cs => .plain .WHERE rfl :: listed .AND rfl conditionTokens (c :: cs)

def setClauseTokens (c : Ast.SetClause) : List Token :=
  .identifier c.colName :: .plain .equal rfl ::
    ((if c.isSelfadd then [.identifier c.colName] else []) ++ valueTokens c.val)

def ascDescTokens : OrderByDir → List Token
  | .asc => [.plain .ASC rfl]
  | .desc => [.plain .DESC rfl]
  | .default => []

def orderTokens (o : Ast.OrderBy) : List Token := colTokens o.col ++ ascDescTokens o.orderbyDir

def ordersTokens : List Ast.OrderBy → List Token
  | [] => []
  | o :: os => .plain .ORDER rfl :: .plain .BY rfl :: listed .comma rfl orderTokens (o :: os)

def limitTokens (n : Int) : List Token := if n = -1 then [] else [.plain .LIMIT rfl, .valueInt n]

def selectorTokens : List Col → List Token
  | [] => [.plain .star rfl]
  | c :: cs => listed .comma rfl colTokens (c :: cs)

def aggregateTokens : AggregateType → List Token
  | .none => []
  | .count => [.plain .COUNT rfl]
  | .max => [.plain .MAX rfl]
  | .min => [.plain .MIN rfl]
  | .sum => [.plain .SUM rfl]

/-- The token of the name that has been read, if there is one. -/
def endName (name : List Char) : List Token := if name = [] then [] else [.identifier (String.ofList name)]

/-- The tokens of a path: each dot and each slash, and a name for what lies between them. -/
def pathTokens (name : List Char) : List Char → List Token
  | [] => endName name
  | c :: cs =>
    if c = '.' then endName name ++ .plain .dot rfl :: pathTokens [] cs
    else if c = '/' then endName name ++ .plain .slash rfl :: pathTokens [] cs
    else pathTokens (name ++ [c]) cs

def selectTokens (s : SelectStmt) : List Token :=
  if s.aggregateType = .none then
    .plain .SELECT rfl :: (selectorTokens s.cols ++ .plain .FROM rfl :: (namesTokens s.tabs ++
      (whereTokens s.conds ++ (ordersTokens s.orders ++ limitTokens s.limit))))
  else
    .plain .SELECT rfl :: (aggregateTokens s.aggregateType ++ .plain .lparen rfl :: (selectorTokens s.cols ++
      .plain .rparen rfl :: .plain .AS rfl :: .identifier s.aliasName :: .plain .FROM rfl ::
        (namesTokens s.tabs ++ whereTokens s.conds)))

/-- The tokens of a statement without the semicolon. -/
def stmtTokens : TreeNode → List Token
  | .help => [.plain .HELP rfl]
  | .showTables => [.plain .SHOW rfl, .plain .TABLES rfl]
  | .showIndex tab => [.plain .SHOW rfl, .plain .INDEX rfl, .plain .FROM rfl, .identifier tab]
  | .txnBegin => [.plain .TXN_BEGIN rfl]
  | .txnCommit => [.plain .TXN_COMMIT rfl]
  | .txnAbort => [.plain .TXN_ABORT rfl]
  | .txnRollback => [.plain .TXN_ROLLBACK rfl]
  | .createTable tab fields => .plain .CREATE rfl :: .plain .TABLE rfl :: .identifier tab ::
      .plain .lparen rfl :: (listed .comma rfl fieldTokens fields ++ [.plain .rparen rfl])
  | .dropTable tab => [.plain .DROP rfl, .plain .TABLE rfl, .identifier tab]
  | .descTable tab => [.plain .DESC rfl, .identifier tab]
  | .createIndex tab cols => .plain .CREATE rfl :: .plain .INDEX rfl :: .identifier tab ::
      .plain .lparen rfl :: (namesTokens cols ++ [.plain .rparen rfl])
  | .dropIndex tab cols => .plain .DROP rfl :: .plain .INDEX rfl :: .identifier tab ::
      .plain .lparen rfl :: (namesTokens cols ++ [.plain .rparen rfl])
  | .insertStmt tab vals => .plain .INSERT rfl :: .plain .INTO rfl :: .identifier tab :: .plain .VALUES rfl ::
      .plain .lparen rfl :: (listed .comma rfl valueTokens vals ++ [.plain .rparen rfl])
  | .deleteStmt tab conds => .plain .DELETE rfl :: .plain .FROM rfl :: .identifier tab :: whereTokens conds
  | .updateStmt tab sets conds => .plain .UPDATE rfl :: .identifier tab :: .plain .SET rfl ::
      (listed .comma rfl setClauseTokens sets ++ whereTokens conds)
  | .selectStmt s => selectTokens s
  | .loadStmt path tab =>
    .plain .LOAD rfl :: (pathTokens [] path.toList ++ [.plain .INTO rfl, .identifier tab])

/-- The tokens of a tree: only `HELP` does without a semicolon. -/
def treeTokens (n : TreeNode) : List Token :=
  stmtTokens n ++ if n = .help then [] else [.plain .semicolon rfl]

end Tokens

/-! ### What the grammar makes of the tokens -/

variable (ε : Type)

/-- The symbols derive these tokens, with these values. -/
def Yields (ss : List SymbolKind) (ts : List Token) (vs : List Sem) : Prop :=
  ∃ d, (grammar ε).Derives ss (ts.map .ok) vs d

namespace Yields

variable {ε} {ss : List SymbolKind} {ts us : List Token} {vs ws : List Sem}

/-- The empty right side yields no tokens. -/
theorem nil : Yields ε [] [] [] := ⟨0, .nil⟩

/-- A token in front of a right side that yields `ts`. -/
theorem token (t : Token) (h : Yields ε ss ts vs) : Yields ε (t.kind :: ss) (t :: ts) (t.value :: vs) := by
  obtain ⟨d, hd⟩ := h
  exact ⟨d + 1, derives_token t hd⟩

/-- A single token, with the value the lexer gave it. -/
theorem one (t : Token) : Yields ε [t.kind] [t] [t.value] := token t nil

/-- A token without a value. -/
theorem plain (k : SymbolKind) (h : k.isPlain = true) : Yields ε [k] [.plain k h] [.none] := one (.plain k h)

/-- Two parts of a right side, one behind the other. -/
theorem cons {a : SymbolKind} {v : Sem} (h : Yields ε [a] ts [v]) (h' : Yields ε ss us ws) :
    Yields ε (a :: ss) (ts ++ us) (v :: ws) := by
  obtain ⟨d, hd⟩ := h
  obtain ⟨e, he⟩ := h'
  refine ⟨max d (e + 1), ?_⟩
  rw [List.map_append]
  exact hd.cons he

/-- The action of a rule, applied to the values of its right side. -/
theorem rule (r : Rule) (h : Yields ε r.production.2 ts vs) :
    Yields ε [r.production.1] ts [r.act vs] := by
  obtain ⟨d, hd⟩ := h
  exact ⟨max d 1, derives_rule r hd⟩

/-- A rule whose last symbol may begin where the tokens end. -/
theorem last {a : SymbolKind} {v : Sem} (h : Yields ε [a] ts [v]) : Yields ε [a] (ts ++ []) [v] := by
  rwa [List.append_nil]

/-- A list of items, with one token between each two.  The induction adds an item at the end, as the rule
    does. -/
theorem listed {α : Type} {list item sep : SymbolKind} {hsep : sep.isPlain = true}
    {t : α → List Token} {value : α → Sem} (one more : Rule) (wrap : List α → Sem)
    (hitem : ∀ x, Yields ε [item] (t x) [value x]) (hone : one.production = (list, [item]))
    (hmore : more.production = (list, [list, sep, item])) (hstart : ∀ x, one.act [value x] = wrap [x])
    (hnext : ∀ l x, more.act [wrap l, .none, value x] = wrap (l ++ [x])) {l : List α} (hne : l ≠ []) :
    Yields ε [list] (Yacc.listed sep hsep t l) [wrap l] := by
  induction l using List.reverseRecOn with
  | nil => exact absurd rfl hne
  | append_singleton l x ih =>
    cases l with
    | nil =>
      have hrule := rule (ε := ε) one (by rw [hone]; exact hitem x)
      rw [hone, hstart] at hrule
      simpa [Yacc.listed] using hrule
    | cons y l =>
      have hlist := ih (List.cons_ne_nil y l)
      have hall := cons hlist (token (.plain sep hsep) (hitem x))
      have hrule := rule (ε := ε) more (by rw [hmore]; exact hall)
      rw [hmore] at hrule
      have hvalue : more.act [wrap (y :: l), (Token.plain sep hsep).value, value x] = wrap (y :: l ++ [x]) :=
        hnext (y :: l) x
      rw [hvalue] at hrule
      simpa [Yacc.listed, joined] using hrule

/-- A table name is one identifier. -/
theorem tbName (s : String) : Yields ε [.tbName] (nameTokens s) [.svStr s] :=
  rule .tbName (one (.identifier s))

/-- A column name is one identifier. -/
theorem colName (s : String) : Yields ε [.colName] (nameTokens s) [.svStr s] :=
  rule .colName (one (.identifier s))

/-- A column, with or without its table. -/
theorem col (c : Col) : Yields ε [.col] (colTokens c) [.svCol c] := by
  obtain ⟨tab, name⟩ := c
  unfold colTokens
  split
  · rename_i htab
    obtain rfl : tab = "" := htab
    exact rule .colAlone (colName name)
  · exact rule .colOfTable (cons (tbName tab) (token (.plain .dot rfl) (colName name)))

/-- A literal of each of the six kinds. -/
theorem value (v : Ast.Value) : Yields ε [.value] (valueTokens v) [.svVal v] := by
  cases v with
  | intLit n => exact rule .valueInt (one (.valueInt n))
  | bigintLit n => exact rule .valueBigint (one (.valueBigint n))
  | floatLit b => exact rule .valueFloat (one (.valueFloat b))
  | stringLit s => exact rule .valueString (one (.valueString s))
  | datetimeLit s => exact rule .valueDatetime (one (.valueDatetime s))

/-- The types of a column definition. -/
theorem type (t : TypeLen) : Yields ε [.type] (typeTokens t) [.svTypeLen t] := by
  cases t with
  | int => exact rule .typeInt (plain .INT rfl)
  | bigint => exact rule .typeBigint (plain .BIGINT rfl)
  | char n =>
    exact rule .typeChar (token (.plain .CHAR rfl) (token (.plain .lparen rfl) (token (.valueInt n)
      (plain .rparen rfl))))
  | float => exact rule .typeFloat (plain .FLOAT rfl)
  | datetime => exact rule .typeDatetime (plain .DATETIME rfl)

/-- A column definition, as `CREATE TABLE` lists them. -/
theorem field (f : ColDef) : Yields ε [.field] (fieldTokens f) [.svField f] :=
  rule .field (cons (colName f.colName) (type f.typeLen))

/-- The six comparison operators. -/
theorem op (op : CompOp) : Yields ε [.op] (opTokens op) [.svCompOp op] := by
  cases op with
  | eq => exact rule .opEq (plain .equal rfl)
  | ne => exact rule .opNe (plain .NEQ rfl)
  | lt => exact rule .opLt (plain .less rfl)
  | gt => exact rule .opGt (plain .greater rfl)
  | le => exact rule .opLe (plain .LEQ rfl)
  | ge => exact rule .opGe (plain .GEQ rfl)

/-- The right side of a comparison: a literal or a column. -/
theorem expr (e : Expr) : Yields ε [.expr] (exprTokens e) [.svExpr e] := by
  cases e with
  | value v => exact rule .exprValue (value v)
  | col c => exact rule .exprCol (col c)

/-- One comparison of a `WHERE` clause. -/
theorem condition (c : BinaryExpr) : Yields ε [.condition] (conditionTokens c) [.svCond c] :=
  rule .condition (cons (col c.lhs) (cons (op c.op) (expr c.rhs)))

/-- The `WHERE` clause, empty or with its conditions joined by `AND`. -/
theorem optWhereClause (l : List BinaryExpr) : Yields ε [.optWhereClause] (whereTokens l) [.svConds l] := by
  cases l with
  | nil => exact rule .optWhereNone nil
  | cons c cs =>
    have hlist : Yields ε [.whereClause] (Yacc.listed .AND rfl conditionTokens (c :: cs))
        [.svConds (c :: cs)] :=
      listed .whereOne .whereMore .svConds condition rfl rfl (fun _ => rfl) (fun _ _ => rfl)
        (List.cons_ne_nil c cs)
    exact rule .optWhere (token (.plain .WHERE rfl) hlist)

/-- One assignment of an `UPDATE`; the self-adding form names its column again. -/
theorem setClause (c : Ast.SetClause) : Yields ε [.setClause] (setClauseTokens c) [.svSetClause c] := by
  obtain ⟨name, v, isSelfadd⟩ := c
  cases isSelfadd with
  | false => exact rule .setClause (cons (colName name) (token (.plain .equal rfl) (value v)))
  | true =>
    exact rule .setClauseSelf (cons (colName name) (token (.plain .equal rfl)
      (cons (colName name) (value v))))

/-- The direction of an `ORDER BY` column, the default included. -/
theorem optAscDesc (d : OrderByDir) : Yields ε [.optAscDesc] (ascDescTokens d) [.svOrderbyDir d] := by
  cases d with
  | default => exact rule .dirDefault nil
  | asc => exact rule .dirAsc (plain .ASC rfl)
  | desc => exact rule .dirDesc (plain .DESC rfl)

/-- One column of an `ORDER BY`. -/
theorem orderClause (o : Ast.OrderBy) : Yields ε [.orderClause] (orderTokens o) [.svOrderby o] :=
  rule .orderClause (cons (col o.col) (optAscDesc o.orderbyDir))

/-- The `ORDER BY` clause, empty or with its columns. -/
theorem optOrderClause (l : List Ast.OrderBy) :
    Yields ε [.optOrderClause] (ordersTokens l) [.svOrderbys l] := by
  cases l with
  | nil => exact rule .optOrderNone nil
  | cons o os =>
    have hlist : Yields ε [.orderClauseList] (Yacc.listed .comma rfl orderTokens (o :: os))
        [.svOrderbys (o :: os)] :=
      listed .orderListOne .orderListMore .svOrderbys orderClause rfl rfl (fun _ => rfl) (fun _ _ => rfl)
        (List.cons_ne_nil o os)
    exact rule .optOrder (token (.plain .ORDER rfl) (token (.plain .BY rfl) hlist))

/-- The `LIMIT` clause; `-1` stands for no limit. -/
theorem optLimit (n : Int) : Yields ε [.optLimit] (limitTokens n) [.svInt n] := by
  unfold limitTokens
  split
  · rename_i hn
    subst hn
    exact rule .optLimitNone nil
  · exact rule .optLimit (token (.plain .LIMIT rfl) (one (.valueInt n)))

/-- The select list: `*` for no column, else the columns. -/
theorem selector (l : List Col) : Yields ε [.selector] (selectorTokens l) [.svCols l] := by
  cases l with
  | nil => exact rule .selectorAll (plain .star rfl)
  | cons c cs =>
    exact rule .selectorCols (listed .colListOne .colListMore .svCols col rfl rfl (fun _ => rfl)
      (fun _ _ => rfl) (List.cons_ne_nil c cs))

/-- A list of tables, separated by commas. -/
theorem tableList {l : List String} (h : l ≠ []) : Yields ε [.tableList] (namesTokens l) [.svStrs l] :=
  listed .tableListOne .tableListMore .svStrs tbName rfl rfl (fun _ => rfl) (fun _ _ => rfl) h

/-- A list of column names, separated by commas. -/
theorem colNameList {l : List String} (h : l ≠ []) : Yields ε [.colNameList] (namesTokens l) [.svStrs l] :=
  listed .colNameListOne .colNameListMore .svStrs colName rfl rfl (fun _ => rfl) (fun _ _ => rfl) h

/-- The column definitions of a `CREATE TABLE`. -/
theorem fieldList {l : List ColDef} (h : l ≠ []) :
    Yields ε [.fieldList] (Yacc.listed .comma rfl fieldTokens l) [.svFields l] :=
  listed .fieldListOne .fieldListMore .svFields field rfl rfl (fun _ => rfl) (fun _ _ => rfl) h

/-- The literals of an `INSERT`. -/
theorem valueList {l : List Ast.Value} (h : l ≠ []) :
    Yields ε [.valueList] (Yacc.listed .comma rfl valueTokens l) [.svVals l] :=
  listed .valueListOne .valueListMore .svVals value rfl rfl (fun _ => rfl) (fun _ _ => rfl) h

/-- The assignments of an `UPDATE`. -/
theorem setClauses {l : List Ast.SetClause} (h : l ≠ []) :
    Yields ε [.setClauses] (Yacc.listed .comma rfl setClauseTokens l) [.svSetClauses l] :=
  listed .setClausesOne .setClausesMore .svSetClauses setClause rfl rfl (fun _ => rfl) (fun _ _ => rfl) h

/-- The four aggregate functions of the grammar. -/
theorem aggregateFunction {t : AggregateType} (h : t ≠ .none) :
    Yields ε [.aggregateFunction] (aggregateTokens t) [.svAggregateType t] := by
  cases t with
  | none => exact absurd rfl h
  | count => exact rule .count (plain .COUNT rfl)
  | max => exact rule .max (plain .MAX rfl)
  | min => exact rule .min (plain .MIN rfl)
  | sum => exact rule .sum (plain .SUM rfl)

end Yields

/-! ### Statements -/

/-- The trees that the grammar has tokens for: its lists are not empty, and a `SELECT` is what one of the two
    constructors makes. -/
def Writable : TreeNode → Prop
  | .createTable _ fields => fields ≠ []
  | .createIndex _ cols => cols ≠ []
  | .dropIndex _ cols => cols ≠ []
  | .insertStmt _ vals => vals ≠ []
  | .updateStmt _ sets _ => sets ≠ []
  | .selectStmt s => s.tabs ≠ [] ∧
      if s.aggregateType = .none then s = .select s.cols s.tabs s.conds s.orders s.limit
      else s = .aggregate s.cols s.tabs s.conds s.aggregateType s.aliasName
  | _ => True

variable {ε}

/-- A `SELECT` with all its clauses. -/
theorem Yields.select {s : SelectStmt} (h : Writable (.selectStmt s)) :
    Yields ε [.dml] (selectTokens s) [.svNode (.selectStmt s)] := by
  obtain ⟨htabs, hs⟩ := h
  unfold selectTokens
  split
  · rename_i hagg
    rw [if_pos hagg] at hs
    have hrule := rule (ε := ε) .select (token (.plain .SELECT rfl) (cons (selector s.cols)
      (token (.plain .FROM rfl) (cons (tableList htabs) (cons (optWhereClause s.conds)
        (cons (optOrderClause s.orders) (optLimit s.limit)))))))
    rw [hs]
    exact hrule
  · rename_i hagg
    rw [if_neg hagg] at hs
    have hrule := rule (ε := ε) .selectAggregate (token (.plain .SELECT rfl) (cons (aggregateFunction hagg)
      (token (.plain .lparen rfl) (cons (selector s.cols) (token (.plain .rparen rfl) (token (.plain .AS rfl)
        (cons (colName s.aliasName) (token (.plain .FROM rfl) (cons (tableList htabs)
          (optWhereClause s.conds))))))))))
    rw [hs]
    exact hrule

/-- A statement of a tree, but for `HELP` and `LOAD`. -/
theorem Yields.stmt {n : TreeNode} (h : Writable n) (hhelp : n ≠ .help)
    (hload : ∀ path tab, n ≠ .loadStmt path tab) :
    Yields ε [.stmt] (stmtTokens n) [.svNode n] := by
  cases n with
  | help => exact absurd rfl hhelp
  | showTables => exact rule .stmtDb (rule .showTables (token (.plain .SHOW rfl) (plain .TABLES rfl)))
  | showIndex tab =>
    exact rule .stmtDb (rule .showIndex (token (.plain .SHOW rfl) (token (.plain .INDEX rfl)
      (token (.plain .FROM rfl) (tbName tab)))))
  | txnBegin => exact rule .stmtTxn (rule .txnBegin (plain .TXN_BEGIN rfl))
  | txnCommit => exact rule .stmtTxn (rule .txnCommit (plain .TXN_COMMIT rfl))
  | txnAbort => exact rule .stmtTxn (rule .txnAbort (plain .TXN_ABORT rfl))
  | txnRollback => exact rule .stmtTxn (rule .txnRollback (plain .TXN_ROLLBACK rfl))
  | createTable tab fields =>
    exact rule .stmtDdl (rule .createTable (token (.plain .CREATE rfl) (token (.plain .TABLE rfl)
      (cons (tbName tab) (token (.plain .lparen rfl) (cons (fieldList h) (plain .rparen rfl)))))))
  | dropTable tab =>
    exact rule .stmtDdl (rule .dropTable (token (.plain .DROP rfl) (token (.plain .TABLE rfl) (tbName tab))))
  | descTable tab => exact rule .stmtDdl (rule .descTable (token (.plain .DESC rfl) (tbName tab)))
  | createIndex tab cols =>
    exact rule .stmtDdl (rule .createIndex (token (.plain .CREATE rfl) (token (.plain .INDEX rfl)
      (cons (tbName tab) (token (.plain .lparen rfl) (cons (colNameList h) (plain .rparen rfl)))))))
  | dropIndex tab cols =>
    exact rule .stmtDdl (rule .dropIndex (token (.plain .DROP rfl) (token (.plain .INDEX rfl)
      (cons (tbName tab) (token (.plain .lparen rfl) (cons (colNameList h) (plain .rparen rfl)))))))
  | insertStmt tab vals =>
    exact rule .stmtDml (rule .insert (token (.plain .INSERT rfl) (token (.plain .INTO rfl) (cons (tbName tab)
      (token (.plain .VALUES rfl) (token (.plain .lparen rfl) (cons (valueList h) (plain .rparen rfl))))))))
  | deleteStmt tab conds =>
    exact rule .stmtDml (rule .delete (token (.plain .DELETE rfl) (token (.plain .FROM rfl) (cons (tbName tab)
      (optWhereClause conds)))))
  | updateStmt tab sets conds =>
    exact rule .stmtDml (rule .update (token (.plain .UPDATE rfl) (cons (tbName tab) (token (.plain .SET rfl)
      (cons (setClauses h) (optWhereClause conds))))))
  | selectStmt s => exact rule .stmtDml (select h)
  | loadStmt path tab => exact absurd rfl (hload path tab)

/-- The tokens of a tree are a statement of this tree. -/
theorem exists_statement {n : TreeNode} (h : Writable n) (hload : ∀ path tab, n ≠ .loadStmt path tab) :
    ∃ d, Statement ((treeTokens n).map (.ok (ε := ε))) (some n) d := by
  by_cases hhelp : n = .help
  · subst hhelp
    obtain ⟨d, hd⟩ := Yields.plain (ε := ε) .HELP rfl
    exact ⟨d, .startHelp, _, rfl, hd, rfl⟩
  · obtain ⟨d, hd⟩ := Yields.cons (Yields.stmt (ε := ε) h hhelp hload) (.plain .semicolon rfl)
    refine ⟨d, .startStmt, [.svNode n, .none], rfl, ?_, rfl⟩
    rw [treeTokens, if_neg hhelp]
    exact hd

/-! ### No `LOAD` -/

/-- A property of the separator and of every part's tokens holds of the whole list. -/
theorem forall_listed {α : Type} {p : Token → Prop} {sep : SymbolKind} {h : sep.isPlain = true}
    {t : α → List Token} (hsep : p (.plain sep h)) (ht : ∀ x, ∀ y ∈ t x, p y) (l : List α) :
    ∀ y ∈ listed sep h t l, p y := by
  cases l with
  | nil => exact fun y hy => nomatch hy
  | cons x l =>
    intro y hy
    rcases List.mem_append.mp hy with hy | hy
    · exact ht x y hy
    · obtain ⟨ys, hys, hy⟩ := List.mem_flatMap.mp hy
      obtain ⟨z, -, rfl⟩ := List.mem_map.mp hys
      rcases List.mem_cons.mp hy with rfl | hy
      · exact hsep
      · exact ht z y hy

/-- The same for a list with commas, which are not `LOAD` tokens. -/
theorem forall_comma {α : Type} {t : α → List Token} (ht : ∀ x, ∀ y ∈ t x, y.kind ≠ .LOAD) (l : List α) :
    ∀ y ∈ listed .comma rfl t l, y.kind ≠ .LOAD := forall_listed (by decide) ht l

/-- A column is written without `LOAD`. -/
theorem colTokens_load (c : Col) : ∀ t ∈ colTokens c, t.kind ≠ .LOAD := by
  unfold colTokens
  split <;> simp [Token.kind]

/-- A literal is written without `LOAD`. -/
theorem valueTokens_load (v : Ast.Value) : ∀ t ∈ valueTokens v, t.kind ≠ .LOAD := by
  cases v <;> simp [valueTokens, Token.kind]

/-- A column definition is written without `LOAD`. -/
theorem fieldTokens_load (f : ColDef) : ∀ t ∈ fieldTokens f, t.kind ≠ .LOAD := by
  obtain ⟨name, t⟩ := f
  cases t <;> simp [fieldTokens, typeTokens, Token.kind]

/-- A comparison is written without `LOAD`. -/
theorem conditionTokens_load (c : BinaryExpr) : ∀ t ∈ conditionTokens c, t.kind ≠ .LOAD := by
  obtain ⟨lhs, op, rhs⟩ := c
  have hrhs : ∀ t ∈ exprTokens rhs, t.kind ≠ .LOAD := by
    cases rhs with
    | value v => exact valueTokens_load v
    | col c => exact colTokens_load c
  have hop : ∀ t ∈ opTokens op, t.kind ≠ .LOAD := by cases op <;> simp [opTokens, Token.kind]
  exact List.forall_mem_append.mpr ⟨colTokens_load lhs, List.forall_mem_append.mpr ⟨hop, hrhs⟩⟩

/-- A `WHERE` clause is written without `LOAD`. -/
theorem whereTokens_load (l : List BinaryExpr) : ∀ t ∈ whereTokens l, t.kind ≠ .LOAD := by
  cases l with
  | nil => exact fun t ht => nomatch ht
  | cons c cs =>
    exact List.forall_mem_cons.mpr ⟨by decide, forall_listed (by decide) conditionTokens_load (c :: cs)⟩

/-- An assignment is written without `LOAD`. -/
theorem setClauseTokens_load (c : Ast.SetClause) : ∀ t ∈ setClauseTokens c, t.kind ≠ .LOAD := by
  obtain ⟨name, v, isSelfadd⟩ := c
  have hval := valueTokens_load v
  cases isSelfadd <;> simpa [setClauseTokens, Token.kind] using hval

/-- An `ORDER BY` clause is written without `LOAD`. -/
theorem ordersTokens_load (l : List Ast.OrderBy) : ∀ t ∈ ordersTokens l, t.kind ≠ .LOAD := by
  have horder : ∀ o, ∀ t ∈ orderTokens o, t.kind ≠ .LOAD := by
    rintro ⟨c, d⟩
    refine List.forall_mem_append.mpr ⟨colTokens_load c, ?_⟩
    cases d <;> simp [ascDescTokens, Token.kind]
  cases l with
  | nil => exact fun t ht => nomatch ht
  | cons o os =>
    exact List.forall_mem_cons.mpr ⟨by decide, List.forall_mem_cons.mpr ⟨by decide,
      forall_listed (by decide) horder (o :: os)⟩⟩

/-- A list of names is written without `LOAD`. -/
theorem namesTokens_load (l : List String) : ∀ t ∈ namesTokens l, t.kind ≠ .LOAD :=
  forall_listed (by decide) (fun s => by simp [nameTokens, Token.kind]) l

/-- A select list is written without `LOAD`. -/
theorem selectorTokens_load (l : List Col) : ∀ t ∈ selectorTokens l, t.kind ≠ .LOAD := by
  cases l with
  | nil => simp [selectorTokens, Token.kind]
  | cons c cs => exact forall_listed (by decide) colTokens_load (c :: cs)

/-- A `SELECT` is written without `LOAD`. -/
theorem selectTokens_load (s : SelectStmt) : ∀ t ∈ selectTokens s, t.kind ≠ .LOAD := by
  have hselector := selectorTokens_load s.cols
  have hnames := namesTokens_load s.tabs
  have hwhere := whereTokens_load s.conds
  have horders := ordersTokens_load s.orders
  have hlimit : ∀ t ∈ limitTokens s.limit, t.kind ≠ .LOAD := by
    unfold limitTokens
    split <;> simp [Token.kind]
  have haggregate : ∀ t ∈ aggregateTokens s.aggregateType, t.kind ≠ .LOAD := by
    cases s.aggregateType <;> simp [aggregateTokens, Token.kind]
  unfold selectTokens
  split
  · simp only [List.forall_mem_cons, List.forall_mem_append]
    exact ⟨by decide, hselector, by decide, hnames, hwhere, horders, hlimit⟩
  · simp only [List.forall_mem_cons, List.forall_mem_append]
    exact ⟨by decide, haggregate, by decide, hselector, by decide, by decide, nofun, by decide, hnames,
      hwhere⟩

/-- Only `LOAD` statements are written with a `LOAD` token. -/
theorem stmtTokens_load {n : TreeNode} (hload : ∀ path tab, n ≠ .loadStmt path tab) :
    ∀ t ∈ stmtTokens n, t.kind ≠ .LOAD := by
  cases n with
  | createTable tab fields =>
    have hfields := forall_comma fieldTokens_load fields
    simpa [stmtTokens, or_imp, forall_and, Token.kind] using hfields
  | createIndex tab cols =>
    have hcols := namesTokens_load cols
    simpa [stmtTokens, or_imp, forall_and, Token.kind] using hcols
  | dropIndex tab cols =>
    have hcols := namesTokens_load cols
    simpa [stmtTokens, or_imp, forall_and, Token.kind] using hcols
  | insertStmt tab vals =>
    have hvals := forall_comma valueTokens_load vals
    simpa [stmtTokens, or_imp, forall_and, Token.kind] using hvals
  | deleteStmt tab conds =>
    have hwhere := whereTokens_load conds
    simpa [stmtTokens, Token.kind] using hwhere
  | updateStmt tab sets conds =>
    have hsets := forall_comma setClauseTokens_load sets
    have hwhere := whereTokens_load conds
    simpa [stmtTokens, or_imp, forall_and, Token.kind] using ⟨hsets, hwhere⟩
  | selectStmt s => exact selectTokens_load s
  | loadStmt path tab => exact absurd rfl (hload path tab)
  | _ => simp [stmtTokens, Token.kind]

/-- The tokens of a tree are a statement that there is room for. -/
theorem statement_treeTokens {n : TreeNode} (h : Writable n) (hload : ∀ path tab, n ≠ .loadStmt path tab) :
    ∃ d ≤ maxRise, Statement ((treeTokens n).map (.ok (ε := ε))) (some n) d := by
  obtain ⟨d, hd⟩ := exists_statement (ε := ε) h hload
  refine ⟨d, hd.depth_le ?_, hd⟩
  rintro ⟨t', ht', hkind⟩
  obtain ⟨t, ht, rfl⟩ := List.mem_map.mp ht'
  rcases List.mem_append.mp ht with ht | ht
  · exact stmtTokens_load hload t ht (Option.some.inj hkind)
  · split at ht
    · cases ht
    · rw [List.mem_singleton.mp ht] at hkind
      cases hkind

/-- **Writing and parsing.**  The parser makes the tree of its tokens, whatever comes behind them. -/
theorem yyparse_treeTokens {yyvsa : Nat → SemValue} {yylval : SemValue} (h : Constructed yyvsa yylval)
    {n : TreeNode} (hn : Writable n) (hload : ∀ path tab, n ≠ .loadStmt path tab) (old : Option TreeNode)
    (rest : List (Except ε Token)) :
    yyparse yyvsa yylval old ((treeTokens n).map .ok ++ rest) = some (.returned 0 (some n)) := by
  obtain ⟨d, hd, hstatement⟩ := statement_treeTokens (ε := ε) hn hload
  rw [yyparse_statement h old hstatement, if_pos hd]

/-- The sample statement, read back by the parser. -/
theorem yyparse_treeTokens_sample : yyparse (ε := Empty) (fun _ => .cleared) .cleared none
    ((treeTokens sampleTree).map .ok ++ [.ok (.plain .EXIT rfl)]) = some (.returned 0 (some sampleTree)) :=
  yyparse_treeTokens constructed_cleared (n := sampleTree) ⟨List.cons_ne_nil _ _, rfl⟩
    (fun _ _ => TreeNode.noConfusion) none [.ok (.plain .EXIT rfl)]

/-! ### The paths of `LOAD` -/

/-- A path, rule by rule. -/
inductive LoadPath where
  | filename (s : String)
  | dot (s t : String)
  | slash (s : String) (path : LoadPath)
  | up (path : LoadPath)
  | here (path : LoadPath)
  deriving DecidableEq, Repr

namespace LoadPath

/-- The text that goes into the tree. -/
def text : LoadPath → String
  | .filename s => s
  | .dot s t => s ++ "." ++ t
  | .slash s path => s ++ "/" ++ path.text
  | .up path => "../" ++ path.text
  | .here path => "./" ++ path.text

def tokens : LoadPath → List Token
  | .filename s => [.identifier s]
  | .dot s t => [.identifier s, .plain .dot rfl, .identifier t]
  | .slash s path => .identifier s :: .plain .slash rfl :: path.tokens
  | .up path => .plain .dot rfl :: .plain .dot rfl :: .plain .slash rfl :: path.tokens
  | .here path => .plain .dot rfl :: .plain .slash rfl :: path.tokens

def names : LoadPath → List String
  | .filename s => [s]
  | .dot s t => [s, t]
  | .slash s path => s :: path.names
  | .up path => path.names
  | .here path => path.names

/-- How far the stack rises: nothing of a path is reduced to one before its end. -/
def rise : LoadPath → Nat
  | .filename _ => 1
  | .dot _ _ => 3
  | .slash _ path => path.rise + 2
  | .up path => path.rise + 3
  | .here path => path.rise + 2

/-- The tokens of a path are one. -/
theorem derives (path : LoadPath) :
    (grammar ε).Derives [.path] (path.tokens.map .ok) [.svStr path.text] path.rise := by
  have hname (s : String) : (grammar ε).Derives [.filename] [.ok (.identifier s)] [.svStr s] 1 :=
    derives_rule .filename (derives_token (.identifier s) .nil)
  induction path with
  | filename s => exact derives_rule .pathFilename (hname s)
  | dot s t => exact derives_rule .pathDot ((hname s).cons (derives_token (.plain .dot rfl) (hname t)))
  | slash s path ih =>
    have hpath := derives_rule .pathSlash ((hname s).cons (derives_token (.plain .slash rfl) ih))
    rw [show max (max 1 (path.rise + 1 + 1)) 1 = (slash s path).rise by simp only [rise]; omega] at hpath
    exact hpath
  | up path ih =>
    have hpath := derives_rule .pathUp (derives_token (.plain .dot rfl) (derives_token (.plain .dot rfl)
      (derives_token (.plain .slash rfl) ih)))
    rw [show max (path.rise + 1 + 1 + 1) 1 = path.up.rise by simp only [rise]; omega] at hpath
    exact hpath
  | here path ih =>
    have hpath := derives_rule .pathHere (derives_token (.plain .dot rfl) (derives_token (.plain .slash rfl) ih))
    rw [show max (path.rise + 1 + 1) 1 = path.here.rise by simp only [rise]; omega] at hpath
    exact hpath

end LoadPath

/-- The kind of a token is a terminal of the grammar. -/
theorem Token.kind_isToken (t : Token) : t.kind.isToken = true := by
  cases t with
  | plain k h =>
    unfold SymbolKind.isPlain at h
    rw [Bool.and_assoc] at h
    exact (Bool.and_eq_true_iff.mp h).1
  | _ => rfl

/-- No token has the kind of a nonterminal. -/
theorem kind_ne {k : SymbolKind} (hk : k.isToken = false) (t : Except ε Token) :
    (grammar ε).kind t ≠ some k := by
  cases t with
  | error e => exact nofun
  | ok t =>
    intro h
    obtain rfl := Option.some.inj h
    exact absurd (hk.symm.trans t.kind_isToken) Bool.false_ne_true

/-- The left side of a rule is no token without a value. -/
theorem lhs_isPlain (r : Rule) : r.production.1.isPlain = false := by cases r <;> rfl

section Inversion

variable {ss : List SymbolKind} {ts : List (Except ε Token)} {vs : List Sem} {d : Nat}

/-- A token without a value derives itself. -/
theorem plain_of_derives {k : SymbolKind} (hk : k.isPlain = true)
    (h : (grammar ε).Derives (k :: ss) ts vs d) :
    ∃ us ws e, ts = .ok (.plain k hk) :: us ∧ vs = .none :: ws ∧ d = e + 1 ∧
      (grammar ε).Derives ss us ws e := by
  have hlhs : ∀ r, (grammar ε).lhs r ≠ k := by
    rintro r rfl
    exact absurd ((lhs_isPlain r).symm.trans hk) Bool.false_ne_true
  obtain ⟨t, us, ws, e, hkind, rfl, rfl, rfl, hrest⟩ := h.exists_cons hlhs
  cases t with
  | error e => cases hkind
  | ok t =>
    obtain rfl := Option.some.inj hkind
    cases t with
    | plain k h => exact ⟨us, ws, e, rfl, rfl, rfl, hrest⟩
    | _ => cases hk

/-- A name derives an identifier. -/
theorem name_of_derives {k : SymbolKind} (hk : k.isToken = false)
    (hrule : ∀ r : Rule, r.production.1 = k → r.production.2 = [.IDENTIFIER] ∧ ∀ v, r.act [v] = v)
    (h : (grammar ε).Derives (k :: ss) ts vs d) :
    ∃ s us ws e, ts = .ok (.identifier s) :: us ∧ vs = .svStr s :: ws ∧ d = e + 1 ∧
      (grammar ε).Derives ss us ws e := by
  obtain ⟨r, ts₁, ts₂, vs₁, vs₂, d₁, d₂, hlhs, rfl, rfl, rfl, hrhs, hrest⟩ := h.exists_rule (kind_ne hk)
  obtain ⟨hproduction, hact⟩ := hrule r hlhs
  change (grammar ε).Derives r.production.2 ts₁ vs₁ d₁ at hrhs
  rw [hproduction] at hrhs
  obtain ⟨t, us, ws, e, hkind, rfl, rfl, rfl, hnil⟩ :=
    Grammar.Derives.exists_cons (fun r => by cases r <;> exact SymbolKind.noConfusion) hrhs
  cases hnil
  cases t with
  | error e => cases hkind
  | ok t =>
    cases t with
    | identifier s =>
      refine ⟨s, ts₂, vs₂, d₂, rfl, ?_, by omega, hrest⟩
      exact congrArg (· :: vs₂) (hact (.svStr s))
    | plain k' hk' =>
      obtain rfl : k' = .IDENTIFIER := Option.some.inj hkind
      cases hk'
    | _ => cases hkind

/-- A file name is one identifier, passed on as it is. -/
theorem filename_rule (r : Rule) (h : r.production.1 = .filename) :
    r.production.2 = [.IDENTIFIER] ∧ ∀ v, r.act [v] = v := by
  cases r <;> first | exact ⟨rfl, fun _ => rfl⟩ | cases h

/-- A table name is one identifier, passed on as it is. -/
theorem tbName_rule (r : Rule) (h : r.production.1 = .tbName) :
    r.production.2 = [.IDENTIFIER] ∧ ∀ v, r.act [v] = v := by
  cases r <;> first | exact ⟨rfl, fun _ => rfl⟩ | cases h

/-- What a path derives are the tokens of one.  The induction is on the number of the tokens. -/
theorem path_of_derives {n : Nat} (hn : ts.length < n) (h : (grammar ε).Derives (.path :: ss) ts vs d) :
    ∃ (path : LoadPath) (us : List (Except ε Token)) (ws : List Sem) (e : Nat),
      ts = path.tokens.map .ok ++ us ∧ vs = .svStr path.text :: ws ∧ (grammar ε).Derives ss us ws e := by
  induction n generalizing ts ss vs d with
  | zero => exact absurd hn (Nat.not_lt_zero _)
  | succ n ih =>
    obtain ⟨r, ts₁, ts₂, vs₁, vs₂, d₁, d₂, hlhs, rfl, rfl, rfl, hrhs, hrest⟩ := h.exists_rule (kind_ne rfl)
    rw [List.length_append] at hn
    cases r with
    | pathFilename =>
      obtain ⟨s, us, ws, e, rfl, rfl, rfl, hnil⟩ := name_of_derives rfl filename_rule hrhs
      cases hnil
      exact ⟨.filename s, ts₂, vs₂, _, rfl, rfl, hrest⟩
    | pathDot =>
      obtain ⟨s, us, ws, e, rfl, rfl, rfl, hdot⟩ := name_of_derives rfl filename_rule hrhs
      obtain ⟨us, ws, e, rfl, rfl, rfl, hlast⟩ := plain_of_derives rfl hdot
      obtain ⟨t, us, ws, e, rfl, rfl, rfl, hnil⟩ := name_of_derives rfl filename_rule hlast
      cases hnil
      exact ⟨.dot s t, ts₂, vs₂, _, rfl, rfl, hrest⟩
    | pathSlash =>
      obtain ⟨s, us, ws, e, rfl, rfl, rfl, hslash⟩ := name_of_derives rfl filename_rule hrhs
      obtain ⟨us, ws, e, rfl, rfl, rfl, hpath⟩ := plain_of_derives rfl hslash
      obtain ⟨path, us, ws, e, rfl, rfl, hnil⟩ := ih (by simp only [List.length_cons] at hn; omega) hpath
      cases hnil
      exact ⟨.slash s path, ts₂, vs₂, _, by simp [LoadPath.tokens], rfl, hrest⟩
    | pathUp =>
      obtain ⟨us, ws, e, rfl, rfl, rfl, hdot⟩ := plain_of_derives rfl hrhs
      obtain ⟨us, ws, e, rfl, rfl, rfl, hslash⟩ := plain_of_derives rfl hdot
      obtain ⟨us, ws, e, rfl, rfl, rfl, hpath⟩ := plain_of_derives rfl hslash
      obtain ⟨path, us, ws, e, rfl, rfl, hnil⟩ := ih (by simp only [List.length_cons] at hn; omega) hpath
      cases hnil
      exact ⟨.up path, ts₂, vs₂, _, by simp [LoadPath.tokens], rfl, hrest⟩
    | pathHere =>
      obtain ⟨us, ws, e, rfl, rfl, rfl, hslash⟩ := plain_of_derives rfl hrhs
      obtain ⟨us, ws, e, rfl, rfl, rfl, hpath⟩ := plain_of_derives rfl hslash
      obtain ⟨path, us, ws, e, rfl, rfl, hnil⟩ := ih (by simp only [List.length_cons] at hn; omega) hpath
      cases hnil
      exact ⟨.here path, ts₂, vs₂, _, by simp [LoadPath.tokens], rfl, hrest⟩
    | _ => cases hlhs

/-- Only the rule of `LOAD` makes its tree, and the rules above it hand it on. -/
theorem act_load {r : Rule} {vs : List Sem} {path tab : String} (h : List.Forall₂ Sem.Fits r.production.2 vs)
    (hr : r.production.1 ∈ [.dbStmt, .ddl, .dml, .txnStmt]) (hact : r.act vs = .svNode (.loadStmt path tab)) :
    r = .load := by
  cases r
  all_goals try exact absurd hr (by decide)
  all_goals
    repeat
      obtain _ | ⟨hv, h⟩ := h
      first | obtain ⟨_, rfl⟩ := hv | obtain rfl := hv | skip
  all_goals first | rfl | cases hact

/-- A statement with the tree of a `LOAD` derives the tokens of one. -/
theorem load_of_derives {path tab : String}
    (h : (grammar ε).Derives (.stmt :: ss) ts (.svNode (.loadStmt path tab) :: vs) d) :
    ∃ (lp : LoadPath) (us : List (Except ε Token)) (e : Nat), path = lp.text ∧
      ts = (.plain .LOAD rfl :: (lp.tokens ++ [.plain .INTO rfl, .identifier tab])).map .ok ++ us ∧
      (grammar ε).Derives ss us vs e := by
  obtain ⟨r, ts₁, ts₂, vs₁, vs₂, d₁, d₂, hlhs, rfl, hvs, -, hrhs, hrest⟩ := h.exists_rule (kind_ne rfl)
  obtain ⟨hv, rfl⟩ := List.cons.inj hvs
  obtain ⟨k, hproduction, hk, hact⟩ : ∃ k, r.production.2 = [k] ∧ k ∈ [.dbStmt, .ddl, .dml, .txnStmt] ∧
      ∀ v, r.act [v] = v := by
    cases r with
    | stmtDb => exact ⟨.dbStmt, rfl, by decide, fun _ => rfl⟩
    | stmtDdl => exact ⟨.ddl, rfl, by decide, fun _ => rfl⟩
    | stmtDml => exact ⟨.dml, rfl, by decide, fun _ => rfl⟩
    | stmtTxn => exact ⟨.txnStmt, rfl, by decide, fun _ => rfl⟩
    | _ => cases hlhs
  change (grammar ε).Derives r.production.2 ts₁ vs₁ d₁ at hrhs
  rw [hproduction] at hrhs
  have hne : k.isToken = false := by
    simp only [List.mem_cons, List.not_mem_nil, or_false] at hk
    rcases hk with rfl | rfl | rfl | rfl <;> rfl
  obtain ⟨r', ts₁, ts', vs₁, vs', d', d'', rfl, rfl, rfl, -, hload, hnil⟩ := hrhs.exists_rule (kind_ne hne)
  cases hnil
  change Sem.svNode (.loadStmt path tab) = r.act [r'.act vs₁] at hv
  rw [hact] at hv
  obtain rfl := act_load (derives_fits hload) hk hv.symm
  obtain ⟨us, ws, e, rfl, rfl, -, hpath⟩ := plain_of_derives rfl hload
  obtain ⟨lp, us, ws, e, rfl, rfl, hinto⟩ := path_of_derives (Nat.lt_succ_self _) hpath
  obtain ⟨us, ws, e, rfl, rfl, -, htab⟩ := plain_of_derives rfl hinto
  obtain ⟨s, us, ws, e, rfl, rfl, -, hnil⟩ := name_of_derives rfl tbName_rule htab
  cases hnil
  obtain ⟨rfl, rfl⟩ : path = lp.text ∧ tab = s := by
    injection hv with hv
    injection hv with hpath htab
    exact ⟨hpath, htab⟩
  exact ⟨lp, ts₂, d₂, rfl, by simp, hrest⟩

end Inversion

/-! ### Parsing and writing -/

/-- What the parser makes is not empty where the grammar has a list, and its statements are writable. -/
def Sem.Full : Sem → Prop
  | .svStrs l => l ≠ []
  | .svFields l => l ≠ []
  | .svVals l => l ≠ []
  | .svSetClauses l => l ≠ []
  | .svAggregateType t => t ≠ .none
  | .svNode n => Writable n
  | _ => True

/-- The members that may be empty. -/
def Member.mayFail (m : Member) : Bool :=
  m ∈ [.svStrs, .svFields, .svVals, .svSetClauses, .svAggregateType, .svNode]

/-- A value of a member that is always set is full. -/
theorem full_of_is {m : Member} {v : Sem} (hm : m.mayFail = false) (h : v.Is m) : v.Full := by
  cases m <;> first | exact absurd hm (by decide) | (obtain ⟨_, rfl⟩ := h; trivial)

/-- The action of every rule makes a full value from full values. -/
theorem act_full {r : Rule} {vs : List Sem} (h : List.Forall₂ Sem.Fits r.production.2 vs)
    (hfull : ∀ v ∈ vs, v.Full) : (r.act vs).Full := by
  cases hm : r.production.1.member.mayFail with
  | false => exact full_of_is hm (act_fits h)
  | true =>
    cases r
    all_goals try cases hm
    all_goals
      repeat
        obtain _ | ⟨hv, h⟩ := h
        first | obtain ⟨_, rfl⟩ := hv | obtain rfl := hv | skip
      simp only [List.forall_mem_cons] at hfull
    all_goals try exact trivial
    all_goals try exact hfull.1
    all_goals try exact List.append_ne_nil_of_right_ne_nil _ (List.cons_ne_nil _ _)
    all_goals try exact List.cons_ne_nil _ _
    all_goals try exact AggregateType.noConfusion
    -- the statements with lists, in the order of the rules
    · exact hfull.2.2.2.2.1
    · exact hfull.2.2.2.2.1
    · exact hfull.2.2.2.2.1
    · exact hfull.2.2.2.2.2.1
    · exact hfull.2.2.2.1
    · exact ⟨hfull.2.2.2.1, if_pos rfl ▸ rfl⟩
    · exact ⟨hfull.2.2.2.2.2.2.2.2.1, if_neg hfull.2.1 ▸ rfl⟩

/-- All values of a derivation are full. -/
theorem derives_full {ss : List SymbolKind} {ts : List (Except ε Token)} {vs : List Sem} {d : Nat}
    (h : (grammar ε).Derives ss ts vs d) : ∀ v ∈ vs, v.Full := by
  induction h with
  | nil => exact fun v hv => nomatch hv
  | @token a t ss ts vs d hkind hrest ih =>
    refine List.forall_mem_cons.mpr ⟨?_, ih⟩
    cases t with
    | error e => exact trivial
    | ok t => cases t <;> exact trivial
  | rule hrhs hrest ihrhs ihrest =>
    exact List.forall_mem_cons.mpr ⟨act_full (derives_fits hrhs) ihrhs, ihrest⟩

/-- The tokens of a statement with a semicolon are those of its tree. -/
theorem Statement.cases {ts : List (Except ε Token)} {n : TreeNode} {d : Nat} (h : Statement ts (some n) d) :
    n = .help ∨ ∃ us e, ts = us ++ [.ok (.plain .semicolon rfl)] ∧
      (grammar ε).Derives [.stmt] us [.svNode n] e := by
  obtain ⟨r, vs, hr, hderives, hact⟩ := h
  cases r with
  | startHelp =>
    injection hact with hact
    injection hact with hact
    exact .inl hact.symm
  | startStmt =>
    change (grammar ε).Derives ([.stmt] ++ [.semicolon]) ts vs d at hderives
    obtain ⟨ts₁, ts₂, vs₁, vs₂, d₁, d₂, rfl, rfl, hstmt, hsemicolon⟩ := hderives.split
    obtain ⟨us, ws, e, rfl, rfl, -, hnil⟩ := plain_of_derives rfl hsemicolon
    cases hnil
    obtain ⟨v, rfl⟩ := List.length_eq_one_iff.mp hstmt.length_eq
    obtain ⟨v', rfl⟩ := (List.forall₂_cons.mp (derives_fits hstmt)).1
    injection hact with hact
    injection hact with hact
    subst hact
    exact .inr ⟨ts₁, d₁, rfl, hstmt⟩
  | startExit => cases hact
  | startEof => cases hact
  | _ => cases hr

/-- The parser makes writable trees only. -/
theorem Statement.writable {ts : List (Except ε Token)} {n : TreeNode} {d : Nat}
    (h : Statement ts (some n) d) : Writable n := by
  rcases h.cases with rfl | ⟨us, e, -, hderives⟩
  · exact trivial
  · exact derives_full hderives _ (List.mem_singleton_self _)

/-! ### Names -/

/-- What the tokens of a path cannot be told from without. -/
def IsName (s : String) : Prop := s ≠ "" ∧ ∀ c ∈ s.toList, c ≠ '.' ∧ c ≠ '/'

/-- A dot ends the name before it. -/
theorem pathTokens_dot (name cs : List Char) :
    pathTokens name ('.' :: cs) = endName name ++ .plain .dot rfl :: pathTokens [] cs := rfl

/-- A slash ends the name before it. -/
theorem pathTokens_slash (name cs : List Char) :
    pathTokens name ('/' :: cs) = endName name ++ .plain .slash rfl :: pathTokens [] cs := rfl

/-- Letters that are neither dot nor slash join the name being read. -/
theorem pathTokens_append {name w cs : List Char} (hw : ∀ c ∈ w, c ≠ '.' ∧ c ≠ '/') :
    pathTokens name (w ++ cs) = pathTokens (name ++ w) cs := by
  induction w generalizing name with
  | nil => rw [List.nil_append, List.append_nil]
  | cons c w ih =>
    obtain ⟨hc, hw⟩ := List.forall_mem_cons.mp hw
    rw [List.cons_append, pathTokens, if_neg hc.1, if_neg hc.2, ih hw, List.append_assoc]
    rfl

/-- A name in front of a path is read as one piece. -/
theorem IsName.pathTokens_append {s : String} (h : IsName s) (cs : List Char) :
    pathTokens [] (s.toList ++ cs) = pathTokens s.toList cs := Yacc.pathTokens_append h.2

/-- A name is one identifier token. -/
theorem IsName.endName {s : String} (h : IsName s) : endName s.toList = [.identifier s] := by
  rw [Yacc.endName, if_neg, String.ofList_toList]
  exact fun heq => h.1 (String.toList_eq_nil_iff.mp heq)

/-- Every name of the path is one of its tokens. -/
theorem LoadPath.identifier_mem (path : LoadPath) {s : String} (h : s ∈ path.names) :
    .identifier s ∈ path.tokens := by
  induction path with
  | filename t => simpa [names, tokens] using h
  | dot t t' => simpa [names, tokens] using h
  | slash t path ih =>
    rcases List.mem_cons.mp h with rfl | h
    · exact List.mem_cons_self
    · exact List.mem_cons_of_mem _ (List.mem_cons_of_mem _ (ih h))
  | up path ih => exact List.mem_cons_of_mem _ (List.mem_cons_of_mem _ (List.mem_cons_of_mem _ (ih h)))
  | here path ih => exact List.mem_cons_of_mem _ (List.mem_cons_of_mem _ (ih h))

/-- The tokens can be told from the text. -/
theorem LoadPath.pathTokens_text {path : LoadPath} (h : ∀ s ∈ path.names, IsName s) :
    pathTokens [] path.text.toList = path.tokens := by
  induction path with
  | filename s =>
    have hs := h s (List.mem_singleton_self s)
    have hall := hs.pathTokens_append []
    rwa [List.append_nil, pathTokens, hs.endName] at hall
  | dot s t =>
    obtain ⟨hs, ht⟩ := List.forall_mem_cons.mp h
    have ht := ht t (List.mem_singleton_self t)
    have hlast := ht.pathTokens_append []
    rw [List.append_nil, pathTokens, ht.endName] at hlast
    rw [text, String.toList_append, String.toList_append, List.append_assoc, hs.pathTokens_append,
      show ".".toList ++ t.toList = '.' :: t.toList from rfl, pathTokens_dot, hs.endName, hlast]
    rfl
  | slash s path ih =>
    obtain ⟨hs, hpath⟩ := List.forall_mem_cons.mp h
    rw [text, String.toList_append, String.toList_append, List.append_assoc, hs.pathTokens_append,
      show "/".toList ++ path.text.toList = '/' :: path.text.toList from rfl, pathTokens_slash, hs.endName,
      ih hpath]
    rfl
  | up path ih =>
    rw [text, String.toList_append,
      show "../".toList ++ path.text.toList = '.' :: '.' :: '/' :: path.text.toList from rfl, pathTokens_dot,
      pathTokens_dot, pathTokens_slash, ih h]
    rfl
  | here path ih =>
    rw [text, String.toList_append,
      show "./".toList ++ path.text.toList = '.' :: '/' :: path.text.toList from rfl, pathTokens_dot,
      pathTokens_slash, ih h]
    rfl

/-- The tokens of a `LOAD`. -/
def loadTokens (path : LoadPath) (tab : String) : List Token :=
  .plain .LOAD rfl :: (path.tokens ++ [.plain .INTO rfl, .identifier tab, .plain .semicolon rfl])

/-- The tokens of a `LOAD`, split before its semicolon. -/
theorem loadTokens_eq (path : LoadPath) (tab : String) : loadTokens path tab =
    (.plain .LOAD rfl :: (path.tokens ++ [.plain .INTO rfl, .identifier tab])) ++
      [.plain .semicolon rfl] := by
  rw [loadTokens, List.cons_append, List.append_assoc]
  rfl

/-- The tree of a `LOAD` is written as its path's tokens. -/
theorem treeTokens_load {path : LoadPath} (h : ∀ s ∈ path.names, IsName s) (tab : String) :
    treeTokens (.loadStmt path.text tab) = loadTokens path tab := by
  rw [treeTokens, if_neg nofun, stmtTokens, LoadPath.pathTokens_text h, loadTokens_eq]

/-- The tokens of a `LOAD` are a statement of the grammar. -/
theorem statement_load (path : LoadPath) (tab : String) :
    Statement ((loadTokens path tab).map (.ok (ε := ε))) (some (.loadStmt path.text tab))
      (max path.rise 3 + 1) := by
  have htab := derives_rule (ε := ε) .tbName (derives_token (.identifier tab) .nil)
  have hload := derives_rule .load (derives_token (.plain .LOAD rfl)
    (path.derives.cons (derives_token (.plain .INTO rfl) htab)))
  have hall := (derives_rule .stmtDml hload).cons (derives_token (.plain .semicolon rfl) .nil)
  have hdepth : max (max (max (max path.rise (max (0 + 1) 1 + 1 + 1) + 1) 1) 1) (0 + 1 + 1) =
      max path.rise 3 + 1 := by omega
  rw [hdepth] at hall
  refine ⟨.startStmt, [.svNode (.loadStmt path.text tab), .none], rfl, ?_, rfl⟩
  rw [loadTokens_eq, List.map_append, List.map_cons, List.map_append]
  exact hall

/-- **The longest path.**  A `LOAD` is parsed if the stack has room for its path, and else the memory is
    exhausted. -/
theorem yyparse_load {yyvsa : Nat → SemValue} {yylval : SemValue} (h : Constructed yyvsa yylval)
    (path : LoadPath) (tab : String) (old : Option TreeNode) (rest : List (Except ε Token)) :
    yyparse yyvsa yylval old ((loadTokens path tab).map .ok ++ rest) =
      some (if path.rise ≤ 197 then .returned 0 (some (.loadStmt path.text tab)) else .returned 2 old) := by
  rw [yyparse_statement h old (statement_load path tab)]
  have hrise : max path.rise 3 + 1 ≤ maxRise ↔ path.rise ≤ 197 := by
    show max path.rise 3 + 1 ≤ 198 ↔ path.rise ≤ 197
    omega
  simp only [hrise]

/-- A path that goes up 66 times. -/
def upPath : Nat → LoadPath
  | 0 => .filename "t"
  | n + 1 => .up (upPath n)

/-- A `LOAD` from the parent directory. -/
theorem yyparse_load_up : yyparse (ε := Empty) (fun _ => .cleared) .cleared none
    ((loadTokens (upPath 66) "t").map .ok ++ []) = some (.returned 2 none) :=
  yyparse_load constructed_cleared (upPath 66) "t" none []

/-- Only a `LOAD` exhausts the memory of the parser, whatever the tokens are. -/
theorem yyparse_exhausted {yyvsa : Nat → SemValue} {yylval : SemValue} (h : Constructed yyvsa yylval)
    {old tree : Option TreeNode} {input : List (Except ε Token)}
    (hparse : yyparse yyvsa yylval old input = some (.returned 2 tree)) : Seen .LOAD input := by
  obtain ⟨o, ho, hrun⟩ := yyparse_run h old input
  rw [hparse, Option.some.injEq] at hrun
  cases o with
  | accepted v rest =>
    obtain ⟨ts, tree, d, -, rfl, -⟩ := statement_of_accepted ho
    cases hrun
  | rejected => cases hrun
  | exhausted => exact load_of_exhausted ho
  | unread input => rcases input with - | ⟨e | t, input⟩ <;> cases hrun

/-- A path of 66 steps up fills the stack. -/
theorem yyparse_exhausted_up :
    Seen (ε := Empty) .LOAD ((loadTokens (upPath 66) "t").map .ok ++ []) :=
  yyparse_exhausted constructed_cleared
    (yyparse_statement constructed_cleared none (statement_load (upPath 66) "t") [])

/-- What the parser has made a tree of is a statement again when the tree is written down. -/
theorem statement_again {yyvsa : Nat → SemValue} {yylval : SemValue} (h : Constructed yyvsa yylval)
    {old : Option TreeNode} {input : List (Except ε Token)} {n : TreeNode}
    (hnames : ∀ s, .ok (.identifier s) ∈ input → IsName s)
    (hparse : yyparse yyvsa yylval old input = some (.returned 0 (some n))) :
    ∃ d ≤ maxRise, Statement ((treeTokens n).map (.ok (ε := ε))) (some n) d := by
  obtain ⟨ts, rest', d, rfl, hstatement, hd⟩ := statement_of_returned h old hparse
  by_cases hload : ∃ path tab, n = .loadStmt path tab
  · obtain ⟨path, tab, rfl⟩ := hload
    rcases hstatement.cases with hhelp | ⟨us, e, rfl, hderives⟩
    · cases hhelp
    · obtain ⟨lp, us, e, rfl, rfl, hnil⟩ := load_of_derives hderives
      cases hnil
      have htokens : List.map (Except.ok (ε := ε)) (loadTokens lp tab) = _ :=
        (congrArg _ (loadTokens_eq lp tab)).trans (List.map_append)
      rw [List.append_nil] at hstatement hnames
      change Statement (_ ++ List.map Except.ok [.plain .semicolon rfl]) _ d at hstatement
      rw [← htokens] at hstatement
      have hlp : ∀ s ∈ lp.names, IsName s := by
        intro s hs
        refine hnames s (List.mem_append_left _ (List.mem_append_left _ (List.mem_map_of_mem ?_)))
        exact List.mem_cons_of_mem _ (List.mem_append_left _ (lp.identifier_mem hs))
      rw [treeTokens_load hlp]
      exact ⟨d, hd, hstatement⟩
  · exact statement_treeTokens (ε := ε) hstatement.writable fun path tab heq => hload ⟨path, tab, heq⟩

/-- **Parsing and writing.**  What the parser has made a tree of is parsed to this tree again when the tree is
    written down. -/
theorem yyparse_again {yyvsa : Nat → SemValue} {yylval : SemValue} (h : Constructed yyvsa yylval)
    {old old' : Option TreeNode} {input : List (Except ε Token)} {n : TreeNode}
    (hnames : ∀ s, .ok (.identifier s) ∈ input → IsName s)
    (hparse : yyparse yyvsa yylval old input = some (.returned 0 (some n))) (rest : List (Except ε Token)) :
    yyparse yyvsa yylval old' ((treeTokens n).map .ok ++ rest) = some (.returned 0 (some n)) := by
  obtain ⟨d, hd, hstatement⟩ := statement_again h hnames hparse
  rw [yyparse_statement h old' hstatement, if_pos hd]

/-- The sample statement, written out and read again. -/
theorem yyparse_again_sample : yyparse (ε := Empty) (fun _ => .cleared) .cleared none
    ((treeTokens sampleTree).map .ok ++ []) = some (.returned 0 (some sampleTree)) := by
  have hparse := yyparse_statement (ε := Empty) constructed_cleared none statement_sample []
  rw [if_pos (by decide), List.append_nil] at hparse
  refine yyparse_again constructed_cleared (fun s hs => ?_) hparse []
  -- the names are those of the columns and tables
  have hmem : s ∈ ["a", "t", "b", "u", "c"] := by
    have hall : s = "a" ∨ s = "t" ∨ s = "b" ∨ s = "t" ∨ s = "u" ∨ s = "a" ∨ s = "t" ∨ s = "b" ∨ s = "c" ∨
        s = "a" := by simpa [sampleTokens] using hs
    rcases hall with rfl | rfl | rfl | rfl | rfl | rfl | rfl | rfl | rfl | rfl <;> decide
  have hnames : ∀ s ∈ ["a", "t", "b", "u", "c"], s ≠ "" ∧ ∀ c ∈ s.toList, c ≠ '.' ∧ c ≠ '/' := by simp
  exact hnames s hmem

end Yacc

end Rmdb
