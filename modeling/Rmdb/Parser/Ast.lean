import Rmdb.Execution.Literals

namespace Rmdb

/-!
# The syntax tree (`parser/ast.h`)

What the parser makes of a statement.  Texts are strings of bytes, a float is its pattern.

* `Ast.TreeNode` — the statements;
* `Ast.SelectStmt.select`, `Ast.SelectStmt.aggregate` — the two constructors of a `SELECT`.
-/

namespace Ast

/-- `ast::Col`.  The table is empty where it is not written. -/
structure Col where
  tabName : String
  colName : String
  deriving DecidableEq, Repr

/-- `ast::Value`. -/
inductive Value where
  | intLit (val : Int)
  | bigintLit (val : Int)
  | floatLit (val : Nat)
  | stringLit (val : String)
  | datetimeLit (val : String)
  deriving DecidableEq, Repr

/-- `ast::Expr`. -/
inductive Expr where
  | value (v : Value)
  | col (c : Col)
  deriving DecidableEq, Repr

/-- `ast::BinaryExpr`. -/
structure BinaryExpr where
  lhs : Col
  op : CompOp
  rhs : Expr
  deriving DecidableEq, Repr

/-- `ast::SetClause`. -/
structure SetClause where
  colName : String
  val : Value
  isSelfadd : Bool
  deriving DecidableEq, Repr

/-- `ast::ColDef`. -/
structure ColDef where
  colName : String
  typeLen : TypeLen
  deriving DecidableEq, Repr

/-- `enum OrderByDir`. -/
inductive OrderByDir where
  | default
  | asc
  | desc
  deriving DecidableEq, Repr

/-- `ast::OrderBy`. -/
structure OrderBy where
  col : Col
  orderbyDir : OrderByDir
  deriving DecidableEq, Repr

/-- `enum AggregateType`. -/
inductive AggregateType where
  | none
  | count
  | max
  | min
  | sum
  deriving DecidableEq, Repr

/-- `ast::SelectStmt`. -/
structure SelectStmt where
  cols : List Col
  tabs : List String
  conds : List BinaryExpr
  hasSort : Bool
  orders : List OrderBy
  limit : Int
  aggregateType : AggregateType
  aliasName : String
  deriving DecidableEq, Repr

namespace SelectStmt

/-- The constructor without an aggregate. -/
def select (cols : List Col) (tabs : List String) (conds : List BinaryExpr) (orders : List OrderBy)
    (limit : Int) : SelectStmt where
  cols := cols
  tabs := tabs
  conds := conds
  hasSort := !orders.isEmpty
  orders := orders
  limit := limit
  aggregateType := .none
  aliasName := ""

/-- The constructor with an aggregate. -/
def aggregate (cols : List Col) (tabs : List String) (conds : List BinaryExpr) (aggregateType : AggregateType)
    (aliasName : String) : SelectStmt where
  cols := cols
  tabs := tabs
  conds := conds
  hasSort := false
  orders := []
  limit := -1
  aggregateType := aggregateType
  aliasName := aliasName

end SelectStmt

/-- `ast::TreeNode`, the statements. -/
inductive TreeNode where
  | help
  | showTables
  | showIndex (tabName : String)
  | txnBegin
  | txnCommit
  | txnAbort
  | txnRollback
  | createTable (tabName : String) (fields : List ColDef)
  | dropTable (tabName : String)
  | descTable (tabName : String)
  | createIndex (tabName : String) (colNames : List String)
  | dropIndex (tabName : String) (colNames : List String)
  | insertStmt (tabName : String) (vals : List Value)
  | deleteStmt (tabName : String) (conds : List BinaryExpr)
  | updateStmt (tabName : String) (setClauses : List SetClause) (conds : List BinaryExpr)
  | selectStmt (s : SelectStmt)
  | loadStmt (path tabName : String)
  deriving DecidableEq, Repr

end Ast

end Rmdb
