import Mathlib.Data.List.Basic
import Rmdb.Execution.Binop

namespace Rmdb

/-!
# The planner (`optimizer/planner.cpp`, `optimizer/plan.h`)

`Planner::make_one_rel` turns the tables and the conditions of a `SELECT` into a tree of scans and
joins.  A condition on one table goes to the scan of the table.  The others are taken one by one: a
condition on tables that are not in the tree yet brings them in, one on tables that are is pushed down
to the node where they meet.  Tables without such a condition are joined at the end.

* `getIndexCols` — the choice of an index for a scan;
* `pushConds` — the way down to the node;
* `makeOneRel` — the tree; `none` stands for a null child, which a condition on a table that is not in
  `FROM` would give.
-/

/-- `struct TabCol`. -/
structure TabCol where
  tabName : String
  colName : String
  deriving DecidableEq, Repr

/-- `struct Condition`.  `rhsCol` is empty where the right side is a value. -/
structure Condition where
  lhsCol : TabCol
  op : CompOp
  isRhsVal : Bool
  rhsCol : TabCol
  rhsVal : Value
  deriving DecidableEq, Repr

/-- The columns change sides. -/
def Condition.swap (c : Condition) : Condition :=
  { c with lhsCol := c.rhsCol, rhsCol := c.lhsCol, op := c.op.swap }

/-- `ScanPlan` and `JoinPlan`.  A scan uses an index where `indexCols` is not empty. -/
inductive Plan where
  | scan (tab : String) (conds : List Condition) (indexCols : List String)
  | join (left right : Plan) (conds : List Condition)
  deriving DecidableEq, Repr

namespace Planner

/-! ### Scans -/

instance : LawfulBEq (String × CompOp) := inferInstance

/-- The loop over the indexes in `get_index_cols`; `conds` are the columns that are compared with a
    value, with the operators. -/
def bestIndex (conds : List (String × CompOp)) :
    List IndexMeta → List String → Nat → List String → List String
  | [], _, _, best => best
  | index :: rest, indexed, maxlen, best =>
    let own := index.cols.map (·.name)
    let indexed := indexed ++ own
    -- `continue`, which leaves the names in `indexed_colnames`
    if conds.any fun c => c.1 ∉ own then bestIndex conds rest indexed maxlen best
    else
      let i := (indexed.takeWhile fun x => (x, .eq) ∈ conds).length
      let i := if (indexed[i]?).any (fun x => conds.any fun c => c.1 = x ∧ c.2 ≠ .eq) then i + 1
        else i
      -- `break`
      if i = 0 then best
      else
        let covered := i + ((indexed.drop i).takeWhile fun x => conds.all fun c => c.1 ≠ x).length
        if covered = indexed.length ∧ maxlen < i then bestIndex conds rest [] i indexed
        else bestIndex conds rest [] maxlen best

/-- `Planner::get_index_cols`: the columns of the index, or none. -/
def getIndexCols (indexes : List IndexMeta) (tab : String) (conds : List Condition) : List String :=
  let own := (conds.filter fun c => c.isRhsVal ∧ c.lhsCol.tabName = tab).map fun c =>
    (c.lhsCol.colName, c.op)
  bestIndex own indexes [] 0 []

/-- The conditions that `pop_conds` takes for a table. -/
def popsCond (tab : String) (c : Condition) : Bool :=
  (tab = c.lhsCol.tabName ∧ c.isRhsVal) ∨ c.lhsCol.tabName = c.rhsCol.tabName

/-- `pop_conds`: the conditions for the table, and the others. -/
def popConds (conds : List Condition) (tab : String) : List Condition × List Condition :=
  (conds.filter (popsCond tab), conds.filter fun c => !popsCond tab c)

/-- The scans of the tables, and the conditions that are left. -/
def makeScans (indexesOf : String → List IndexMeta) :
    List String → List Condition → List Plan × List Condition
  | [], conds => ([], conds)
  | tab :: tabs, conds =>
    let r := popConds conds tab
    let rest := makeScans indexesOf tabs r.2
    (.scan tab r.1 (getIndexCols (indexesOf tab) tab r.1) :: rest.1, rest.2)

/-! ### Joins -/

/-- `push_conds`: 1 or 2 if the left or the right column of the condition is in the plan, 3 if both
    are and the condition is now at the node where they meet, 0 otherwise. -/
def pushConds (c : Condition) : Plan → Nat × Plan
  | .scan tab conds indexCols =>
    let plan := Plan.scan tab conds indexCols
    if tab = c.lhsCol.tabName then (1, plan)
    else if tab = c.rhsCol.tabName then (2, plan)
    else (0, plan)
  | .join left right conds =>
    let l := pushConds c left
    if l.1 = 3 then (3, .join l.2 right conds)
    else
      let r := pushConds c right
      if r.1 = 3 then (3, .join left r.2 conds)
      else if l.1 = 0 ∨ r.1 = 0 then (l.1 + r.1, .join left right conds)
      else
        let c := if l.1 = 2 then c.swap else c
        (3, .join left right (conds ++ [c]))

/-- `scantbl` and `joined_tables`. -/
structure Joined where
  scantbl : Nat → Bool
  tables : List String

/-- The plan is the scan of the table. -/
def isScanOf (tab : String) : Plan → Bool
  | .scan t _ _ => t = tab
  | .join _ _ _ => false

/-- `pop_scan`. -/
def popScan (scans : List Plan) (s : Joined) (tab : String) : Option Plan × Joined :=
  match scans.findIdx? (isScanOf tab) with
  | none => (none, s)
  | some i =>
    (scans[i]?, { scantbl := Function.update s.scantbl i true, tables := s.tables ++ [tab] })

/-- `pop_scan` of a table that is not joined yet. -/
def needToJoin (scans : List Plan) (s : Joined) (tab : String) : Option Plan × Joined :=
  if tab ∈ s.tables then (none, s) else popScan scans s tab

/-- One more condition: the four cases of the loop. -/
def joinCond (scans : List Plan) (s : Joined) (tree : Plan) (c : Condition) :
    Option (Joined × Plan) :=
  let l := needToJoin scans s c.lhsCol.tabName
  let isNeedReverse := c.rhsCol.tabName ∉ l.2.tables
  let r := needToJoin scans l.2 c.rhsCol.tabName
  match l.1, r.1 with
  | some left, some right => some (r.2, .join (.join left right [c]) tree [])
  | some left, none => if isNeedReverse then none else some (r.2, .join left tree [c])
  | none, some right => some (r.2, .join right tree [c.swap])
  | none, none => some (r.2, (pushConds c tree).2)

/-- The loop over the conditions. -/
def joinConds (scans : List Plan) : Joined → Plan → List Condition → Option (Joined × Plan)
  | s, tree, [] => some (s, tree)
  | s, tree, c :: conds =>
    match joinCond scans s tree c with
    | none => none
    | some (s, tree) => joinConds scans s tree conds

/-- The tables that are left, from index `i` on. -/
def joinRest (s : Joined) : Nat → List Plan → Plan → Plan
  | _, [], tree => tree
  | i, scan :: scans, tree =>
    if s.scantbl i then joinRest s (i + 1) scans tree
    else joinRest s (i + 1) scans (.join scan tree [])

/-- `Planner::make_one_rel`. -/
def makeOneRel (indexesOf : String → List IndexMeta) (tables : List String)
    (conds : List Condition) : Option Plan :=
  let r := makeScans indexesOf tables conds
  let scans := r.1
  let start : Joined := { scantbl := fun _ => false, tables := List.replicate tables.length "" }
  if tables.length = 1 then scans[0]?
  else
    match r.2 with
    | [] =>
      match scans[0]? with
      | none => none
      | some scan =>
        some (joinRest { start with scantbl := Function.update start.scantbl 0 true } 0 scans scan)
    | c :: conds =>
      let l := popScan scans start c.lhsCol.tabName
      let r := popScan scans l.2 c.rhsCol.tabName
      match l.1, r.1 with
      | some left, some right =>
        match joinConds scans r.2 (.join left right [c]) conds with
        | none => none
        | some (s, tree) => some (joinRest s 0 scans tree)
      | _, _ => none

end Planner

end Rmdb
