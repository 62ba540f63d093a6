import Rmdb.Lib.Transition
import Rmdb.Optimizer.Planner

namespace Rmdb

open Lib

/-!
# The plan of ORDER BY (`Planner::generate_sort_plan`)

A first loop looks up the columns of ORDER BY, a second one appends every column that one of them names
again.

* `Planner.resolveOrder` — the column that an item of ORDER BY names;
* `Planner.generateSortPlan` — the list of keys;
* `generateSortPlan_eq_ok` — the second loop only appends keys of the first one.
-/

/-- `ast::OrderBy`.  The table is empty where it is not written. -/
structure OrderBy where
  tabName : String
  colName : String
  isDesc : Bool
  deriving DecidableEq, Repr

/-- What `generate_sort_plan` throws. -/
inductive SortPlanError where
  | ambiguousColumnError (name : String)
  | columnNotFoundError (name : String)
  deriving DecidableEq, Repr

namespace Planner

/-- The loop over `all_cols` for a column without a table: the table found so far. -/
def findTab (colName : String) : List TabCol → String → Except SortPlanError String
  | [], tab => .ok tab
  | c :: cols, tab =>
    if c.colName ≠ colName then findTab colName cols tab
    else if tab ≠ "" then .error (.ambiguousColumnError colName)
    else findTab colName cols c.tabName

/-- The column of an item of ORDER BY. -/
def resolveOrder (allCols : List TabCol) (o : OrderBy) : Except SortPlanError TabCol :=
  if o.tabName = "" then do
    let tab ← findTab o.colName allCols ""
    if tab = "" then .error (.columnNotFoundError o.colName) else return ⟨tab, o.colName⟩
  else if allCols.any (fun c => c.tabName = o.tabName ∧ c.colName = o.colName) then
    .ok ⟨o.tabName, o.colName⟩
  else .error (.columnNotFoundError o.colName)

/-- The item names this column. -/
def namesCol (col : TabCol) (o : OrderBy) : Bool :=
  (if o.tabName = "" then true else col.tabName = o.tabName) && col.colName = o.colName

/-- `generate_sort_plan` where there is an ORDER BY: the keys and whether they are descending. -/
def generateSortPlan (allCols : List TabCol) (orders : List OrderBy) :
    Except SortPlanError (List (TabCol × Bool)) := do
  let selCols ← orders.mapM fun o => do return (← resolveOrder allCols o, o.isDesc)
  return selCols ++ allCols.flatMap fun col =>
    (orders.filter (namesCol col)).map fun o => (col, o.isDesc)

end Planner

open Planner

variable {allCols : List TabCol} {orders : List OrderBy} {keys : List (TabCol × Bool)}

/-- A column without a table is in one table only. -/
theorem findTab_eq_ok {colName tab tab' : String} (hnamed : ∀ c ∈ allCols, c.tabName ≠ "")
    (h : findTab colName allCols tab = .ok tab') :
    (∀ c ∈ allCols, c.colName = colName → c.tabName = tab') ∧ (tab ≠ "" → tab' = tab) := by
  induction allCols generalizing tab with
  | nil =>
    cases h
    exact ⟨fun _ hc => absurd hc List.not_mem_nil, fun _ => rfl⟩
  | cons c cols ih =>
    have hnamed' := fun x hx => hnamed x (List.mem_cons_of_mem c hx)
    rw [findTab] at h
    by_cases hname : c.colName = colName
    · rw [if_neg (not_not.mpr hname)] at h
      by_cases htab : tab = ""
      · rw [if_neg (not_not.mpr htab)] at h
        obtain ⟨hcols, hkeep⟩ := ih hnamed' h
        refine ⟨fun x hx hxname => ?_, fun hne => absurd htab hne⟩
        rcases List.mem_cons.mp hx with rfl | hx
        · exact (hkeep (hnamed x List.mem_cons_self)).symm
        · exact hcols x hx hxname
      · rw [if_pos htab] at h
        cases h
    · rw [if_pos hname] at h
      obtain ⟨hcols, hkeep⟩ := ih hnamed' h
      refine ⟨fun x hx hxname => ?_, hkeep⟩
      rcases List.mem_cons.mp hx with rfl | hx
      · exact absurd hxname hname
      · exact hcols x hx hxname

/-- An item names no column but the one that it is resolved to. -/
theorem eq_of_namesCol (hnamed : ∀ c ∈ allCols, c.tabName ≠ "") {o : OrderBy} {x col : TabCol}
    (h : resolveOrder allCols o = .ok x) (hcol : col ∈ allCols) (hnames : namesCol col o = true) :
    col = x := by
  obtain ⟨htab, hname⟩ : (if o.tabName = "" then true else decide (col.tabName = o.tabName)) = true ∧
      col.colName = o.colName := by simpa [namesCol] using hnames
  unfold resolveOrder at h
  by_cases hempty : o.tabName = ""
  · rw [if_pos hempty] at h
    obtain ⟨tab, hfind, h⟩ := bind_eq_ok.mp h
    split at h
    · cases h
    · cases h
      rw [← (findTab_eq_ok hnamed hfind).1 col hcol hname, ← hname]
  · rw [if_neg hempty] at h htab
    split at h
    · cases h
      rw [← of_decide_eq_true htab, ← hname]
    · cases h

/-- **The second loop only appends keys that the first loop has already.** -/
theorem generateSortPlan_eq_ok (hnamed : ∀ c ∈ allCols, c.tabName ≠ "")
    (h : generateSortPlan allCols orders = .ok keys) :
    ∃ selCols again, orders.mapM (fun o => do return (← resolveOrder allCols o, o.isDesc)) =
        .ok selCols ∧ keys = selCols ++ again ∧ ∀ k ∈ again, k ∈ selCols := by
  obtain ⟨selCols, hsel, h⟩ := bind_eq_ok.mp h
  cases h
  refine ⟨selCols, _, hsel, rfl, fun k hk => ?_⟩
  obtain ⟨col, hcol, hk⟩ := List.mem_flatMap.mp hk
  obtain ⟨o, ho, rfl⟩ := List.mem_map.mp hk
  obtain ⟨ho, hnames⟩ := List.mem_filter.mp ho
  -- the item has been resolved in the first loop
  obtain ⟨k, hk, hres⟩ := exists_mem_of_mapM hsel ho
  obtain ⟨x, hx, hres⟩ := bind_eq_ok.mp hres
  cases hres
  rw [eq_of_namesCol hnamed hx hcol hnames]
  exact hk

end Rmdb
