import Mathlib.Data.Multiset.ZeroCons
import Rmdb.Lib.Assignment
import Rmdb.Optimizer.Planner

namespace Rmdb

open Lib

/-!
# What a plan computes

A row gives values to columns.  A scan filters the rows of its table, a join filters the product of
its two sides (`checkConds`).

* `Plan.eval` — the rows of a plan;
* `Plan.Placed` — every condition stands at a node that has its tables;
* `Plan.eval_eq` — the rows of a placed plan are the product of its tables, filtered by all its
  conditions, wherever they stand;
* `Condition.Same` — the same comparison, read from either side.
-/

/-- A row: values for columns. -/
abbrev Row := Assignment TabCol Value

/-- The rows of the tables, by column name. -/
abbrev Contents := String → Multiset (String → Option Value)

/-- A row of table `t`. -/
def rowOf (t : String) (r : String → Option Value) : Row := fun c =>
  if c.tabName = t then r c.colName else none

/-- The rows of table `t`. -/
def Contents.rows (db : Contents) (t : String) : Multiset Row := (db t).map (rowOf t)

/-- One comparison of `checkConds`.  The conditions are checked before the plan is made, so the types
    are compatible and the columns exist. -/
def Condition.holds (c : Condition) (row : Row) : Bool :=
  match row c.lhsCol, (if c.isRhsVal then some c.rhsVal else row c.rhsCol) with
  | some l, some r => binop c.op l r = .ok true
  | _, _ => false

/-- `executor_utils::checkConds`. -/
def checkConds (conds : List Condition) (row : Row) : Bool := conds.all fun c => c.holds row

namespace Plan

/-- The rows of the plan. -/
def eval (db : Contents) : Plan → Multiset Row
  | .scan t conds _ => (db.rows t).filter fun row => checkConds conds row
  | .join left right conds =>
    (product (left.eval db) (right.eval db)).filter fun row => checkConds conds row

/-- The tables of the plan, from left to right. -/
def tables : Plan → List String
  | .scan t _ _ => [t]
  | .join left right _ => left.tables ++ right.tables

/-- All conditions of the plan. -/
def conds : Plan → List Condition
  | .scan _ conds _ => conds
  | .join left right conds => left.conds ++ right.conds ++ conds

end Plan

/-- The tables of a condition. -/
def Condition.tabs (c : Condition) : List String :=
  if c.isRhsVal then [c.lhsCol.tabName] else [c.lhsCol.tabName, c.rhsCol.tabName]

/-- Every condition is at a node that has its tables. -/
def Plan.Placed : Plan → Prop
  | .scan t conds _ => ∀ c ∈ conds, c.tabs ⊆ [t]
  | .join left right conds =>
    left.Placed ∧ right.Placed ∧ ∀ c ∈ conds, c.tabs ⊆ left.tables ++ right.tables

/-- What `SELECT` means: the product of the tables, filtered by all conditions. -/
def selectRows (db : Contents) (tables : List String) (conds : List Condition) : Multiset Row :=
  (cross db.rows tables).filter fun row => checkConds conds row

/-! ### Conditions -/

/-- A condition looks at the columns of its tables only. -/
theorem Condition.holds_congr {c : Condition} {row row' : Row}
    (h : ∀ col : TabCol, col.tabName ∈ c.tabs → row col = row' col) : c.holds row = c.holds row' := by
  have hl : row c.lhsCol = row' c.lhsCol := by
    apply h
    unfold Condition.tabs
    split <;> simp
  unfold Condition.holds
  by_cases hv : c.isRhsVal = true
  · simp only [hv, if_true, hl]
  · have hr : row c.rhsCol = row' c.rhsCol := by
      apply h
      simp [Condition.tabs, hv]
    simp only [hv, hl, hr]

theorem checkConds_congr {conds : List Condition} {row row' : Row}
    (h : ∀ c ∈ conds, ∀ col : TabCol, col.tabName ∈ c.tabs → row col = row' col) :
    checkConds conds row = checkConds conds row' := by
  unfold checkConds
  rw [Bool.eq_iff_iff, List.all_eq_true, List.all_eq_true]
  refine forall₂_congr fun c hc => ?_
  rw [Condition.holds_congr (h c hc)]

theorem checkConds_append (conds conds' : List Condition) (row : Row) :
    checkConds (conds ++ conds') row = (checkConds conds row && checkConds conds' row) :=
  List.all_append

/-- The same condition, or its columns have changed sides. -/
def Condition.Same (c d : Condition) : Prop := c = d ∨ (d.isRhsVal = false ∧ c = d.swap)

theorem Condition.Same.refl (c : Condition) : c.Same c := .inl rfl

theorem CompOp.swap_swap (op : CompOp) : op.swap.swap = op := by cases op <;> rfl

/-- Both readings of a condition say the same. -/
theorem Condition.Same.holds {c d : Condition} (h : c.Same d) (row : Row) :
    c.holds row = d.holds row := by
  rcases h with rfl | ⟨hv, rfl⟩
  · rfl
  · unfold Condition.holds Condition.swap
    simp only [hv, Bool.false_eq_true, if_false]
    cases hl : row d.lhsCol with
    | none => cases row d.rhsCol <;> rfl
    | some l =>
      cases hr : row d.rhsCol with
      | none => rfl
      | some r =>
        simp only [decide_eq_decide]
        constructor
        · intro hb
          have hswap := binop_swap hb
          rwa [CompOp.swap_swap] at hswap
        · exact binop_swap

/-- Lists with the same conditions filter the same rows. -/
theorem checkConds_of_rel {cs ds : List Condition}
    (h : Multiset.Rel Condition.Same (cs : Multiset Condition) (ds : Multiset Condition))
    (row : Row) : checkConds cs row = checkConds ds row := by
  have hall : ∀ {s t : Multiset Condition}, Multiset.Rel Condition.Same s t →
      ((∀ c ∈ s, c.holds row = true) ↔ ∀ d ∈ t, d.holds row = true) := by
    intro s t hst
    induction hst with
    | zero => simp
    | cons hcd _ ih => simp only [Multiset.mem_cons, forall_eq_or_imp, hcd.holds row, ih]
  unfold checkConds
  rw [Bool.eq_iff_iff, List.all_eq_true, List.all_eq_true]
  exact hall h

/-! ### Plans -/

/-- The rows of a table give values to its columns. -/
theorem within_rows (db : Contents) (t : String) : ∀ a ∈ db.rows t, a.Within (·.tabName = t) := by
  intro a ha col hcol
  obtain ⟨r, -, rfl⟩ := Multiset.mem_map.mp ha
  by_contra hne
  exact hcol (if_neg hne)

/-- The conditions of a placed plan are about its tables. -/
theorem Plan.Placed.tabs_subset {p : Plan} (h : p.Placed) : ∀ c ∈ p.conds, c.tabs ⊆ p.tables := by
  induction p with
  | scan t conds indexCols => exact h
  | join left right conds ihl ihr =>
    obtain ⟨hl, hr, hc⟩ := h
    intro c hcm
    simp only [Plan.conds, List.mem_append] at hcm
    rcases hcm with (hcm | hcm) | hcm
    · exact List.subset_append_of_subset_left _ (ihl hl c hcm)
    · exact List.subset_append_of_subset_right _ (ihr hr c hcm)
    · exact hc c hcm

/-- **The rows of a plan.** Where every condition has its tables below it, the plan computes the
    product of its tables, filtered by all its conditions. -/
theorem Plan.eval_eq (db : Contents) {p : Plan} (h : p.Placed) (hd : p.tables.Nodup) :
    p.eval db = selectRows db p.tables p.conds := by
  unfold selectRows
  induction p with
  | scan t conds indexCols =>
    simp only [Plan.eval, Plan.tables, Plan.conds, cross_singleton]
  | join left right conds ihl ihr =>
    obtain ⟨hl, hr, -⟩ := h
    obtain ⟨hdl, hdr, hdisj⟩ := List.nodup_append'.mp hd
    simp only [Plan.eval, Plan.tables, Plan.conds]
    rw [ihl hl hdl, ihr hr hdr, cross_append]
    -- the conditions of a side look at the columns of that side
    rw [← filter_product (p := fun row => checkConds (left.conds ++ right.conds) row)]
    · rw [Multiset.filter_filter]
      refine Multiset.filter_congr fun row _ => ?_
      rw [checkConds_append _ conds, Bool.and_eq_true]
      exact and_comm
    · intro a ha b hb
      rw [checkConds_append]
      congr 1
      · refine checkConds_congr fun c hc col hcol =>
          Assignment.merge_left (within_cross (within_rows db) hb) ?_
        exact List.disjoint_left.mp hdisj (hl.tabs_subset c hc hcol)
      · refine checkConds_congr fun c hc col hcol =>
          Assignment.merge_right (within_cross (within_rows db) ha) ?_
        exact List.disjoint_right.mp hdisj (hr.tabs_subset c hc hcol)

/-- **Two ways to the same rows.** Tables in another order and conditions read from the other side. -/
theorem selectRows_congr (db : Contents) {ts us : List String} {cs ds : List Condition}
    (ht : ts.Perm us) (hd : ts.Nodup)
    (hc : Multiset.Rel Condition.Same (cs : Multiset Condition) (ds : Multiset Condition)) :
    selectRows db ts cs = selectRows db us ds := by
  unfold selectRows
  rw [cross_perm (within_rows db) ht hd]
  refine Multiset.filter_congr fun row _ => ?_
  rw [checkConds_of_rel hc row]

end Rmdb
