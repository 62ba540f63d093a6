import Rmdb.Execution.SortExecutor

namespace Rmdb

open Lib AbstractExecutor

/-!
# What an executor tells the one above it (`Portal::convert_plan_executor`)

A join places the columns of its right side by `tupleLen()` of the left one and copies `tupleLen()` bytes
of both records, and a sort looks up its columns with `get_col_offset()`.  `AbstractExecutor` has silent
defaults for both.

* `ExecPlan.convert` — the executors of a plan tree;
* `AbstractExecutor.RowContract` — what the parent of an executor relies on;
* `seqScan_rowContract`, `join_rowContract` — sequential scans keep it, and joins of such executors do;
* `not_rowContract` — an executor with the default of `get_col_offset` does not;
* `ExecPlan.rowContract_iff` — when all children of a tree keep it, and the rows do not depend on the
  kind of the scans.
-/

/-! ### Plans -/

/-- The plan trees of `Portal::convert_plan_executor`. -/
inductive ExecPlan where
  | seqScan (t : ScanTable) (conds : List Condition)
  | indexScan (t : ScanTable) (index : IndexMeta)
      (ih : IxIndexHandle (RawKey (IndexScan.ixCols index.cols))) (conds : List Condition)
  | join (left right : ExecPlan) (conds : List Condition)
  | sort (subplan : ExecPlan) (selCols : List (TabCol × Bool)) (limit : Int)
  | projection (subplan : ExecPlan) (selCols : List TabCol)

/-- An executor and its state after the constructor. -/
structure AnyExecutor where
  State : Type
  init : State
  ops : AbstractExecutor State

namespace ExecPlan

variable (stdSort : (List UInt8 → List UInt8 → Bool) → List (List UInt8) → List (List UInt8))
  (fuel : Nat)

/-- `convert_plan_executor`; the constructors of a sort and a projection may throw. -/
def convert : ExecPlan → Except RunError AnyExecutor
  | seqScan t conds => .ok ⟨_, none, AbstractExecutor.seqScan fuel t conds⟩
  | indexScan t index ih conds => .ok ⟨_, none, AbstractExecutor.indexScan fuel t index ih conds⟩
  | join left right conds =>
    match left.convert, right.convert with
    | .ok l, .ok r =>
      .ok ⟨_, JoinState.create l.init r.init, blockNestedLoopJoin l.ops r.ops conds fuel⟩
    | .error e, _ => .error e
    | _, .error e => .error e
  | sort subplan selCols limit =>
    match subplan.convert with
    | .error e => .error e
    | .ok prev =>
      match sortCols prev.ops selCols with
      | .error e => .error e
      | .ok cols =>
        .ok ⟨_, SortState.create prev.init, AbstractExecutor.sort stdSort prev.ops cols limit fuel⟩
  | projection subplan selCols =>
    match subplan.convert with
    | .error e => .error e
    | .ok prev =>
      match projectionCols prev.ops selCols 0 with
      | .error e => .error e
      | .ok cols => .ok ⟨_, prev.init, AbstractExecutor.projection prev.ops cols.1 cols.2⟩

/-- The rows of a query. -/
def rows (plan : ExecPlan) : Except RunError (List (List UInt8)) :=
  match plan.convert stdSort fuel with
  | .error e => .error e
  | .ok e => e.ops.run .outOfFuel fuel e.init

end ExecPlan

/-! ### The contract -/

/-- **What the parent of an executor relies on.** -/
structure AbstractExecutor.RowContract {σ : Type} (e : AbstractExecutor σ) : Prop where
  /-- `tupleLen()` is the length of the records. -/
  length : ∀ st rec, e.item st = .ok rec → rec.length = e.tupleLen
  /-- The columns are in the records. -/
  inside : ∀ c ∈ e.cols, c.col.offset + c.col.len ≤ e.tupleLen
  /-- `get_col_offset()` finds the columns. -/
  lookup : ∀ x c, ExecCol.find? e.cols x = some c → e.getColOffset x = .ok c

/-- A table as `create_table` lays it out: named, with columns that fill the records up to their ends. -/
structure ScanTable.LaidOut (t : ScanTable) : Prop where
  named : t.tab ≠ ""
  nonempty : t.cols ≠ []
  recordSize : tableLen t = t.hdr.recordSize
  inside : ∀ c ∈ t.cols, c.offset + c.len ≤ t.hdr.recordSize

namespace ExecPlan

/-- The tables of the plan are laid out, and the projections have columns. -/
def WellFormed : ExecPlan → Prop
  | seqScan t _ => t.LaidOut
  | indexScan t _ _ _ => t.LaidOut
  | join left right _ => left.WellFormed ∧ right.WellFormed
  | sort subplan _ _ => subplan.WellFormed
  | projection subplan selCols => selCols ≠ [] ∧ subplan.WellFormed

/-- The plan is one of a sequential scan or a join. -/
def ScansOrJoins : ExecPlan → Prop
  | seqScan _ _ => True
  | join _ _ _ => True
  | _ => False

/-- A property of all plans below the root. -/
def Below (p : ExecPlan → Prop) : ExecPlan → Prop
  | seqScan _ _ => True
  | indexScan _ _ _ _ => True
  | join left right _ => (p left ∧ left.Below p) ∧ (p right ∧ right.Below p)
  | sort subplan _ _ => p subplan ∧ subplan.Below p
  | projection subplan _ => p subplan ∧ subplan.Below p

/-- The executor of the plan keeps the contract. -/
def Honours (stdSort : (List UInt8 → List UInt8 → Bool) → List (List UInt8) → List (List UInt8))
    (fuel : Nat) (plan : ExecPlan) : Prop :=
  ∃ e, plan.convert stdSort fuel = .ok e ∧ e.ops.RowContract

/-- The same rows, in some order. -/
inductive SameRows : Except RunError (List (List UInt8)) → Except RunError (List (List UInt8)) → Prop
  | rows {rows rows' : List (List UInt8)} (h : rows.Perm rows') : SameRows (.ok rows) (.ok rows')
  | error (e : RunError) : SameRows (.error e) (.error e)

section Replaced

variable (stdSort : (List UInt8 → List UInt8 → Bool) → List (List UInt8) → List (List UInt8))
  (fuel : Nat)

/-- Some sequential scans of the first plan are index scans in the second one, which find the same. -/
inductive ScansReplaced : ExecPlan → ExecPlan → Prop
  | refl (plan : ExecPlan) : ScansReplaced plan plan
  | scan {t : ScanTable} {index : IndexMeta} {ih : IxIndexHandle (RawKey (IndexScan.ixCols index.cols))}
      {conds : List Condition}
      (h : SameRows ((seqScan t conds).rows stdSort fuel)
        ((indexScan t index ih conds).rows stdSort fuel)) :
      ScansReplaced (seqScan t conds) (indexScan t index ih conds)
  | join {left left' right right' : ExecPlan} (conds : List Condition) (hl : ScansReplaced left left')
      (hr : ScansReplaced right right') : ScansReplaced (join left right conds) (join left' right' conds)
  | sort {plan plan' : ExecPlan} (selCols : List (TabCol × Bool)) (limit : Int)
      (h : ScansReplaced plan plan') : ScansReplaced (sort plan selCols limit) (sort plan' selCols limit)
  | projection {plan plan' : ExecPlan} (selCols : List TabCol) (h : ScansReplaced plan plan') :
      ScansReplaced (projection plan selCols) (projection plan' selCols)

/-- The rows of the plan are those of the plans with sequential scans in the place of index scans. -/
def KeepsRows (plan : ExecPlan) : Prop :=
  ∀ plan', ScansReplaced stdSort fuel plan' plan →
    SameRows (plan'.rows stdSort fuel) (plan.rows stdSort fuel)

end Replaced

end ExecPlan

/-! ### Executors that keep the contract -/

section Contract

variable {σ τ : Type} {left : AbstractExecutor σ} {right : AbstractExecutor τ} {t : ScanTable}
  {conds : List Condition}

/-- A column that is found has its offset. -/
theorem lookup_findOffset {cols : List ExecCol} {x : TabCol} {c : ExecCol}
    (h : ExecCol.find? cols x = some c) : findOffset cols x = .ok c := by
  unfold findOffset
  rw [h]

/-- A scan's rows have the table's columns. -/
theorem seqScan_rowContract (h : t.LaidOut) (conds : List Condition) (fuel : Nat) :
    (AbstractExecutor.seqScan fuel t conds).RowContract where
  length st rec hitem := by
    obtain ⟨rid, -, hget⟩ := bind_eq_ok.mp hitem
    have hget := mapError_eq_ok.mp hget
    unfold ScanTable.getRecord at hget
    split at hget
    · cases hget
    · cases hget
      rw [PageData.getSlot_length]
      exact h.recordSize.symm
  inside c hc := by
    obtain ⟨col, hcol, rfl⟩ := List.mem_map.mp hc
    exact (h.inside col hcol).trans_eq h.recordSize.symm
  lookup x c hfind := lookup_findOffset hfind

/-- A join's rows have the columns of both sides. -/
theorem join_rowContract (hl : left.RowContract) (hr : right.RowContract) (conds : List Condition)
    (fuel : Nat) : (blockNestedLoopJoin left right conds fuel).RowContract where
  length st rec hitem := by
    have hitem : joinNext left right st = .ok rec := hitem
    unfold joinNext at hitem
    split at hitem
    · cases hitem
    · obtain ⟨r, -, hrec⟩ := bind_eq_ok.mp hitem
      cases hrec
      show (joinRow _ _ _ _).length = left.tupleLen + right.tupleLen
      unfold joinRow
      rw [List.length_append, length_padBytes, length_padBytes]
  inside c hc := by
    show c.col.offset + c.col.len ≤ left.tupleLen + right.tupleLen
    rcases List.mem_append.mp hc with hc | hc
    · exact (hl.inside c hc).trans (Nat.le_add_right _ _)
    · obtain ⟨c', hc', rfl⟩ := List.mem_map.mp hc
      have hin := hr.inside c' hc'
      dsimp only
      omega
  lookup x c hfind := lookup_findOffset hfind

/-- **An executor with the default of `get_col_offset` breaks the contract**, if it has a column. -/
theorem not_rowContract {e : AbstractExecutor σ} (hdefault : ∀ x, e.getColOffset x = .ok ExecCol.default)
    {c : ExecCol} (hc : c ∈ e.cols) (hnamed : c.tabName ≠ "") : ¬ e.RowContract := by
  intro h
  cases hfind : ExecCol.find? e.cols ⟨c.tabName, c.col.name⟩ with
  | none =>
    have hnot := List.find?_eq_none.mp hfind c hc
    simp at hnot
  | some c' =>
    have hfound := h.lookup _ _ hfind
    rw [hdefault] at hfound
    cases hfound
    have hname : "" = c.tabName ∧ "" = c.col.name := of_decide_eq_true (List.find?_some
      (p := fun c' : ExecCol => c'.tabName = c.tabName ∧ c'.col.name = c.col.name) hfind)
    exact hnamed hname.1.symm

end Contract

/-! ### Plans -/

namespace ExecPlan

variable {stdSort : (List UInt8 → List UInt8 → Bool) → List (List UInt8) → List (List UInt8)}
  {fuel : Nat} {plan : ExecPlan} {e : AnyExecutor}

/-- The executor of a join has those of its sides. -/
theorem convert_join {left right : ExecPlan} {conds : List Condition}
    (h : (join left right conds).convert stdSort fuel = .ok e) :
    ∃ l r, left.convert stdSort fuel = .ok l ∧ right.convert stdSort fuel = .ok r ∧
      e = ⟨_, JoinState.create l.init r.init, blockNestedLoopJoin l.ops r.ops conds fuel⟩ := by
  rw [convert] at h
  split at h
  · next l r hl hr => exact ⟨l, r, hl, hr, (Except.ok.inj h).symm⟩
  · cases h
  · cases h

/-- The executor of a sort has that of its plan. -/
theorem convert_sort {selCols : List (TabCol × Bool)} {limit : Int}
    (h : (sort plan selCols limit).convert stdSort fuel = .ok e) :
    ∃ prev cols, plan.convert stdSort fuel = .ok prev ∧
      e = ⟨_, SortState.create prev.init, AbstractExecutor.sort stdSort prev.ops cols limit fuel⟩ := by
  rw [convert] at h
  split at h
  · cases h
  · next prev hprev =>
    split at h
    · cases h
    · next cols hcols => exact ⟨prev, cols, hprev, (Except.ok.inj h).symm⟩

/-- The executor of a projection has that of its plan. -/
theorem convert_projection {selCols : List TabCol}
    (h : (projection plan selCols).convert stdSort fuel = .ok e) :
    ∃ prev cols, plan.convert stdSort fuel = .ok prev ∧ projectionCols prev.ops selCols 0 = .ok cols ∧
      e = ⟨_, prev.init, AbstractExecutor.projection prev.ops cols.1 cols.2⟩ := by
  rw [convert] at h
  split at h
  · cases h
  · next prev hprev =>
    split at h
    · cases h
    · next cols hcols => exact ⟨prev, cols, hprev, hcols, (Except.ok.inj h).symm⟩

/-- The columns of a projection. -/
theorem mem_projectionCols {σ : Type} {prev : AbstractExecutor σ} {selCols : List TabCol} {off : Nat}
    {cols : List ExecCol × Nat} (h : projectionCols prev selCols off = .ok cols) :
    cols.1.length = selCols.length ∧ ∀ c ∈ cols.1, ∃ c' ∈ prev.cols, c'.tabName = c.tabName := by
  induction selCols generalizing off cols with
  | nil =>
    cases h
    exact ⟨rfl, fun c hc => absurd hc List.not_mem_nil⟩
  | cons x selCols ih =>
    obtain ⟨c, hc, h⟩ := bind_eq_ok.mp h
    obtain ⟨rest, hrest, h⟩ := bind_eq_ok.mp h
    cases h
    obtain ⟨hlen, hmem⟩ := ih hrest
    refine ⟨congrArg (· + 1) hlen, fun c' hc' => ?_⟩
    rcases List.mem_cons.mp hc' with rfl | hc'
    · unfold findOffset at hc
      split at hc
      · next found hfound =>
        cases hc
        exact ⟨c, List.mem_of_find?_eq_some hfound, rfl⟩
      · cases hc
    · exact hmem c' hc'

/-- The executors of a plan have columns of named tables. -/
theorem convert_cols (hwf : plan.WellFormed) (h : plan.convert stdSort fuel = .ok e) :
    e.ops.cols ≠ [] ∧ ∀ c ∈ e.ops.cols, c.tabName ≠ "" := by
  have htable : ∀ {t : ScanTable}, t.LaidOut →
      tableCols t ≠ [] ∧ ∀ c ∈ tableCols t, c.tabName ≠ "" := by
    intro t ht
    refine ⟨fun hnil => ht.nonempty (List.map_eq_nil_iff.mp hnil), fun c hc => ?_⟩
    obtain ⟨col, -, rfl⟩ := List.mem_map.mp hc
    exact ht.named
  induction plan generalizing e with
  | seqScan t conds =>
    cases h
    exact htable hwf
  | indexScan t index ih conds =>
    cases h
    exact htable hwf
  | join left right conds ihl ihr =>
    obtain ⟨l, r, hl, hr, rfl⟩ := convert_join h
    obtain ⟨hne, hleft⟩ := ihl hwf.1 hl
    refine ⟨fun hnil => hne (List.append_eq_nil_iff.mp hnil).1, fun c hc => ?_⟩
    rcases List.mem_append.mp hc with hc | hc
    · exact hleft c hc
    · obtain ⟨c', hc', rfl⟩ := List.mem_map.mp hc
      exact (ihr hwf.2 hr).2 c' hc'
  | sort plan selCols limit ih =>
    obtain ⟨prev, cols, hprev, rfl⟩ := convert_sort h
    have hcols := ih hwf hprev
    exact hcols
  | projection plan selCols ih =>
    obtain ⟨prev, cols, hprev, hcols, rfl⟩ := convert_projection h
    obtain ⟨hlen, hmem⟩ := mem_projectionCols hcols
    refine ⟨fun hnil => hwf.1 ?_, fun c hc => ?_⟩
    · rw [show cols.1 = [] from hnil] at hlen
      exact List.length_eq_zero_iff.mp hlen.symm
    · obtain ⟨c', hc', hname⟩ := hmem c hc
      rw [← hname]
      exact (ih hwf.2 hprev).2 c' hc'

/-- Only sequential scans and joins keep the contract. -/
theorem scansOrJoins_of_rowContract (hwf : plan.WellFormed) (h : plan.convert stdSort fuel = .ok e)
    (hcontract : e.ops.RowContract) : plan.ScansOrJoins := by
  obtain ⟨hne, hnamed⟩ := convert_cols hwf h
  obtain ⟨c, hc⟩ := List.exists_mem_of_ne_nil _ hne
  have hdefault : ¬ ∀ x, e.ops.getColOffset x = .ok ExecCol.default :=
    fun hdefault => not_rowContract hdefault hc (hnamed c hc) hcontract
  cases plan with
  | seqScan t conds => trivial
  | join left right conds => trivial
  | indexScan t index ih conds =>
    cases h
    exact hdefault fun _ => rfl
  | sort plan selCols limit =>
    obtain ⟨prev, cols, hprev, rfl⟩ := convert_sort h
    exact hdefault fun _ => rfl
  | projection plan selCols =>
    obtain ⟨prev, cols, hprev, -, rfl⟩ := convert_projection h
    exact hdefault fun _ => rfl

/-- Trees of sequential scans and joins keep it. -/
theorem rowContract_of_scansOrJoins (hwf : plan.WellFormed) (hscan : plan.ScansOrJoins)
    (hbelow : plan.Below ScansOrJoins) (h : plan.convert stdSort fuel = .ok e) :
    e.ops.RowContract := by
  induction plan generalizing e with
  | seqScan t conds =>
    cases h
    exact seqScan_rowContract hwf conds fuel
  | join left right conds ihl ihr =>
    obtain ⟨l, r, hl, hr, rfl⟩ := convert_join h
    obtain ⟨⟨hleft, hleft'⟩, hright, hright'⟩ := hbelow
    exact join_rowContract (ihl hwf.1 hleft hleft' hl) (ihr hwf.2 hright hright' hr) conds fuel
  | indexScan t index ih conds => exact hscan.elim
  | sort plan selCols limit => exact hscan.elim
  | projection plan selCols => exact hscan.elim

/-- The executor keeps the contract exactly when the plan consists of scans and joins. -/
theorem honours_iff (hwf : plan.WellFormed) (hbelow : plan.Below ScansOrJoins)
    (h : plan.convert stdSort fuel = .ok e) : plan.Honours stdSort fuel ↔ plan.ScansOrJoins := by
  constructor
  · rintro ⟨e', he', hcontract⟩
    exact scansOrJoins_of_rowContract hwf he' hcontract
  · exact fun hscan => ⟨e, h, rowContract_of_scansOrJoins hwf hscan hbelow h⟩

/-- **The children keep the contract if and only if they are sequential scans and joins.** -/
theorem below_honours_iff (hwf : plan.WellFormed) (h : plan.convert stdSort fuel = .ok e) :
    plan.Below (Honours stdSort fuel) ↔ plan.Below ScansOrJoins := by
  have hchild : ∀ {plan : ExecPlan} {e : AnyExecutor}, plan.WellFormed →
      plan.convert stdSort fuel = .ok e → (plan.Below (Honours stdSort fuel) ↔ plan.Below ScansOrJoins) →
      (plan.Honours stdSort fuel ∧ plan.Below (Honours stdSort fuel) ↔
        plan.ScansOrJoins ∧ plan.Below ScansOrJoins) := by
    intro plan e hwf h hiff
    rw [hiff]
    exact and_congr_left fun hbelow => honours_iff hwf hbelow h
  induction plan generalizing e with
  | seqScan t conds => exact Iff.rfl
  | indexScan t index ih conds => exact Iff.rfl
  | join left right conds ihl ihr =>
    obtain ⟨l, r, hl, hr, -⟩ := convert_join h
    exact and_congr (hchild hwf.1 hl (ihl hwf.1 hl)) (hchild hwf.2 hr (ihr hwf.2 hr))
  | sort plan selCols limit ih =>
    obtain ⟨prev, cols, hprev, -⟩ := convert_sort h
    exact hchild hwf hprev (ih hwf hprev)
  | projection plan selCols ih =>
    obtain ⟨prev, cols, hprev, -, -⟩ := convert_projection h
    exact hchild hwf.2 hprev (ih hwf.2 hprev)

/-- With sequential scans and joins below, nothing was replaced but a scan at the root. -/
theorem ScansReplaced.eq_or_scan {plan' : ExecPlan} (h : ScansReplaced stdSort fuel plan' plan)
    (hbelow : plan.Below ScansOrJoins) :
    plan' = plan ∨
      ¬ plan.ScansOrJoins ∧ SameRows (plan'.rows stdSort fuel) (plan.rows stdSort fuel) := by
  have hsame : ∀ {p p' : ExecPlan} {q : Prop}, (p' = p ∨ ¬ p.ScansOrJoins ∧ q) → p.ScansOrJoins →
      p' = p := fun h hscan => h.resolve_right fun h => h.1 hscan
  induction h with
  | refl plan => exact .inl rfl
  | scan h => exact .inr ⟨fun h => h, h⟩
  | join conds hl hr ihl ihr =>
    obtain ⟨⟨hleft, hleft'⟩, hright, hright'⟩ := hbelow
    rw [hsame (ihl hleft') hleft, hsame (ihr hright') hright]
    exact .inl rfl
  | sort selCols limit h ih =>
    rw [hsame (ih hbelow.2) hbelow.1]
    exact .inl rfl
  | projection selCols h ih =>
    rw [hsame (ih hbelow.2) hbelow.1]
    exact .inl rfl

/-- The rows of one run. -/
theorem SameRows.refl (r : Except RunError (List (List UInt8))) : SameRows r r := by
  cases r with
  | ok rows => exact .rows (.refl rows)
  | error e => exact .error e

/-- **The row contract.** The children of joins, sorts and projections keep it, and the rows stay when
sequential scans become index scans, if and only if these children are sequential scans and joins. -/
theorem rowContract_iff (hwf : plan.WellFormed) (h : plan.convert stdSort fuel = .ok e) :
    (plan.Below (Honours stdSort fuel) ∧ plan.KeepsRows stdSort fuel) ↔ plan.Below ScansOrJoins := by
  rw [below_honours_iff hwf h]
  refine ⟨fun h => h.1, fun hbelow => ⟨hbelow, fun plan' hreplaced => ?_⟩⟩
  rcases hreplaced.eq_or_scan hbelow with rfl | ⟨-, hsame⟩
  · exact SameRows.refl _
  · exact hsame

open IndexedTable

/-- The table with the row 5, under the name `u`. -/
def tableU : ScanTable := { tableFive.toScanTable with tab := "u" }

/-- The columns of the sample tables. -/
theorem laidOut_tables : tableFive.toScanTable.LaidOut ∧ tableU.LaidOut := by
  have hinside : ∀ c ∈ [colA], c.offset + c.len ≤ 4 := by decide
  exact ⟨⟨by decide, List.cons_ne_nil _ _, rfl, hinside⟩,
    ⟨by decide, List.cons_ne_nil _ _, rfl, hinside⟩⟩

/-- The projection on `t.a` of a join of two sequential scans. -/
theorem rowContract_two_tables :
    let plan := projection (join (seqScan tableFive.toScanTable []) (seqScan tableU []) []) [⟨"t", "a"⟩]
    plan.Below (Honours (fun _ l => l) 9) ∧ plan.KeepsRows (fun _ l => l) 9 := by
  intro plan
  have hconvert : ∃ e, plan.convert (fun _ l => l) 9 = .ok e := ⟨_, rfl⟩
  obtain ⟨e, he⟩ := hconvert
  have hwf : plan.WellFormed := ⟨List.cons_ne_nil _ _, laidOut_tables.1, laidOut_tables.2⟩
  exact (rowContract_iff hwf he).mpr ⟨trivial, ⟨trivial, trivial⟩, trivial, trivial⟩

/-- **An index scan under a join.** Both scans of `t` find the row 5; with the index scan on the left the
join loses its bytes. -/
theorem index_scan_under_join :
    let scan := seqScan tableFive.toScanTable [aEquals 5]
    let scan' := indexScan tableFive.toScanTable tableFive.index tableFive.rawHandle [aEquals 5]
    let plan := join scan (seqScan tableU []) []
    let plan' := join scan' (seqScan tableU []) []
    scan.rows (fun _ l => l) 9 = .ok [[5, 0, 0, 0]] ∧ scan'.rows (fun _ l => l) 9 = .ok [[5, 0, 0, 0]] ∧
      plan.rows (fun _ l => l) 9 = .ok [[5, 0, 0, 0, 5, 0, 0, 0]] ∧
      plan'.rows (fun _ l => l) 9 = .ok [[5, 0, 0, 0]] ∧
      ¬ (plan'.Below (Honours (fun _ l => l) 9) ∧ plan'.KeepsRows (fun _ l => l) 9) := by
  intro scan scan' plan plan'
  have hscan : scan.rows (fun _ l => l) 9 = .ok [[5, 0, 0, 0]] := by decide +kernel
  have hscan' : scan'.rows (fun _ l => l) 9 = .ok [[5, 0, 0, 0]] := by decide +kernel
  have hplan : plan.rows (fun _ l => l) 9 = .ok [[5, 0, 0, 0, 5, 0, 0, 0]] := by decide +kernel
  have hplan' : plan'.rows (fun _ l => l) 9 = .ok [[5, 0, 0, 0]] := by decide +kernel
  refine ⟨hscan, hscan', hplan, hplan', fun ⟨_, hkeeps⟩ => ?_⟩
  have hsame : SameRows (scan.rows (fun _ l => l) 9) (scan'.rows (fun _ l => l) 9) := by
    rw [hscan, hscan']
    exact SameRows.refl _
  have hrows := hkeeps plan (.join [] (.scan hsame) (.refl _))
  rw [hplan, hplan'] at hrows
  cases hrows with
  | rows h => exact absurd (List.singleton_perm_singleton.mp h) (by decide)

end ExecPlan

end Rmdb
