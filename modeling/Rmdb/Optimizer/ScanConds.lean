import Rmdb.Optimizer.PlanMeaning

namespace Rmdb

open Planner

/-!
# The conditions of the scans (`pop_conds`)

`make_one_rel` takes the conditions for each table of `FROM` out of the list, one table after the other.
A comparison of two columns of one table is taken for the table that is planned, whichever that is.

* `CheckedConds` — what `Analyze` lets through;
* `PopsRight` — what the loop is for: every condition on one table goes to the scan of the table, the
  others are left;
* `makeScans_spec` — what the loop does;
* `popsRight_iff` — this is right if two columns are compared only on the first table.
-/

/-- The tables of `FROM` have names, and the conditions are on their columns.  The right column of a
    comparison with a value is empty. -/
structure CheckedConds (tables : List String) (conds : List Condition) : Prop where
  named : "" ∉ tables
  checked : ∀ c ∈ conds, c.tabs ⊆ tables
  values : ∀ c ∈ conds, c.isRhsVal = true → c.rhsCol.tabName = ""

/-- The condition compares columns of different tables. -/
def Condition.relates (c : Condition) : Bool := !c.isRhsVal && c.lhsCol.tabName ≠ c.rhsCol.tabName

/-- The conditions of a scan. -/
def Plan.scanConds : Plan → List Condition
  | .scan _ conds _ => conds
  | .join _ _ _ => []

/-- **What the loop over the tables is for.** -/
structure PopsRight (conds : List Condition) (scans : List Plan) (rest : List Condition) : Prop where
  /-- No condition is lost, and none is taken twice. -/
  once : (scans.flatMap Plan.scanConds ++ rest).Perm conds
  /-- A scan gets conditions on its own columns. -/
  own : ∀ t cs ix, Plan.scan t cs ix ∈ scans → ∀ c ∈ cs, ∀ u ∈ c.tabs, u = t
  /-- A condition on one table is in the scan of the table. -/
  single : ∀ c ∈ conds, ∀ t, (∀ u ∈ c.tabs, u = t) → ∃ cs ix, Plan.scan t cs ix ∈ scans ∧ c ∈ cs
  /-- The others are left. -/
  left : rest = conds.filter Condition.relates

variable {indexesOf : String → List IndexMeta} {tables : List String} {conds : List Condition}

/-- **What the loop does.** -/
theorem makeScans_spec (indexesOf : String → List IndexMeta) (tables : List String)
    (conds : List Condition) :
    ((makeScans indexesOf tables conds).1.flatMap Plan.scanConds ++
        (makeScans indexesOf tables conds).2).Perm conds ∧
      (∀ t cs ix, Plan.scan t cs ix ∈ (makeScans indexesOf tables conds).1 →
        ∀ c ∈ cs, c ∈ conds ∧ popsCond t c = true) ∧
      (∀ c ∈ conds, ∀ t ∈ tables, popsCond t c = true → ∃ u ∈ tables, popsCond u c = true ∧
        ∃ cs ix, Plan.scan u cs ix ∈ (makeScans indexesOf tables conds).1 ∧ c ∈ cs) ∧
      (makeScans indexesOf tables conds).2 =
        conds.filter fun c => tables.all fun t => !popsCond t c := by
  induction tables generalizing conds with
  | nil =>
    refine ⟨List.Perm.refl _, fun _ _ _ h => absurd h List.not_mem_nil, fun c _ t ht => ?_, ?_⟩
    · exact absurd ht List.not_mem_nil
    · exact (List.filter_eq_self.mpr fun c _ => rfl).symm
  | cons t tables ih =>
    obtain ⟨hperm, hmem, hassigned, hrest⟩ := ih (conds.filter fun c => !popsCond t c)
    have hscans : makeScans indexesOf (t :: tables) conds =
        (.scan t (conds.filter (popsCond t)) (getIndexCols (indexesOf t) t (conds.filter (popsCond t))) ::
          (makeScans indexesOf tables (conds.filter fun c => !popsCond t c)).1,
        (makeScans indexesOf tables (conds.filter fun c => !popsCond t c)).2) := rfl
    rw [hscans]
    refine ⟨?_, fun u cs ix h c hc => ?_, fun c hc u hu hpops => ?_, ?_⟩
    · rw [List.flatMap_cons, List.append_assoc]
      exact (hperm.append_left _).trans (List.filter_append_perm (popsCond t) conds)
    · rcases List.mem_cons.mp h with h | h
      · cases h
        exact List.mem_filter.mp hc
      · obtain ⟨hc', hpops⟩ := hmem u cs ix h c hc
        exact ⟨List.mem_of_mem_filter hc', hpops⟩
    · -- the first table that takes the condition
      by_cases ht : popsCond t c = true
      · exact ⟨t, List.mem_cons_self, ht, _, _, List.mem_cons_self, List.mem_filter.mpr ⟨hc, ht⟩⟩
      · have hut : u ∈ tables := by
          rcases List.mem_cons.mp hu with rfl | hu
          · exact absurd hpops ht
          · exact hu
        have hc' : c ∈ conds.filter fun c => !popsCond t c :=
          List.mem_filter.mpr ⟨hc, by rw [Bool.not_eq_true] at ht; rw [ht]; rfl⟩
        obtain ⟨v, hv, hpv, cs, ix, hscan, hcs⟩ := hassigned c hc' u hut hpops
        exact ⟨v, List.mem_cons_of_mem _ hv, hpv, cs, ix, List.mem_cons_of_mem _ hscan, hcs⟩
    · show (makeScans indexesOf tables (conds.filter fun c => !popsCond t c)).2 = _
      rw [hrest, List.filter_filter]
      refine List.filter_congr fun c _ => ?_
      rw [List.all_cons, Bool.and_comm]

/-- A comparison of two columns of one table. -/
def Condition.SameTable (c : Condition) : Prop :=
  c.isRhsVal = false ∧ c.lhsCol.tabName = c.rhsCol.tabName

/-- `pop_conds` takes the comparisons of a column with a value for their own table, and those of two
    columns of one table for any. -/
theorem CheckedConds.popsCond_iff (h : CheckedConds tables conds) {c : Condition} (hc : c ∈ conds)
    (t : String) :
    popsCond t c = true ↔ (c.isRhsVal = true ∧ c.lhsCol.tabName = t) ∨ c.SameTable := by
  have hlhs : c.lhsCol.tabName ∈ tables := by
    refine h.checked c hc ?_
    unfold Condition.tabs
    split <;> simp
  unfold popsCond Condition.SameTable
  rw [decide_eq_true_iff]
  cases hv : c.isRhsVal with
  | true =>
    have hne : c.lhsCol.tabName ≠ c.rhsCol.tabName := by
      rw [h.values c hc hv]
      exact fun heq => h.named (heq ▸ hlhs)
    simp [hne, eq_comm]
  | false => simp

theorem relates_iff {c : Condition} : c.relates = true ↔ c.isRhsVal = false ∧ ¬ c.SameTable := by
  unfold Condition.relates Condition.SameTable
  simp
  tauto

/-- **The scans get the right conditions** exactly if all comparisons of two columns of one table are on
    the first table. -/
theorem popsRight_iff (indexesOf : String → List IndexMeta) (first : String) (tables : List String)
    (conds : List Condition) (h : CheckedConds (first :: tables) conds) :
    PopsRight conds (makeScans indexesOf (first :: tables) conds).1
        (makeScans indexesOf (first :: tables) conds).2 ↔
      ∀ c ∈ conds, c.SameTable → c.lhsCol.tabName = first := by
  obtain ⟨hperm, hmem, hassigned, hrest⟩ := makeScans_spec indexesOf (first :: tables) conds
  constructor
  · intro hright c hc hsame
    -- the first scan has taken it
    refine hright.own first _ _ List.mem_cons_self c ?_ _ ?_
    · exact List.mem_filter.mpr ⟨hc, (h.popsCond_iff hc first).mpr (Or.inr hsame)⟩
    · unfold Condition.tabs
      split <;> simp
  · intro hfirst
    have htabs : ∀ c ∈ conds, ∀ t, popsCond t c = true → ∀ u ∈ c.tabs, u = c.lhsCol.tabName := by
      intro c hc t hpops u hu
      unfold Condition.tabs at hu
      rcases (h.popsCond_iff hc t).mp hpops with ⟨hv, -⟩ | hsame
      · rw [if_pos hv] at hu
        exact List.mem_singleton.mp hu
      · rw [if_neg (by rw [hsame.1]; exact Bool.false_ne_true)] at hu
        rcases List.mem_cons.mp hu with hu | hu
        · exact hu
        · rw [List.mem_singleton.mp hu, hsame.2]
    have hlhs : ∀ c : Condition, c.lhsCol.tabName ∈ c.tabs := by
      intro c
      unfold Condition.tabs
      split <;> simp
    -- the later scans get no comparison of two columns
    have htable : ∀ t cs ix, Plan.scan t cs ix ∈ (makeScans indexesOf (first :: tables) conds).1 →
        ∀ c ∈ cs, c ∈ conds ∧ popsCond t c = true ∧ c.lhsCol.tabName = t := by
      intro t cs ix hscan c hc
      obtain ⟨hc', hpops⟩ := hmem t cs ix hscan c hc
      refine ⟨hc', hpops, ?_⟩
      rcases (h.popsCond_iff hc' t).mp hpops with ⟨-, ht⟩ | hsame
      · exact ht
      · rcases List.mem_cons.mp hscan with hscan | hscan
        · cases hscan
          exact hfirst c hc' hsame
        · obtain ⟨-, hmem', -⟩ := makeScans_spec indexesOf tables
            (conds.filter fun c => !popsCond first c)
          have hrest' := (List.mem_filter.mp (hmem' t cs ix hscan c hc).1).2
          rw [(h.popsCond_iff hc' first).mpr (Or.inr hsame)] at hrest'
          cases hrest'
    refine ⟨hperm, fun t cs ix hscan c hc u hu => ?_, fun c hc t ht => ?_, ?_⟩
    · obtain ⟨hc', hpops, htab⟩ := htable t cs ix hscan c hc
      rw [htabs c hc' t hpops u hu, htab]
    · have hct : c.lhsCol.tabName = t := ht _ (hlhs c)
      have hpops : popsCond t c = true := by
        rw [h.popsCond_iff hc]
        cases hv : c.isRhsVal with
        | true => exact Or.inl ⟨rfl, hct⟩
        | false =>
          refine Or.inr ⟨hv, ?_⟩
          rw [hct, ht c.rhsCol.tabName (by unfold Condition.tabs; rw [hv]; simp)]
      have htm : t ∈ first :: tables := h.checked c hc (hct ▸ hlhs c)
      obtain ⟨u, -, hpu, cs, ix, hscan, hcs⟩ := hassigned c hc t htm hpops
      obtain ⟨-, -, hcu⟩ := htable u cs ix hscan c hcs
      rw [← hct, hcu]
      exact ⟨cs, ix, hscan, hcs⟩
    · rw [hrest]
      refine List.filter_congr fun c hc => ?_
      rw [Bool.eq_iff_iff, List.all_eq_true, relates_iff]
      constructor
      · intro hall
        have hnot : ∀ t ∈ first :: tables, ¬ popsCond t c = true := fun t ht => by
          have := hall t ht
          rw [Bool.not_eq_true'] at this
          rw [this]
          exact Bool.false_ne_true
        refine ⟨?_, fun hsame => hnot first List.mem_cons_self
          ((h.popsCond_iff hc first).mpr (Or.inr hsame))⟩
        rw [← Bool.not_eq_true]
        exact fun hv => hnot _ (h.checked c hc (hlhs c)) ((h.popsCond_iff hc _).mpr (Or.inl ⟨hv, rfl⟩))
      · rintro ⟨hv, hdiff⟩ t -
        rw [Bool.not_eq_true', ← Bool.not_eq_true, h.popsCond_iff hc]
        rintro (⟨hv', -⟩ | hsame)
        · rw [hv] at hv'
          cases hv'
        · exact hdiff hsame

/-- The condition `t.a = t.b`. -/
def columnsEqual (t : String) : Condition :=
  { lhsCol := ⟨t, "a"⟩, op := .eq, isRhsVal := false, rhsCol := ⟨t, "b"⟩, rhsVal := ⟨.int, 0, [], []⟩ }

theorem checked_columnsEqual {tables : List String} (hnamed : "" ∉ tables) {t : String}
    (ht : t ∈ tables) :
    CheckedConds tables [columnsEqual t] := by
  refine ⟨hnamed, fun c hc u hu => ?_, fun c hc hv => ?_⟩
  · rw [List.mem_singleton.mp hc] at hu
    have hut : u = t := by simpa [Condition.tabs, columnsEqual] using hu
    rw [hut]
    exact ht
  · rw [List.mem_singleton.mp hc] at hv
    cases hv

/-- The theorem at a comparison of two columns of the first table. -/
theorem popsRight_first_table :
    PopsRight [columnsEqual "t"] (makeScans (fun _ => []) ["t", "u"] [columnsEqual "t"]).1
      (makeScans (fun _ => []) ["t", "u"] [columnsEqual "t"]).2 := by
  refine (popsRight_iff (fun _ => []) "t" ["u"] [columnsEqual "t"]
    (checked_columnsEqual (by decide) (by decide))).mpr fun c hc _ => ?_
  rw [List.mem_singleton.mp hc]
  rfl

/-- **A comparison of two columns of the second table goes to the scan of the first.** -/
theorem second_table_condition :
    makeScans (fun _ => []) ["t", "u"] [columnsEqual "u"] =
        ([.scan "t" [columnsEqual "u"] [], .scan "u" [] []], []) ∧
      CheckedConds ["t", "u"] [columnsEqual "u"] ∧
      ¬ PopsRight [columnsEqual "u"] (makeScans (fun _ => []) ["t", "u"] [columnsEqual "u"]).1
        (makeScans (fun _ => []) ["t", "u"] [columnsEqual "u"]).2 := by
  have hscans : makeScans (fun _ => []) ["t", "u"] [columnsEqual "u"] =
      ([.scan "t" [columnsEqual "u"] [], .scan "u" [] []], []) := by decide +kernel
  refine ⟨hscans, checked_columnsEqual (by decide) (by decide), fun h => ?_⟩
  rw [hscans] at h
  have hut : "u" = "t" := h.own "t" _ _ List.mem_cons_self _ List.mem_cons_self "u" (by decide)
  revert hut
  decide

end Rmdb
