import Rmdb.Optimizer.PlanMeaning

namespace Rmdb

open Lib Planner List

/-!
# The join tree of a `SELECT`

`makeOneRel` builds a tree for every query that `Analyze` lets through, and the tree computes the
query.

* `SelectQuery` — what `Analyze` has checked: tables that exist, and columns of these tables;
* `Built` — the invariant of the loops: which tables are in the tree, and which conditions;
* `pushConds_spec` — the way down finds the node where the two tables meet;
* `makeOneRel_computes_select` — the result.
-/

/-- A checked query: different tables, conditions on their columns, and no condition that compares
    two columns of one table.  The right column of a comparison with a value is empty. -/
structure SelectQuery where
  tables : List String
  conds : List Condition
  nonempty : tables ≠ []
  distinct : tables.Nodup
  named : "" ∉ tables
  checked : ∀ c ∈ conds, c.tabs ⊆ tables
  values : ∀ c ∈ conds, c.isRhsVal = true → c.rhsCol.tabName = ""
  columns : ∀ c ∈ conds, c.isRhsVal = false → c.lhsCol.tabName ≠ c.rhsCol.tabName

/-! ### The scans -/

/-- The condition compares a column of `t` with a value. -/
def onTable (t : String) (c : Condition) : Bool := c.isRhsVal && c.lhsCol.tabName = t

/-- The scan of a table. -/
def scanOf (indexesOf : String → List IndexMeta) (conds : List Condition) (t : String) : Plan :=
  .scan t (conds.filter (onTable t)) (getIndexCols (indexesOf t) t (conds.filter (onTable t)))

/-- The table on the left is one of the condition's. -/
theorem lhs_mem_tabs (c : Condition) : c.lhsCol.tabName ∈ c.tabs := by
  unfold Condition.tabs
  split <;> simp

/-- On the conditions of a query `pop_conds` asks for the table alone. -/
theorem SelectQuery.popsCond_eq (q : SelectQuery) {c : Condition} (hc : c ∈ q.conds) (t : String) :
    popsCond t c = onTable t c := by
  have hlhs : c.lhsCol.tabName ∈ q.tables := q.checked c hc (lhs_mem_tabs c)
  have hne : c.lhsCol.tabName ≠ c.rhsCol.tabName := by
    cases hv : c.isRhsVal with
    | true =>
      rw [q.values c hc hv]
      rintro heq
      exact q.named (heq ▸ hlhs)
    | false => exact q.columns c hc hv
  unfold popsCond onTable
  rw [Bool.eq_iff_iff]
  simp only [hne, or_false, decide_eq_true_eq, Bool.and_eq_true]
  exact ⟨fun h => ⟨h.2, h.1.symm⟩, fun h => ⟨h.2.symm, h.1⟩⟩

/-- The loop over the tables. -/
theorem makeScans_eq (indexesOf : String → List IndexMeta) {ts : List String} (hd : ts.Nodup)
    {conds : List Condition} (hpop : ∀ c ∈ conds, ∀ t, popsCond t c = onTable t c) :
    makeScans indexesOf ts conds = (ts.map (scanOf indexesOf conds),
      conds.filter fun c => ts.all fun t => !onTable t c) := by
  induction ts generalizing conds with
  | nil => simp [makeScans]
  | cons t ts ih =>
    obtain ⟨hnot, hd⟩ := List.nodup_cons.mp hd
    have hown : conds.filter (popsCond t) = conds.filter (onTable t) :=
      List.filter_congr fun c hc => hpop c hc t
    have hrest : (conds.filter fun c => !popsCond t c) = conds.filter fun c => !onTable t c :=
      List.filter_congr fun c hc => by rw [hpop c hc t]
    have hih := @ih hd (conds.filter fun c => !onTable t c)
      fun c hc => hpop c (List.mem_of_mem_filter hc)
    simp only [makeScans, popConds, hown, hrest, hih, List.map_cons, Prod.mk.injEq, List.cons.injEq]
    refine ⟨⟨rfl, ?_⟩, ?_⟩
    · -- a condition of another table is not popped for `t`
      refine List.map_congr_left fun u hu => ?_
      have hut : u ≠ t := fun heq => hnot (heq ▸ hu)
      have hfilter : (conds.filter fun c => !onTable t c).filter (onTable u) =
          conds.filter (onTable u) := by
        rw [List.filter_filter]
        refine List.filter_congr fun c _ => ?_
        rw [Bool.and_eq_left_iff_imp]
        intro hcu
        simp only [onTable, Bool.and_eq_true, decide_eq_true_eq] at hcu
        simp [onTable, hcu.2, hut]
      unfold scanOf
      rw [hfilter]
    · rw [List.filter_filter]
      refine List.filter_congr fun c _ => ?_
      rw [List.all_cons, Bool.and_comm]

/-- After the scans the comparisons of two columns are left. -/
theorem SelectQuery.makeScans_eq (q : SelectQuery) (indexesOf : String → List IndexMeta) :
    makeScans indexesOf q.tables q.conds =
      (q.tables.map (scanOf indexesOf q.conds), q.conds.filter fun c => !c.isRhsVal) := by
  rw [Rmdb.makeScans_eq indexesOf q.distinct fun c hc t => q.popsCond_eq hc t]
  refine congrArg (Prod.mk _) (List.filter_congr fun c hc => ?_)
  have hlhs : c.lhsCol.tabName ∈ q.tables := q.checked c hc (lhs_mem_tabs c)
  cases hv : c.isRhsVal with
  | true =>
    refine Bool.eq_false_iff.mpr fun hall => ?_
    have hno := List.all_eq_true.mp hall _ hlhs
    simp [onTable, hv] at hno
  | false => simp [onTable, hv]

/-! ### Tables that are in the tree -/

section Loops

variable {tables : List String} {s : Joined} {ts : List String} {t : String}

/-- `joined_tables` and `scantbl` say that the tables `ts` are in the tree. -/
structure Planner.Joined.Tracks (s : Joined) (tables ts : List String) : Prop where
  names : ∀ t ∈ tables, t ∈ s.tables ↔ t ∈ ts
  flags : ∀ i t, tables[i]? = some t → (s.scantbl i = true ↔ t ∈ ts)

/-- The order of the tables does not matter. -/
theorem Planner.Joined.Tracks.congr (h : s.Tracks tables ts) {us : List String}
    (hu : ∀ t, t ∈ us ↔ t ∈ ts) : s.Tracks tables us :=
  ⟨fun t ht => (h.names t ht).trans (hu t).symm, fun i t ht => (h.flags i t ht).trans (hu t).symm⟩

/-- `pop_scan` finds the scan of a table and marks it. -/
theorem popScan_spec (h : s.Tracks tables ts) (hd : tables.Nodup) (ht : t ∈ tables)
    {scan : String → Plan} (hscan : ∀ u v, isScanOf u (scan v) = decide (v = u)) :
    ∃ s', popScan (tables.map scan) s t = (some (scan t), s') ∧ s'.Tracks tables (t :: ts) := by
  obtain ⟨i, hi, hit⟩ := List.getElem_of_mem ht
  have hfind : (tables.map scan).findIdx? (isScanOf t) = some i := by
    rw [List.findIdx?_map, List.findIdx?_eq_some_iff_getElem]
    refine ⟨hi, ?_, fun j hj => ?_⟩
    · simp [hscan, hit]
    · simp only [Function.comp_apply, hscan, decide_eq_true_eq]
      intro heq
      have hji : j = i := hd.getElem_inj_iff.mp (heq.trans hit.symm)
      omega
  have hget : (tables.map scan)[i]? = some (scan t) := by
    rw [List.getElem?_map, List.getElem?_eq_getElem hi, hit]
    rfl
  refine ⟨{ scantbl := Function.update s.scantbl i true, tables := s.tables ++ [t] }, ?_, ?_, ?_⟩
  · unfold popScan
    rw [hfind]
    exact congrArg (Prod.mk · _) hget
  · intro u hu
    rw [List.mem_append, List.mem_singleton, h.names u hu, List.mem_cons]
    exact or_comm
  · intro j u hju
    by_cases hji : j = i
    · subst hji
      rw [List.getElem?_eq_getElem hi, hit] at hju
      cases hju
      simp
    · have hut : u ≠ t := by
        rintro rfl
        obtain ⟨hj, hju⟩ := List.getElem?_eq_some_iff.mp hju
        exact hji (hd.getElem_inj_iff.mp (hju.trans hit.symm))
      simp [hji, hut, h.flags j u hju]

/-- A table is brought in once. -/
theorem needToJoin_spec (h : s.Tracks tables ts) (hd : tables.Nodup) (ht : t ∈ tables)
    {scan : String → Plan} (hscan : ∀ u v, isScanOf u (scan v) = decide (v = u)) :
    (t ∈ ts → needToJoin (tables.map scan) s t = (none, s)) ∧
    (t ∉ ts → ∃ s', needToJoin (tables.map scan) s t = (some (scan t), s') ∧
      s'.Tracks tables (t :: ts)) := by
  unfold needToJoin
  constructor
  · intro hmem
    rw [if_pos ((h.names t ht).mpr hmem)]
  · intro hmem
    rw [if_neg fun hm => hmem ((h.names t ht).mp hm)]
    exact popScan_spec h hd ht hscan

end Loops

/-! ### The tree -/

/-- **The invariant.** The tree has some of the tables, each once, with the conditions of their scans
    and the conditions `done`, every one of them in its place. -/
structure Built (tables : List String) (own : String → List Condition) (tree : Plan)
    (done : List Condition) : Prop where
  nodup : tree.tables.Nodup
  subset : tree.tables ⊆ tables
  placed : tree.Placed
  conds : Multiset.Rel Condition.Same (tree.conds : Multiset Condition)
    ((tree.tables.flatMap own ++ done : List Condition) : Multiset Condition)

/-! ### Pushing a condition down -/

/-- Which of its tables the condition finds among `ts`. -/
def sideCode (c : Condition) (ts : List String) : Nat :=
  if c.lhsCol.tabName ∈ ts then (if c.rhsCol.tabName ∈ ts then 3 else 1)
  else if c.rhsCol.tabName ∈ ts then 2 else 0

/-- The plan has one more condition. -/
structure Pushed (c : Condition) (p p' : Plan) : Prop where
  tables : p'.tables = p.tables
  placed : p.Placed → p'.Placed
  conds : ∃ d, d.Same c ∧ p'.conds.Perm (p.conds ++ [d])

/-- A swapped condition is about the same tables. -/
theorem swap_tabs_subset {c : Condition} (hv : c.isRhsVal = false) {ts : List String}
    (hl : c.lhsCol.tabName ∈ ts) (hr : c.rhsCol.tabName ∈ ts) :
    c.tabs ⊆ ts ∧ c.swap.tabs ⊆ ts := by
  simp [Condition.tabs, Condition.swap, hv, hl, hr]

/-- A condition goes into the left side. -/
theorem Pushed.left {c : Condition} {p p' : Plan} (h : Pushed c p p') (right : Plan)
    (conds : List Condition) : Pushed c (.join p right conds) (.join p' right conds) := by
  obtain ⟨ht, hp, d, hd, hperm⟩ := h
  refine ⟨by simp [Plan.tables, ht], fun ⟨h1, h2, h3⟩ => ⟨hp h1, h2, by rwa [ht]⟩, d, hd, ?_⟩
  show (p'.conds ++ right.conds ++ conds).Perm (p.conds ++ right.conds ++ conds ++ [d])
  calc p'.conds ++ right.conds ++ conds
      ~ p.conds ++ [d] ++ (right.conds ++ conds) := by
        rw [List.append_assoc]
        exact hperm.append_right _
    _ ~ p.conds ++ right.conds ++ conds ++ [d] := by
        rw [List.append_assoc, List.append_assoc, List.append_assoc]
        refine List.Perm.append_left _ ?_
        rw [← List.append_assoc right.conds]
        exact List.perm_append_comm

/-- A condition goes into the right side. -/
theorem Pushed.right {c : Condition} {p p' : Plan} (h : Pushed c p p') (left : Plan)
    (conds : List Condition) : Pushed c (.join left p conds) (.join left p' conds) := by
  obtain ⟨ht, hp, d, hd, hperm⟩ := h
  refine ⟨by simp [Plan.tables, ht], fun ⟨h1, h2, h3⟩ => ⟨h1, hp h2, by rwa [ht]⟩, d, hd, ?_⟩
  show (left.conds ++ p'.conds ++ conds).Perm (left.conds ++ p.conds ++ conds ++ [d])
  calc left.conds ++ p'.conds ++ conds
      ~ left.conds ++ (p.conds ++ [d] ++ conds) := by
        rw [List.append_assoc]
        exact List.Perm.append_left _ (hperm.append_right _)
    _ ~ left.conds ++ p.conds ++ conds ++ [d] := by
        rw [List.append_assoc, List.append_assoc, List.append_assoc]
        exact List.Perm.append_left _ (List.Perm.append_left _ List.perm_append_comm)

/-- The condition, read from one side or the other, is added to the node. -/
theorem Pushed.here {c d : Condition} (left right : Plan) (conds : List Condition) (hd : d.Same c)
    (htabs : d.tabs ⊆ left.tables ++ right.tables) :
    Pushed c (.join left right conds) (.join left right (conds ++ [d])) := by
  refine ⟨rfl, fun ⟨h1, h2, h3⟩ => ⟨h1, h2, fun e he => ?_⟩, d, hd, ?_⟩
  · rcases List.mem_append.mp he with he | he
    · exact h3 e he
    · rw [List.mem_singleton.mp he]
      exact htabs
  · simp [Plan.conds]

/-- **The way down.** The condition comes to the node where its tables meet, if both are in the
    plan. -/
theorem pushConds_spec {c : Condition} (hv : c.isRhsVal = false)
    (hne : c.lhsCol.tabName ≠ c.rhsCol.tabName) {p : Plan} (hd : p.tables.Nodup) :
    (pushConds c p).1 = sideCode c p.tables ∧
    (sideCode c p.tables ≠ 3 → (pushConds c p).2 = p) ∧
    (sideCode c p.tables = 3 → Pushed c p (pushConds c p).2) := by
  induction p with
  | scan t conds indexCols =>
    by_cases hl : t = c.lhsCol.tabName
    · subst hl
      simp [pushConds, sideCode, Plan.tables, hne.symm]
    · by_cases hr : t = c.rhsCol.tabName
      · subst hr
        simp [pushConds, sideCode, Plan.tables, hl, hne]
      · simp [pushConds, sideCode, Plan.tables, hl, hr, Ne.symm hl, Ne.symm hr]
  | join left right conds ihl ihr =>
    obtain ⟨hdl, hdr, hdisj⟩ := List.nodup_append'.mp hd
    obtain ⟨hl1, hl2, hl3⟩ := ihl hdl
    obtain ⟨hr1, hr2, hr3⟩ := ihr hdr
    have hlhs := @List.disjoint_left.mp hdisj c.lhsCol.tabName
    have hrhs := @List.disjoint_left.mp hdisj c.rhsCol.tabName
    simp only [pushConds, hl1, hr1, Plan.tables]
    by_cases hll : c.lhsCol.tabName ∈ left.tables
    · have hlr := hlhs hll
      by_cases hrl : c.rhsCol.tabName ∈ left.tables
      · -- both in the left side
        have hcode : sideCode c left.tables = 3 := by simp [sideCode, hll, hrl]
        have hall : sideCode c (left.tables ++ right.tables) = 3 := by simp [sideCode, hll, hrl]
        simpa [hcode, hall] using (hl3 hcode).left right conds
      · by_cases hrr : c.rhsCol.tabName ∈ right.tables
        · -- they meet here
          have htabs := swap_tabs_subset hv (List.mem_append_left right.tables hll)
            (List.mem_append_right left.tables hrr)
          have hpush := Pushed.here left right conds (.refl c) htabs.1
          simpa [sideCode, hll, hlr, hrl, hrr] using hpush
        · simp [sideCode, hll, hlr, hrl, hrr]
    · by_cases hlr : c.lhsCol.tabName ∈ right.tables
      · by_cases hrr : c.rhsCol.tabName ∈ right.tables
        · -- both in the right side
          have hrl : c.rhsCol.tabName ∉ left.tables := fun hm => hrhs hm hrr
          have hcode : sideCode c right.tables = 3 := by simp [sideCode, hlr, hrr]
          have hleft : sideCode c left.tables = 0 := by simp [sideCode, hll, hrl]
          have hall : sideCode c (left.tables ++ right.tables) = 3 := by simp [sideCode, hlr, hrr]
          simpa [hcode, hleft, hall] using (hr3 hcode).right left conds
        · by_cases hrl : c.rhsCol.tabName ∈ left.tables
          · -- they meet here, the other way round
            have htabs := swap_tabs_subset hv (List.mem_append_right left.tables hlr)
              (List.mem_append_left right.tables hrl)
            have hpush := Pushed.here left right conds (.inr ⟨hv, rfl⟩) htabs.2
            simpa [sideCode, hll, hlr, hrl, hrr] using hpush
          · simp [sideCode, hll, hlr, hrl, hrr]
      · by_cases hrl : c.rhsCol.tabName ∈ left.tables
        · have hrr := hrhs hrl
          simp [sideCode, hll, hlr, hrl, hrr]
        · by_cases hrr : c.rhsCol.tabName ∈ right.tables
          · simp [sideCode, hll, hlr, hrl, hrr]
          · simp [sideCode, hll, hlr, hrl, hrr]

/-! ### Growing the tree -/

section Grow

variable {tables : List String} {own : String → List Condition}

/-- Conditions mean the same as themselves. -/
theorem rel_same_refl (cs : List Condition) :
    Multiset.Rel Condition.Same (cs : Multiset Condition) (cs : Multiset Condition) :=
  Multiset.rel_refl_of_refl_on fun c _ => .refl c

/-- The scan of a table. -/
theorem Built.scan {t : String} (ht : t ∈ tables) (hown : ∀ c ∈ own t, c.tabs ⊆ [t])
    (indexCols : List String) : Built tables own (.scan t (own t) indexCols) [] where
  nodup := List.nodup_singleton t
  subset := by simpa [Plan.tables] using ht
  placed := hown
  conds := by simpa [Plan.conds, Plan.tables] using rel_same_refl (own t)

/-- The join of two trees without a common table. -/
theorem Built.join {left right : Plan} {dl dr cs ds : List Condition} (hl : Built tables own left dl)
    (hr : Built tables own right dr) (hdisj : left.tables.Disjoint right.tables)
    (hplaced : ∀ c ∈ cs, c.tabs ⊆ left.tables ++ right.tables)
    (hsame : Multiset.Rel Condition.Same (cs : Multiset Condition) (ds : Multiset Condition)) :
    Built tables own (.join left right cs) (dl ++ dr ++ ds) where
  nodup := List.nodup_append'.mpr ⟨hl.nodup, hr.nodup, hdisj⟩
  subset := List.append_subset.mpr ⟨hl.subset, hr.subset⟩
  placed := ⟨hl.placed, hr.placed, hplaced⟩
  conds := by
    have hrel := (hl.conds.add hr.conds).add hsame
    have hleft : ((Plan.join left right cs).conds : Multiset Condition) =
        (left.conds : Multiset Condition) + right.conds + cs := by simp [Plan.conds]
    have hright : (((Plan.join left right cs).tables.flatMap own ++ (dl ++ dr ++ ds) :
        List Condition) : Multiset Condition) =
        ((left.tables.flatMap own ++ dl : List Condition) : Multiset Condition) +
          ((right.tables.flatMap own ++ dr : List Condition) : Multiset Condition) + ds := by
      simp only [Plan.tables, List.flatMap_append, ← Multiset.coe_add]
      ac_rfl
    rw [hleft, hright]
    exact hrel

/-- One more condition in the tree. -/
theorem Built.push {tree tree' : Plan} {done : List Condition} {c : Condition}
    (h : Built tables own tree done) (hp : Pushed c tree tree') :
    Built tables own tree' (done ++ [c]) := by
  obtain ⟨ht, hplaced, d, hd, hperm⟩ := hp
  refine ⟨ht ▸ h.nodup, ht ▸ h.subset, hplaced h.placed, ?_⟩
  have hone : Multiset.Rel Condition.Same (([d] : List Condition) : Multiset Condition)
      (([c] : List Condition) : Multiset Condition) := Multiset.Rel.cons hd Multiset.Rel.zero
  rw [ht, ← List.append_assoc, ← Multiset.coe_add, Multiset.coe_eq_coe.mpr hperm,
    ← Multiset.coe_add]
  exact h.conds.add hone

/-- The order in which the conditions were taken does not matter. -/
theorem Built.perm {tree : Plan} {done done' : List Condition} (h : Built tables own tree done)
    (hperm : done.Perm done') : Built tables own tree done' := by
  refine ⟨h.nodup, h.subset, h.placed, ?_⟩
  rw [← Multiset.coe_eq_coe.mpr (hperm.append_left _)]
  exact h.conds

variable {scan : String → Plan} (hd : tables.Nodup)
  (hscan : ∀ u v, isScanOf u (scan v) = decide (v = u)) (htabs : ∀ t, (scan t).tables = [t])
  (hbuilt : ∀ t ∈ tables, Built tables own (scan t) [])

include htabs hbuilt in
/-- The join of the two tables of a condition. -/
theorem Built.pair {c : Condition} (hv : c.isRhsVal = false)
    (hne : c.lhsCol.tabName ≠ c.rhsCol.tabName) (hc : c.tabs ⊆ tables) :
    Built tables own (.join (scan c.lhsCol.tabName) (scan c.rhsCol.tabName) [c]) [c] := by
  have hlt : c.lhsCol.tabName ∈ tables := hc (by simp [Condition.tabs, hv])
  have hrt : c.rhsCol.tabName ∈ tables := hc (by simp [Condition.tabs, hv])
  refine (hbuilt _ hlt).join (hbuilt _ hrt) (by simpa [htabs] using hne.symm) ?_ (rel_same_refl [c])
  intro d hmem
  rw [List.mem_singleton.mp hmem]
  exact (swap_tabs_subset hv (by simp [htabs]) (by simp [htabs])).1

include hd hscan htabs hbuilt in
/-- **One condition.** It brings in the tables that are not in the tree, or goes down to the node
    where its tables meet. -/
theorem joinCond_spec {s : Joined} {tree : Plan} {done : List Condition} {c : Condition}
    (ht : s.Tracks tables tree.tables) (hb : Built tables own tree done) (hv : c.isRhsVal = false)
    (hne : c.lhsCol.tabName ≠ c.rhsCol.tabName) (hc : c.tabs ⊆ tables) :
    ∃ s' tree', joinCond (tables.map scan) s tree c = some (s', tree') ∧
      s'.Tracks tables tree'.tables ∧ Built tables own tree' (done ++ [c]) := by
  have hlt : c.lhsCol.tabName ∈ tables := hc (by simp [Condition.tabs, hv])
  have hrt : c.rhsCol.tabName ∈ tables := hc (by simp [Condition.tabs, hv])
  have hself := rel_same_refl [c]
  have hnl := needToJoin_spec ht hd hlt hscan
  by_cases hl : c.lhsCol.tabName ∈ tree.tables
  · have hneed := hnl.1 hl
    have hnr := needToJoin_spec ht hd hrt hscan
    by_cases hr : c.rhsCol.tabName ∈ tree.tables
    · -- none is new
      have hcode : sideCode c tree.tables = 3 := by simp [sideCode, hl, hr]
      have hpush := (pushConds_spec hv hne hb.nodup).2.2 hcode
      refine ⟨s, (pushConds c tree).2, by simp [joinCond, hneed, hnr.1 hr], ?_, hb.push hpush⟩
      rw [hpush.tables]
      exact ht
    · -- the right one is new
      obtain ⟨s', hs', htr⟩ := hnr.2 hr
      have hjoin : Built tables own (.join (scan c.rhsCol.tabName) tree [c.swap])
          ([] ++ done ++ [c]) := by
        refine (hbuilt _ hrt).join hb (by simpa [htabs] using hr) ?_
          (Multiset.Rel.cons (.inr ⟨hv, rfl⟩) Multiset.Rel.zero)
        intro d hmem
        rw [List.mem_singleton.mp hmem]
        exact (swap_tabs_subset hv (by simp [hl]) (by simp [htabs])).2
      refine ⟨s', .join (scan c.rhsCol.tabName) tree [c.swap], by simp [joinCond, hneed, hs'], ?_,
        by simpa using hjoin⟩
      simpa [Plan.tables, htabs] using htr
  · obtain ⟨s₁, hs₁, htl⟩ := hnl.2 hl
    have hnr := needToJoin_spec htl hd hrt hscan
    by_cases hr : c.rhsCol.tabName ∈ tree.tables
    · -- the left one is new
      have hneed := hnr.1 (List.mem_cons_of_mem _ hr)
      have hmem : c.rhsCol.tabName ∈ s₁.tables :=
        (htl.names _ hrt).mpr (List.mem_cons_of_mem _ hr)
      have hjoin : Built tables own (.join (scan c.lhsCol.tabName) tree [c])
          ([] ++ done ++ [c]) := by
        refine (hbuilt _ hlt).join hb (by simpa [htabs] using hl) ?_ hself
        intro d hmem
        rw [List.mem_singleton.mp hmem]
        exact (swap_tabs_subset hv (by simp [htabs]) (by simp [hr])).1
      refine ⟨s₁, .join (scan c.lhsCol.tabName) tree [c], by simp [joinCond, hs₁, hneed, hmem], ?_,
        by simpa using hjoin⟩
      simpa [Plan.tables, htabs] using htl
    · -- both are new
      obtain ⟨s₂, hs₂, htr⟩ := hnr.2 (by simp [hr, hne.symm])
      have hpair := Built.pair htabs hbuilt hv hne hc
      have hjoin : Built tables own (.join (.join (scan c.lhsCol.tabName) (scan c.rhsCol.tabName) [c])
          tree []) ([c] ++ done ++ []) :=
        hpair.join hb (by simp [Plan.tables, htabs, hl, hr]) (by simp) (rel_same_refl [])
      refine ⟨s₂, .join (.join (scan c.lhsCol.tabName) (scan c.rhsCol.tabName) [c]) tree [],
        by simp [joinCond, hs₁, hs₂], ?_, ?_⟩
      · refine htr.congr fun t => ?_
        simp [Plan.tables, htabs, or_left_comm]
      · refine hjoin.perm ?_
        rw [List.append_nil]
        exact List.perm_append_comm

include hd hscan htabs hbuilt in
/-- All conditions. -/
theorem joinConds_spec {conds : List Condition} {s : Joined} {tree : Plan} {done : List Condition}
    (ht : s.Tracks tables tree.tables) (hb : Built tables own tree done)
    (hc : ∀ c ∈ conds, c.isRhsVal = false ∧ c.lhsCol.tabName ≠ c.rhsCol.tabName ∧ c.tabs ⊆ tables) :
    ∃ s' tree', joinConds (tables.map scan) s tree conds = some (s', tree') ∧
      s'.Tracks tables tree'.tables ∧ Built tables own tree' (done ++ conds) := by
  induction conds generalizing s tree done with
  | nil => exact ⟨s, tree, rfl, ht, by simpa using hb⟩
  | cons c conds ih =>
    obtain ⟨hv, hne, hsub⟩ := hc c List.mem_cons_self
    obtain ⟨s₁, tree₁, hone, ht₁, hb₁⟩ := joinCond_spec hd hscan htabs hbuilt ht hb hv hne hsub
    obtain ⟨s', tree', hrest, ht', hb'⟩ :=
      ih ht₁ hb₁ fun d hmem => hc d (List.mem_cons_of_mem _ hmem)
    refine ⟨s', tree', ?_, ht', by simpa using hb'⟩
    simp only [joinConds, hone, hrest]

include htabs hbuilt in
/-- The tables that are left, each joined to the tree; `us` are those from index `i` on. -/
theorem joinRest_spec {s : Joined} {done : List Condition} {us : List String} {i : Nat} {tree : Plan}
    (hus : us.Nodup) (hsub : us ⊆ tables)
    (hflags : ∀ k t, us[k]? = some t → (s.scantbl (i + k) = true ↔ t ∈ tree.tables))
    (hb : Built tables own tree done) :
    Built tables own (joinRest s i (us.map scan) tree) done ∧
      ∀ t, t ∈ (joinRest s i (us.map scan) tree).tables ↔ t ∈ tree.tables ∨ t ∈ us := by
  induction us generalizing i tree with
  | nil => exact ⟨hb, by simp [joinRest]⟩
  | cons u us ih =>
    obtain ⟨hu, hus⟩ := List.nodup_cons.mp hus
    have hflag : s.scantbl i = true ↔ u ∈ tree.tables := hflags 0 u rfl
    have hshift : ∀ k t, us[k]? = some t → (s.scantbl (i + 1 + k) = true ↔ t ∈ tree.tables) := by
      intro k t hk
      rw [Nat.add_assoc, Nat.add_comm 1 k]
      exact hflags (k + 1) t hk
    have hsub' : us ⊆ tables := fun t ht => hsub (List.mem_cons_of_mem _ ht)
    simp only [List.map_cons, joinRest]
    by_cases hmem : u ∈ tree.tables
    · rw [if_pos (hflag.mpr hmem)]
      obtain ⟨hb', hts⟩ := ih hus hsub' hshift hb
      refine ⟨hb', fun t => (hts t).trans ?_⟩
      rw [List.mem_cons]
      constructor
      · exact fun h => h.imp_right .inr
      · rintro (h | rfl | h)
        · exact .inl h
        · exact .inl hmem
        · exact .inr h
    · rw [if_neg fun h => hmem (hflag.mp h)]
      have hjoin : Built tables own (.join (scan u) tree []) ([] ++ done ++ []) :=
        (hbuilt u (hsub List.mem_cons_self)).join hb (by simpa [htabs] using hmem) (by simp)
          (rel_same_refl [])
      have hflags' : ∀ k t, us[k]? = some t →
          (s.scantbl (i + 1 + k) = true ↔ t ∈ (Plan.join (scan u) tree []).tables) := by
        intro k t hk
        have htu : t ≠ u := fun heq => hu (heq ▸ List.mem_of_getElem? hk)
        rw [hshift k t hk]
        simp [Plan.tables, htabs, htu]
      obtain ⟨hb', hts⟩ := ih hus hsub' hflags' (by simpa using hjoin)
      refine ⟨hb', fun t => (hts t).trans ?_⟩
      simp only [Plan.tables, htabs, List.singleton_append, List.mem_cons]
      tauto

include hd htabs hbuilt in
/-- The loop over the tables that are left, after the loop over the conditions. -/
theorem joinRest_all {s : Joined} {done : List Condition} {tree : Plan}
    (hflags : ∀ i t, tables[i]? = some t → (s.scantbl i = true ↔ t ∈ tree.tables))
    (hb : Built tables own tree done) :
    Built tables own (joinRest s 0 (tables.map scan) tree) done ∧
      (joinRest s 0 (tables.map scan) tree).tables.Perm tables := by
  obtain ⟨hb', hts⟩ := joinRest_spec htabs hbuilt hd (List.Subset.refl tables) (i := 0)
    (by simpa using hflags) hb
  refine ⟨hb', (List.perm_ext_iff_of_nodup hb'.nodup hd).mpr fun t => ?_⟩
  rw [hts t]
  exact ⟨fun h => h.elim (fun hm => hb.subset hm) id, .inr⟩

end Grow

/-! ### The result -/

/-- The conditions of the scans are the comparisons with a value. -/
theorem flatMap_onTable_perm (conds : List Condition) {ts : List String} (hd : ts.Nodup) :
    (ts.flatMap fun t => conds.filter (onTable t)).Perm
      (conds.filter fun c => c.isRhsVal && decide (c.lhsCol.tabName ∈ ts)) := by
  induction ts with
  | nil => simp
  | cons t ts ih =>
    obtain ⟨hnot, hd⟩ := List.nodup_cons.mp hd
    have hown : (conds.filter fun c => c.isRhsVal && decide (c.lhsCol.tabName ∈ t :: ts)).filter
        (onTable t) = conds.filter (onTable t) := by
      rw [List.filter_filter]
      refine List.filter_congr fun c _ => ?_
      rw [Bool.and_eq_left_iff_imp]
      intro hc
      simp only [onTable, Bool.and_eq_true, decide_eq_true_eq] at hc
      simp [hc.1, hc.2]
    have hrest : (conds.filter fun c => c.isRhsVal && decide (c.lhsCol.tabName ∈ t :: ts)).filter
        (fun c => !onTable t c) =
        conds.filter fun c => c.isRhsVal && decide (c.lhsCol.tabName ∈ ts) := by
      rw [List.filter_filter]
      refine List.filter_congr fun c _ => ?_
      by_cases hct : c.lhsCol.tabName = t
      · cases hv : c.isRhsVal <;> simp [onTable, hv, hct, hnot]
      · simp [onTable, hct]
    rw [List.flatMap_cons]
    refine (List.Perm.append_left _ (ih hd)).trans ?_
    rw [← hown, ← hrest]
    exact List.filter_append_perm _ _

/-- A tree with all tables and all conditions computes the query. -/
theorem SelectQuery.computes (q : SelectQuery) {plan : Plan}
    (hb : Built q.tables (fun t => q.conds.filter (onTable t)) plan
      (q.conds.filter fun c => !c.isRhsVal)) (hperm : plan.tables.Perm q.tables) :
    Multiset.Rel Condition.Same (plan.conds : Multiset Condition) (q.conds : Multiset Condition) ∧
      ∀ db, plan.eval db = selectRows db q.tables q.conds := by
  have hvals : (q.conds.filter fun c => c.isRhsVal && decide (c.lhsCol.tabName ∈ plan.tables)) =
      q.conds.filter fun c => c.isRhsVal := by
    refine List.filter_congr fun c hc => ?_
    simp [hperm.mem_iff, q.checked c hc (lhs_mem_tabs c)]
  have hall : (plan.tables.flatMap (fun t => q.conds.filter (onTable t)) ++
      q.conds.filter fun c => !c.isRhsVal).Perm q.conds := by
    refine ((flatMap_onTable_perm q.conds hb.nodup).append_right _).trans ?_
    rw [hvals]
    exact List.filter_append_perm _ _
  have hconds : Multiset.Rel Condition.Same (plan.conds : Multiset Condition)
      (q.conds : Multiset Condition) := by
    rw [← Multiset.coe_eq_coe.mpr hall]
    exact hb.conds
  refine ⟨hconds, fun db => ?_⟩
  rw [Plan.eval_eq db hb.placed hb.nodup]
  exact selectRows_congr db hperm hb.nodup hconds

/-- A scan checks the conditions of its table. -/
theorem SelectQuery.scan_built (q : SelectQuery) (indexesOf : String → List IndexMeta) {t : String}
    (ht : t ∈ q.tables) :
    Built q.tables (fun t => q.conds.filter (onTable t)) (scanOf indexesOf q.conds t) [] := by
  refine Built.scan ht (fun c hc => ?_) _
  obtain ⟨-, hon⟩ := List.mem_filter.mp hc
  simp only [onTable, Bool.and_eq_true, decide_eq_true_eq] at hon
  simp [Condition.tabs, hon.1, hon.2]

/-- The comparisons of two columns are about two different tables of the query. -/
theorem SelectQuery.join_conds (q : SelectQuery) {c : Condition}
    (hc : c ∈ q.conds.filter fun c => !c.isRhsVal) :
    c.isRhsVal = false ∧ c.lhsCol.tabName ≠ c.rhsCol.tabName ∧ c.tabs ⊆ q.tables := by
  obtain ⟨hc, hv⟩ := List.mem_filter.mp hc
  have hv : c.isRhsVal = false := by simpa using hv
  exact ⟨hv, q.columns c hc hv, q.checked c hc⟩

/-- One table has no condition between two. -/
theorem SelectQuery.join_conds_nil (q : SelectQuery) {t : String} (ht : q.tables = [t]) :
    (q.conds.filter fun c => !c.isRhsVal) = [] := by
  refine List.eq_nil_iff_forall_not_mem.mpr fun c hc => ?_
  obtain ⟨hv, hne, hsub⟩ := q.join_conds hc
  have hl : c.lhsCol.tabName ∈ q.tables := hsub (by simp [Condition.tabs, hv])
  have hr : c.rhsCol.tabName ∈ q.tables := hsub (by simp [Condition.tabs, hv])
  rw [ht, List.mem_singleton] at hl hr
  exact hne (hl.trans hr.symm)

/-- At the start no table is in the tree. -/
theorem tracks_start {tables : List String} (hnamed : "" ∉ tables) (n : Nat) :
    Joined.Tracks { scantbl := fun _ => false, tables := List.replicate n "" } tables [] where
  names t ht := by
    have hne : t ≠ "" := fun heq => hnamed (heq ▸ ht)
    simp [List.mem_replicate, hne]
  flags := by simp

/-- With the first scan as the tree, the first table is the one that is in it. -/
theorem first_flag {t : String} {ts : List String} (hd : (t :: ts).Nodup) {i : Nat} {u : String}
    (hi : (t :: ts)[i]? = some u) : Function.update (fun _ => false) 0 true i = true ↔ u ∈ [t] := by
  rw [List.mem_singleton]
  cases i with
  | zero =>
    cases hi
    simp
  | succ i =>
    have hut : u ≠ t := fun heq => (List.nodup_cons.mp hd).1 (heq ▸ List.mem_of_getElem? hi)
    simp [hut]

/-- After the loops the tree is complete. -/
theorem SelectQuery.makeOneRel_built (q : SelectQuery) (indexesOf : String → List IndexMeta) :
    ∃ plan, makeOneRel indexesOf q.tables q.conds = some plan ∧
      Built q.tables (fun t => q.conds.filter (onTable t)) plan
        (q.conds.filter fun c => !c.isRhsVal) ∧ plan.tables.Perm q.tables := by
  have hscan : ∀ u v, isScanOf u (scanOf indexesOf q.conds v) = decide (v = u) := fun u v => rfl
  have htabs : ∀ t, (scanOf indexesOf q.conds t).tables = [t] := fun t => rfl
  have hbuilt := fun t (ht : t ∈ q.tables) => q.scan_built indexesOf ht
  have hd := q.distinct
  unfold makeOneRel
  simp only [q.makeScans_eq indexesOf]
  by_cases hone : q.tables.length = 1
  · obtain ⟨t, hts⟩ := List.length_eq_one_iff.mp hone
    refine ⟨scanOf indexesOf q.conds t, by simp [hts], ?_, by rw [htabs, hts]⟩
    rw [q.join_conds_nil hts]
    exact hbuilt t (by simp [hts])
  · rw [if_neg hone]
    cases hcs : q.conds.filter fun c => !c.isRhsVal with
    | nil =>
      -- the first table, then all others
      obtain ⟨t, ts, hts⟩ := List.exists_cons_of_ne_nil q.nonempty
      have hscan0 : (q.tables.map (scanOf indexesOf q.conds))[0]? =
          some (scanOf indexesOf q.conds t) := by simp [hts]
      simp only [hscan0]
      refine ⟨_, rfl, joinRest_all hd htabs hbuilt (fun i u hi => ?_) (hbuilt t (by simp [hts]))⟩
      rw [hts] at hi hd
      exact first_flag hd hi
    | cons c cs =>
      -- the first condition makes the first join
      have hc : ∀ d ∈ c :: cs, _ := fun d hmem => q.join_conds (hcs ▸ hmem)
      obtain ⟨hv, hne, hsub⟩ := hc c List.mem_cons_self
      have hstart := tracks_start q.named q.tables.length
      have hl : c.lhsCol.tabName ∈ q.tables := hsub (by simp [Condition.tabs, hv])
      have hr : c.rhsCol.tabName ∈ q.tables := hsub (by simp [Condition.tabs, hv])
      obtain ⟨s₁, hs₁, ht₁⟩ := popScan_spec hstart hd hl hscan
      obtain ⟨s₂, hs₂, ht₂⟩ := popScan_spec ht₁ hd hr hscan
      have hfirst := Built.pair htabs hbuilt hv hne hsub
      have htracks : s₂.Tracks q.tables (Plan.join (scanOf indexesOf q.conds c.lhsCol.tabName)
          (scanOf indexesOf q.conds c.rhsCol.tabName) [c]).tables := by
        refine ht₂.congr fun t => ?_
        simp [Plan.tables, htabs, or_comm]
      obtain ⟨s', tree, hjoin, ht', hb'⟩ := joinConds_spec hd hscan htabs hbuilt htracks hfirst
        fun d hmem => hc d (List.mem_cons_of_mem _ hmem)
      simp only [hs₁, hs₂, hjoin]
      exact ⟨_, rfl, joinRest_all hd htabs hbuilt ht'.flags hb'⟩

/-- **The planner is right.** For every checked query `makeOneRel` gives a tree.  The tree computes
    the product of the tables filtered by all conditions, on every contents of the tables; it has every
    table once, and every condition once, at a node that has its tables. -/
theorem makeOneRel_computes_select (q : SelectQuery) (indexesOf : String → List IndexMeta) :
    ∃ plan, makeOneRel indexesOf q.tables q.conds = some plan ∧
      (∀ db, plan.eval db = selectRows db q.tables q.conds) ∧
      plan.tables.Perm q.tables ∧ plan.Placed ∧
      Multiset.Rel Condition.Same (plan.conds : Multiset Condition)
        (q.conds : Multiset Condition) := by
  obtain ⟨plan, hplan, hb, hperm⟩ := q.makeOneRel_built indexesOf
  obtain ⟨hconds, heval⟩ := q.computes hb hperm
  exact ⟨plan, hplan, heval, hperm, hb.placed, hconds⟩

/-- `a.x = b.x AND b.y > a.y AND a.x < 5`, the second one written from the right table to the left one. -/
def threeConds : List Condition :=
  [⟨⟨"a", "x"⟩, .eq, false, ⟨"b", "x"⟩, ⟨.int, 0, [], []⟩⟩,
    ⟨⟨"b", "y"⟩, .gt, false, ⟨"a", "y"⟩, ⟨.int, 0, [], []⟩⟩,
    ⟨⟨"a", "x"⟩, .lt, true, ⟨"", ""⟩, ⟨.int, 5, [], []⟩⟩]

/-- A query over two tables with these conditions. -/
def threeCondsQuery : SelectQuery where
  tables := ["a", "b"]
  conds := threeConds
  nonempty := List.cons_ne_nil _ _
  distinct := by decide
  named := by decide
  checked := by decide
  values := by decide
  columns := by decide

/-- The tree for it: the value at the scan of its table, and both comparisons at the join, with the sides of
    the second one changed. -/
theorem makeOneRel_threeConds :
    ∃ plan, makeOneRel (fun _ => []) ["a", "b"] threeConds = some plan ∧
      plan = .join (.scan "a" [⟨⟨"a", "x"⟩, .lt, true, ⟨"", ""⟩, ⟨.int, 5, [], []⟩⟩] [])
        (.scan "b" [] [])
        [⟨⟨"a", "x"⟩, .eq, false, ⟨"b", "x"⟩, ⟨.int, 0, [], []⟩⟩,
          ⟨⟨"a", "y"⟩, .lt, false, ⟨"b", "y"⟩, ⟨.int, 0, [], []⟩⟩] ∧
      ∀ db, plan.eval db = selectRows db ["a", "b"] threeConds := by
  obtain ⟨plan, hplan, heval, -⟩ := makeOneRel_computes_select threeCondsQuery fun _ => []
  refine ⟨plan, hplan, ?_, heval⟩
  have hrun : makeOneRel (fun _ => []) ["a", "b"] threeConds = some _ := rfl
  exact (Option.some.inj (hrun.symm.trans hplan)).symm

end Rmdb
