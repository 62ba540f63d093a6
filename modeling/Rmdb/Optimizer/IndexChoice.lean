import Mathlib.Data.List.TakeWhile
import Rmdb.Optimizer.Planner

namespace Rmdb

namespace Planner

/-!
# The choice of an index (`Planner::get_index_cols`)

The loop over the indexes collects the column names of an index in `indexed_colnames`.  An index that
lacks a column of the conditions is passed over, and its names stay there: the next index is matched with
them in front.

* `LeftmostMatch` — the rule the loop is for: equalities on the first columns, one other condition at
  most, and nothing after it;
* `Passed` — the indexes the loop gets through;
* `bestIndex_cases`, `bestIndex_max` — the result is the longest match of such collected names;
* `getIndexCols_sound_iff` — the columns are those of an index unless the names of another one are in
  front of them.
-/

/-- The names of the columns of an index. -/
def colNames (index : IndexMeta) : List String := index.cols.map (·.name)

/-- `IndexNotFoundError`. -/
def indexNotFoundError (tab : String) (names : List String) : ExecError :=
  .rmdbError ("Index not found: " ++ tab ++ ".(" ++ ", ".intercalate names ++ ")")

/-- `TabMeta::get_index_meta`. -/
def getIndexMeta (tab : String) (indexes : List IndexMeta) (names : List String) :
    Except ExecError IndexMeta :=
  match indexes.find? fun index => colNames index = names with
  | some index => .ok index
  | none => .error (indexNotFoundError tab names)

/-- There is a condition on the column. -/
def Conditioned (conds : List (String × CompOp)) (x : String) : Prop := ∃ op, (x, op) ∈ conds

/-- **The leftmost match**: the conditions are on the first columns, and all of these but possibly the
    last one are compared with `=`. -/
def LeftmostMatch (conds : List (String × CompOp)) (names : List String) : Prop :=
  ∃ X Y, names = X ++ Y ∧ X ≠ [] ∧ (∀ x ∈ X.dropLast, (x, .eq) ∈ conds) ∧
    (∀ x ∈ X, Conditioned conds x) ∧ ∀ y ∈ Y, ¬ Conditioned conds y

/-- The loop passes over the index: it lacks a column of the conditions. -/
def Skipped (conds : List (String × CompOp)) (index : IndexMeta) : Prop :=
  ∃ c ∈ conds, c.1 ∉ colNames index

/-- Indexes that the loop gets through, with no names left at the end: some are passed over, and on the
    first column of the names that the next one is matched with there is a condition. -/
inductive Passed (conds : List (String × CompOp)) : List IndexMeta → Prop
  | nil : Passed conds []
  | group (skipped : List IndexMeta) (index : IndexMeta) (rest : List IndexMeta)
      (hskipped : ∀ x ∈ skipped, Skipped conds x) (hindex : ¬ Skipped conds index)
      (hfirst : ∃ x ∈ ((skipped ++ [index]).flatMap colNames).head?, Conditioned conds x)
      (hrest : Passed conds rest) : Passed conds (skipped ++ index :: rest)

variable {conds : List (String × CompOp)} {indexes : List IndexMeta} {names : List String}

/-! ### One match -/

/-- `isequ`: a condition with `=`. -/
def isEqu (conds : List (String × CompOp)) (x : String) : Bool := (x, .eq) ∈ conds

/-- `islg`: a condition with another operator. -/
def isLg (conds : List (String × CompOp)) (x : String) : Bool := conds.any fun c => c.1 = x ∧ c.2 ≠ .eq

/-- How many of the names are matched: those with `=`, and one more. -/
def matchLen (conds : List (String × CompOp)) (names : List String) : Nat :=
  let i := (names.takeWhile (isEqu conds)).length
  if (names[i]?).any (isLg conds) then i + 1 else i

/-- The names are matched. -/
def Matched (conds : List (String × CompOp)) (names : List String) : Prop :=
  matchLen conds names ≠ 0 ∧ matchLen conds names +
    ((names.drop (matchLen conds names)).takeWhile fun x => conds.all fun c => c.1 ≠ x).length =
      names.length

theorem isEqu_iff {x : String} : isEqu conds x = true ↔ (x, .eq) ∈ conds := decide_eq_true_iff

/-- A condition has `=` or another operator. -/
theorem conditioned_iff {x : String} :
    Conditioned conds x ↔ isEqu conds x = true ∨ isLg conds x = true := by
  constructor
  · rintro ⟨op, hop⟩
    by_cases heq : op = .eq
    · exact Or.inl (isEqu_iff.mpr (heq ▸ hop))
    · exact Or.inr (List.any_eq_true.mpr ⟨_, hop, decide_eq_true ⟨rfl, heq⟩⟩)
  · rintro (h | h)
    · exact ⟨.eq, isEqu_iff.mp h⟩
    · obtain ⟨c, hc, hcx⟩ := List.any_eq_true.mp h
      exact ⟨c.2, (of_decide_eq_true hcx).1 ▸ hc⟩

theorem not_conditioned_iff {x : String} :
    (conds.all fun c => decide (c.1 ≠ x)) = true ↔ ¬ Conditioned conds x := by
  rw [List.all_eq_true]
  constructor
  · rintro h ⟨op, hop⟩
    exact of_decide_eq_true (h _ hop) rfl
  · intro h c hc
    exact decide_eq_true fun hcx => h ⟨c.2, hcx ▸ hc⟩

/-- The first columns with `=`, one more with another condition, and then none with a condition. -/
theorem matchLen_append {X Y : List String} (heq : ∀ x ∈ X.dropLast, (x, .eq) ∈ conds)
    (hX : ∀ x ∈ X, Conditioned conds x) (hY : ∀ y ∈ Y, ¬ Conditioned conds y) :
    matchLen conds (X ++ Y) = X.length := by
  have hnil : Y.takeWhile (isEqu conds) = [] := by
    cases Y with
    | nil => rfl
    | cons y Y =>
      refine List.takeWhile_cons_of_neg fun hy => ?_
      exact hY y List.mem_cons_self (conditioned_iff.mpr (Or.inl hy))
  have hhead : (Y.head?).any (isLg conds) = false := by
    rw [Option.any_eq_false]
    intro y hy
    rw [← Bool.not_eq_true]
    exact fun h => hY y (List.mem_of_mem_head? hy) (conditioned_iff.mpr (Or.inr h))
  unfold matchLen
  dsimp only
  -- behind the first columns with `=` comes the last one that is matched, or `Y`
  by_cases hall : ∀ x ∈ X, isEqu conds x = true
  · rw [List.takeWhile_append_of_pos hall, hnil, List.append_nil,
      List.getElem?_append_right (Nat.le_refl _), Nat.sub_self, ← List.head?_eq_getElem?, hhead,
      if_neg Bool.false_ne_true]
  · rcases List.eq_nil_or_concat X with rfl | ⟨X, x, rfl⟩
    · exact absurd (fun x hx => absurd hx List.not_mem_nil) hall
    · rw [List.concat_eq_append] at heq hX hall ⊢
      rw [List.dropLast_concat] at heq
      have hXp : ∀ y ∈ X, isEqu conds y = true := fun y hy => isEqu_iff.mpr (heq y hy)
      have hx : ¬ isEqu conds x = true := fun hx => hall fun y hy => by
        rcases List.mem_append.mp hy with hy | hy
        · exact hXp y hy
        · rw [List.mem_singleton.mp hy]
          exact hx
      have hother := (conditioned_iff.mp (hX x (List.mem_append_right _ List.mem_cons_self))
        ).resolve_left hx
      rw [List.append_assoc, List.takeWhile_append_of_pos hXp, List.singleton_append,
        List.takeWhile_cons_of_neg hx, List.append_nil, List.getElem?_append_right (Nat.le_refl _),
        Nat.sub_self, List.getElem?_cons_zero, Option.any_some, if_pos hother, List.length_append]
      rfl

/-- What is matched has conditions, all `=` but possibly the last one. -/
theorem take_matchLen (conds : List (String × CompOp)) (names : List String) :
    (∀ x ∈ (names.take (matchLen conds names)).dropLast, (x, .eq) ∈ conds) ∧
      ∀ x ∈ names.take (matchLen conds names), Conditioned conds x := by
  set T := names.takeWhile (isEqu conds) with hT
  have heq : ∀ x ∈ T, (x, CompOp.eq) ∈ conds := fun x hx => isEqu_iff.mp (List.mem_takeWhile_imp hx)
  have htake : names.take T.length = T := (List.prefix_iff_eq_take.mp (List.takeWhile_prefix _)).symm
  have hlen : matchLen conds names =
      if (names[T.length]?).any (isLg conds) then T.length + 1 else T.length := rfl
  rw [hlen]
  split
  · rename_i hmore
    obtain ⟨x, hx, hcond⟩ := (Option.any_eq_true _ _).mp hmore
    rw [List.take_add_one, htake, hx, Option.toList_some]
    refine ⟨fun y hy => ?_, fun y hy => ?_⟩
    · rw [List.dropLast_concat] at hy
      exact heq y hy
    · rcases List.mem_append.mp hy with hy | hy
      · exact ⟨.eq, heq y hy⟩
      · rw [List.mem_singleton.mp hy]
        exact conditioned_iff.mpr (Or.inr hcond)
  · rw [htake]
    exact ⟨fun y hy => heq y (List.dropLast_subset _ hy), fun y hy => ⟨.eq, heq y hy⟩⟩

/-- **The loop matches by the rule.** -/
theorem matched_iff : Matched conds names ↔ LeftmostMatch conds names := by
  constructor
  · rintro ⟨hne, hall⟩
    obtain ⟨heq, hcond⟩ := take_matchLen conds names
    refine ⟨_, _, (List.take_append_drop (matchLen conds names) names).symm, fun hnil => ?_, heq, hcond,
      fun y hy => ?_⟩
    · rcases List.take_eq_nil_iff.mp hnil with h | h
      · exact hne h
      · rw [h] at hne
        exact hne rfl
    · have hlen : ((names.drop (matchLen conds names)).takeWhile
          fun x => conds.all fun c => c.1 ≠ x).length = (names.drop (matchLen conds names)).length := by
        rw [List.length_drop]
        omega
      have hself := (List.takeWhile_prefix fun x => conds.all fun c => decide (c.1 ≠ x)
        ).eq_of_length hlen
      rw [← hself] at hy
      exact not_conditioned_iff.mp
        (List.mem_takeWhile_imp (p := fun x => conds.all fun c => decide (c.1 ≠ x)) hy)
  · rintro ⟨X, Y, rfl, hX, heq, hcond, hY⟩
    have hlen := matchLen_append heq hcond hY
    unfold Matched
    rw [hlen, List.drop_left,
      List.takeWhile_eq_self_iff.mpr fun y hy => not_conditioned_iff.mpr (hY y hy),
      List.length_append]
    exact ⟨fun h => hX (List.eq_nil_of_length_eq_zero h), rfl⟩

/-- A match begins at the first column. -/
theorem matchLen_ne_zero_iff :
    matchLen conds names ≠ 0 ↔ ∃ x ∈ names.head?, Conditioned conds x := by
  cases names with
  | nil =>
    have hzero : matchLen conds [] = 0 := rfl
    rw [hzero]
    exact ⟨fun h => absurd rfl h, fun ⟨x, hx, _⟩ => nomatch hx⟩
  | cons x names =>
    constructor
    · intro hne
      obtain ⟨n, hn⟩ := Nat.exists_eq_succ_of_ne_zero hne
      have hcond := (take_matchLen conds (x :: names)).2
      rw [hn, List.take_succ_cons] at hcond
      exact ⟨x, rfl, hcond x List.mem_cons_self⟩
    · rintro ⟨y, hy, hcond⟩ hzero
      obtain rfl : x = y := Option.some.inj hy
      unfold matchLen at hzero
      by_cases heq : isEqu conds x = true
      · rw [List.takeWhile_cons_of_pos heq, List.length_cons] at hzero
        dsimp only at hzero
        split at hzero <;> omega
      · have hother := (conditioned_iff.mp hcond).resolve_left heq
        rw [List.takeWhile_cons_of_neg heq] at hzero
        dsimp only [List.length_nil, List.getElem?_cons_zero, Option.any_some] at hzero
        rw [if_pos hother] at hzero
        cases hzero

/-! ### The loop -/

theorem skipped_iff {index : IndexMeta} :
    (conds.any fun c => decide (c.1 ∉ colNames index)) = true ↔ Skipped conds index := by
  rw [List.any_eq_true]
  exact exists_congr fun c => and_congr_right fun _ => decide_eq_true_iff

/-- The loop's steps for one index. -/
theorem bestIndex_cons (index : IndexMeta) (rest : List IndexMeta) (indexed : List String) (maxlen : Nat)
    (best : List String) : bestIndex conds (index :: rest) indexed maxlen best =
      let names := indexed ++ colNames index
      if conds.any fun c => c.1 ∉ colNames index then bestIndex conds rest names maxlen best
      else if matchLen conds names = 0 then best
      else if matchLen conds names + ((names.drop (matchLen conds names)).takeWhile
          fun x => conds.all fun c => c.1 ≠ x).length = names.length ∧ maxlen < matchLen conds names then
        bestIndex conds rest [] (matchLen conds names) names
      else bestIndex conds rest [] maxlen best := rfl

/-- One more group of indexes. -/
theorem Passed.snoc {pre skipped : List IndexMeta} {index : IndexMeta} (hpre : Passed conds pre)
    (hskipped : ∀ x ∈ skipped, Skipped conds x) (hindex : ¬ Skipped conds index)
    (hfirst : ∃ x ∈ ((skipped ++ [index]).flatMap colNames).head?, Conditioned conds x) :
    Passed conds (pre ++ skipped ++ [index]) := by
  induction hpre with
  | nil => exact .group skipped index [] hskipped hindex hfirst .nil
  | group lacking own rest hlack hown hhead hrest ih =>
    rw [List.append_assoc lacking, List.append_assoc lacking]
    exact .group lacking own _ hlack hown hhead ih

/-- The first index that is not passed over. -/
theorem first_complete {a c l m : List IndexMeta} {b d : IndexMeta} (ha : ∀ x ∈ a, Skipped conds x)
    (hb : ¬ Skipped conds b) (hc : ∀ x ∈ c, Skipped conds x) (hd : ¬ Skipped conds d)
    (h : a ++ b :: l = c ++ d :: m) : a = c ∧ b = d ∧ l = m := by
  induction a generalizing c with
  | nil =>
    cases c with
    | nil =>
      obtain ⟨rfl, rfl⟩ := List.cons.inj h
      exact ⟨rfl, rfl, rfl⟩
    | cons y c =>
      obtain ⟨rfl, -⟩ := List.cons.inj h
      exact absurd (hc b List.mem_cons_self) hb
  | cons x a ih =>
    cases c with
    | nil =>
      obtain ⟨rfl, -⟩ := List.cons.inj h
      exact absurd (ha x List.mem_cons_self) hd
    | cons y c =>
      obtain ⟨rfl, htail⟩ := List.cons.inj h
      obtain ⟨rfl, hbd, hlm⟩ := ih (fun x hx => ha x (List.mem_cons_of_mem _ hx))
        (fun x hx => hc x (List.mem_cons_of_mem _ hx)) htail
      exact ⟨rfl, hbd, hlm⟩

/-- The names that the loop matches: those of an index, with the names of the ones before it that were
    passed over in front. -/
structure Candidate (conds : List (String × CompOp)) (indexes : List IndexMeta)
    (skipped : List IndexMeta) (index : IndexMeta) : Prop where
  reached : ∃ pre post, indexes = pre ++ skipped ++ index :: post ∧ Passed conds pre
  lacking : ∀ x ∈ skipped, Skipped conds x
  complete : ¬ Skipped conds index
  matched : Matched conds ((skipped ++ [index]).flatMap colNames)

/-- **The result is one of these**, or what it was before. -/
theorem bestIndex_cases {pre : List IndexMeta} (hpre : Passed conds pre)
    (skipped : List IndexMeta) (hskipped : ∀ x ∈ skipped, Skipped conds x) (maxlen : Nat)
    (best : List String) :
    bestIndex conds indexes (skipped.flatMap colNames) maxlen best = best ∨
      ∃ skipped' index, Candidate conds (pre ++ skipped ++ indexes) skipped' index ∧
        bestIndex conds indexes (skipped.flatMap colNames) maxlen best =
          (skipped' ++ [index]).flatMap colNames := by
  -- the columns of skipped indexes stay in the list of names
  induction indexes generalizing pre skipped maxlen best with
  | nil => exact Or.inl rfl
  | cons index rest ih =>
    have hnames : skipped.flatMap colNames ++ colNames index =
        (skipped ++ [index]).flatMap colNames := by
      rw [List.flatMap_append, List.flatMap_singleton]
    rw [bestIndex_cons, hnames]
    dsimp only
    split
    · -- the index is skipped, and its names stay
      rename_i hskip
      have hindex := skipped_iff.mp hskip
      have hih := ih hpre (skipped ++ [index]) (fun x hx => by
        rcases List.mem_append.mp hx with hx | hx
        · exact hskipped x hx
        · rw [List.mem_singleton.mp hx]
          exact hindex) maxlen best
      rwa [← List.append_assoc pre, List.append_assoc _ [index]] at hih
    rename_i hskip
    have hindex : ¬ Skipped conds index := fun h => hskip (skipped_iff.mpr h)
    split
    · -- it matches nothing: the loop is left
      exact Or.inl rfl
    rename_i hfirst
    have hpassed : Passed conds (pre ++ skipped ++ [index]) :=
      hpre.snoc hskipped hindex (matchLen_ne_zero_iff.mp hfirst)
    have hrest : ∀ maxlen best, bestIndex conds rest [] maxlen best = best ∨
        ∃ skipped' index', Candidate conds (pre ++ skipped ++ index :: rest) skipped' index' ∧
          bestIndex conds rest [] maxlen best = (skipped' ++ [index']).flatMap colNames := by
      intro maxlen best
      have hih := ih hpassed [] (fun x hx => absurd hx List.not_mem_nil) maxlen best
      rwa [List.append_nil, List.append_assoc _ [index]] at hih
    split
    · -- it is better than the best so far, or not
      rename_i hmatch
      rcases hrest (matchLen conds ((skipped ++ [index]).flatMap colNames))
        ((skipped ++ [index]).flatMap colNames) with hbest | hother
      · exact Or.inr ⟨skipped, index, ⟨⟨pre, rest, rfl, hpre⟩, hskipped, hindex, hfirst, hmatch.1⟩, hbest⟩
      · exact Or.inr hother
    · exact hrest maxlen best

/-- **The result is at least as long** as what it was before, and as all matches that the loop comes
    to. -/
theorem bestIndex_max (skipped : List IndexMeta) (hskipped : ∀ x ∈ skipped, Skipped conds x)
    (maxlen : Nat) (best : List String) (hmax : maxlen = matchLen conds best) :
    maxlen ≤ matchLen conds (bestIndex conds indexes (skipped.flatMap colNames) maxlen best) ∧
      ∀ skipped' index, Candidate conds (skipped ++ indexes) skipped' index →
        matchLen conds ((skipped' ++ [index]).flatMap colNames) ≤
          matchLen conds (bestIndex conds indexes (skipped.flatMap colNames) maxlen best) := by
  induction indexes generalizing skipped maxlen best with
  | nil =>
    refine ⟨Nat.le_of_eq hmax, fun skipped' index hcand => ?_⟩
    obtain ⟨⟨pre, post, heq, -⟩, -, hcomplete, -⟩ := hcand
    -- all indexes are passed over
    refine absurd (hskipped index ?_) hcomplete
    rw [← List.append_nil skipped, heq]
    simp
  | cons index rest ih =>
    have hnames : skipped.flatMap colNames ++ colNames index =
        (skipped ++ [index]).flatMap colNames := by
      rw [List.flatMap_append, List.flatMap_singleton]
    rw [bestIndex_cons, hnames]
    dsimp only
    split
    · rename_i hskip
      have hih := ih (skipped ++ [index]) (fun x hx => by
        rcases List.mem_append.mp hx with hx | hx
        · exact hskipped x hx
        · rw [List.mem_singleton.mp hx]
          exact skipped_iff.mp hskip) maxlen best hmax
      rwa [List.append_assoc skipped, List.singleton_append] at hih
    rename_i hskip
    have hindex : ¬ Skipped conds index := fun h => hskip (skipped_iff.mpr h)
    -- a match is the first one, or it is one of those of the other indexes
    have hfirst : ∀ skipped' index', Candidate conds (skipped ++ index :: rest) skipped' index' →
        (skipped' = skipped ∧ index' = index) ∨
          (matchLen conds ((skipped ++ [index]).flatMap colNames) ≠ 0 ∧
            Candidate conds rest skipped' index') := by
      rintro skipped' index' ⟨⟨pre, post, heq, hpre⟩, hlack, hcomplete, hmatched⟩
      cases hpre with
      | nil =>
        obtain ⟨rfl, rfl, -⟩ := first_complete hskipped hindex hlack hcomplete heq
        exact Or.inl ⟨rfl, rfl⟩
      | group lacking own pre hlack' hown hhead hpre =>
        have heq' : skipped ++ index :: rest =
            lacking ++ own :: (pre ++ skipped' ++ index' :: post) := by
          rw [heq, List.append_assoc, List.append_assoc, List.append_assoc, List.cons_append]
        obtain ⟨rfl, rfl, hrest⟩ := first_complete hskipped hindex hlack' hown heq'
        exact Or.inr ⟨matchLen_ne_zero_iff.mpr hhead,
          ⟨⟨pre, post, hrest, hpre⟩, hlack, hcomplete, hmatched⟩⟩
    split
    · rename_i hzero
      refine ⟨Nat.le_of_eq hmax, fun skipped' index' hcand => ?_⟩
      rcases hfirst skipped' index' hcand with ⟨rfl, rfl⟩ | ⟨hne, -⟩
      · exact absurd hzero hcand.matched.1
      · exact absurd hzero hne
    have hnil : ∀ x ∈ ([] : List IndexMeta), Skipped conds x := fun x hx => absurd hx List.not_mem_nil
    split
    · rename_i hmatch
      obtain ⟨hle, hall⟩ := ih [] hnil
        (matchLen conds ((skipped ++ [index]).flatMap colNames)) _ rfl
      refine ⟨Nat.le_trans (Nat.le_of_lt hmatch.2) hle, fun skipped' index' hcand => ?_⟩
      rcases hfirst skipped' index' hcand with ⟨rfl, rfl⟩ | ⟨-, hcand⟩
      · exact hle
      · exact hall skipped' index' hcand
    · rename_i hmatch
      obtain ⟨hle, hall⟩ := ih [] hnil maxlen best hmax
      refine ⟨hle, fun skipped' index' hcand => ?_⟩
      rcases hfirst skipped' index' hcand with ⟨rfl, rfl⟩ | ⟨-, hcand'⟩
      · refine Nat.le_trans (Nat.le_of_not_lt fun hlt => hmatch ⟨?_, hlt⟩) hle
        exact hcand.matched.2
      · exact hall skipped' index' hcand'

/-! ### Names in front of a match -/

/-- The conditions on a table that compare a column with a value. -/
def valueConds (tab : String) (conds : List Condition) : List (String × CompOp) :=
  (conds.filter fun c => c.isRhsVal ∧ c.lhsCol.tabName = tab).map fun c => (c.lhsCol.colName, c.op)

/-- **What the choice is for**: the names are those of an index, the conditions are on its columns, and
    match them from the left. -/
structure ChoosesIndex (tab : String) (indexes : List IndexMeta) (conds : List (String × CompOp))
    (names : List String) : Prop where
  found : ∃ index ∈ indexes, colNames index = names ∧ getIndexMeta tab indexes names = .ok index
  covers : ∀ c ∈ conds, c.1 ∈ names
  leftmost : LeftmostMatch conds names

/-- **Names are left in front of a match.** The loop comes to an index that matches, and directly before
    it there are indexes that it has passed over: they lack a column of the conditions, but all columns
    they have are compared with `=`. -/
def StaleMatch (conds : List (String × CompOp)) (indexes : List IndexMeta) : Prop :=
  ∃ pre skipped index post, indexes = pre ++ skipped ++ index :: post ∧ Passed conds pre ∧
    skipped.flatMap colNames ≠ [] ∧
    (∀ x ∈ skipped, Skipped conds x ∧ ∀ y ∈ colNames x, (y, .eq) ∈ conds) ∧
    ¬ Skipped conds index ∧ LeftmostMatch conds (colNames index)

/-- Names in front of those of an index are matched with it if all of them have `=`. -/
theorem leftmostMatch_append {front : List String} {index : IndexMeta} (hindex : ¬ Skipped conds index) :
    LeftmostMatch conds (front ++ colNames index) ↔
      (∀ x ∈ front, (x, .eq) ∈ conds) ∧ LeftmostMatch conds (colNames index) := by
  have hown : ∀ x, Conditioned conds x → x ∈ colNames index := by
    rintro x ⟨op, hop⟩
    by_contra hx
    exact hindex ⟨_, hop, hx⟩
  constructor
  · rintro ⟨X, Y, hXY, hX, heq, hcond, hY⟩
    obtain ⟨x, X₁, rfl⟩ := List.exists_cons_of_ne_nil hX
    have hx := hown x (hcond x List.mem_cons_self)
    rcases List.append_eq_append_iff.mp hXY with ⟨X', hX', hown'⟩ | ⟨bs, -, hY'⟩
    · have hne : X' ≠ [] := by
        rintro rfl
        rw [hown', List.nil_append] at hx
        exact hY x hx (hcond x List.mem_cons_self)
      rw [hX', List.dropLast_append_of_ne_nil hne] at heq
      rw [hX'] at hcond
      refine ⟨fun y hy => heq y (List.mem_append_left _ hy), X', Y, hown', hne, fun y hy => ?_,
        fun y hy => ?_, hY⟩
      · exact heq y (List.mem_append_right _ hy)
      · exact hcond y (List.mem_append_right _ hy)
    · -- the index would have no column with a condition
      refine absurd (hcond x List.mem_cons_self) (hY x ?_)
      rw [hY']
      exact List.mem_append_right _ hx
  · rintro ⟨hfront, X, Y, hXY, hX, heq, hcond, hY⟩
    refine ⟨front ++ X, Y, by rw [hXY, List.append_assoc], List.append_ne_nil_of_right_ne_nil _ hX,
      fun y hy => ?_, fun y hy => ?_, hY⟩
    · rw [List.dropLast_append_of_ne_nil hX] at hy
      exact (List.mem_append.mp hy).elim (hfront y) (heq y)
    · exact (List.mem_append.mp hy).elim (fun hy => ⟨.eq, hfront y hy⟩) (hcond y)

theorem Candidate.leftmost {skipped : List IndexMeta} {index : IndexMeta}
    (h : Candidate conds indexes skipped index) :
    (∀ x ∈ skipped.flatMap colNames, (x, .eq) ∈ conds) ∧ LeftmostMatch conds (colNames index) := by
  have hmatch := matched_iff.mp h.matched
  rw [List.flatMap_append, List.flatMap_singleton] at hmatch
  exact (leftmostMatch_append h.complete).mp hmatch

/-- Without such names the choice is right. -/
theorem chooses_of_not_stale {tab : String} (h : ¬ StaleMatch conds indexes)
    (hne : bestIndex conds indexes [] 0 [] ≠ []) :
    ChoosesIndex tab indexes conds (bestIndex conds indexes [] 0 []) := by
  have hnil : ∀ x ∈ ([] : List IndexMeta), Skipped conds x := fun x hx => absurd hx List.not_mem_nil
  rcases bestIndex_cases Passed.nil [] hnil 0 [] with hbest | ⟨skipped, index, hcand, hbest⟩
  · exact absurd hbest hne
  have hbest' : bestIndex conds indexes [] 0 [] = (skipped ++ [index]).flatMap colNames := hbest
  rw [hbest', List.flatMap_append, List.flatMap_singleton]
  obtain ⟨pre, post, heq, hpre⟩ := hcand.reached
  obtain ⟨hfront, hleft⟩ := hcand.leftmost
  have hempty : skipped.flatMap colNames = [] := by
    by_contra hfull
    refine h ⟨pre, skipped, index, post, heq, hpre, hfull, fun x hx => ⟨hcand.lacking x hx, ?_⟩,
      hcand.complete, hleft⟩
    exact fun y hy => hfront y (List.mem_flatMap.mpr ⟨x, hx, hy⟩)
  rw [hempty, List.nil_append]
  have hmem : index ∈ indexes := by
    have heq' : indexes = pre ++ skipped ++ index :: post := heq
    rw [heq']
    exact List.mem_append_right _ List.mem_cons_self
  refine ⟨?_, fun c hc => ?_, hleft⟩
  · obtain ⟨found, hfound⟩ : ∃ found, indexes.find? (fun x => colNames x = colNames index) = some found :=
      Option.isSome_iff_exists.mp (List.find?_isSome.mpr ⟨index, hmem, decide_eq_true rfl⟩)
    refine ⟨found, List.mem_of_find?_eq_some hfound, ?_, ?_⟩
    · exact of_decide_eq_true (List.find?_some (p := fun x => decide (colNames x = colNames index)) hfound)
    · unfold getIndexMeta
      rw [hfound]
  · by_contra hc'
    exact hcand.complete ⟨c, hc, hc'⟩

/-- With such names it is not, if no index has a column twice. -/
theorem not_chooses_of_stale (tab : String) (hnodup : ∀ index ∈ indexes, (colNames index).Nodup)
    (h : StaleMatch conds indexes) : bestIndex conds indexes [] 0 [] ≠ [] ∧
      ¬ ChoosesIndex tab indexes conds (bestIndex conds indexes [] 0 []) := by
  obtain ⟨pre, skipped, index, post, heq, hpre, hfull, hskipped, hindex, hleft⟩ := h
  have hfront : ∀ x ∈ skipped.flatMap colNames, (x, .eq) ∈ conds := by
    intro x hx
    obtain ⟨y, hy, hx⟩ := List.mem_flatMap.mp hx
    exact (hskipped y hy).2 x hx
  have hnames : (skipped ++ [index]).flatMap colNames = skipped.flatMap colNames ++ colNames index := by
    rw [List.flatMap_append, List.flatMap_singleton]
  have hmatch : LeftmostMatch conds ((skipped ++ [index]).flatMap colNames) := by
    rw [hnames]
    exact (leftmostMatch_append hindex).mpr ⟨hfront, hleft⟩
  have hcand : Candidate conds indexes skipped index :=
    ⟨⟨pre, post, heq, hpre⟩, fun x hx => (hskipped x hx).1, hindex, matched_iff.mpr hmatch⟩
  have hmax' : matchLen conds ((skipped ++ [index]).flatMap colNames) ≤
      matchLen conds (bestIndex conds indexes [] 0 []) :=
    (bestIndex_max [] (fun x hx => absurd hx List.not_mem_nil) 0 [] rfl).2 skipped index hcand
  generalize bestIndex conds indexes [] 0 [] = names at hmax'
  -- the match has the names in front and the columns of the index that have conditions
  obtain ⟨X, Y, hXY, hX, heqX, hcondX, hY⟩ := hleft
  have hlen : matchLen conds ((skipped ++ [index]).flatMap colNames) =
      (skipped.flatMap colNames).length + X.length := by
    rw [hnames, hXY, ← List.append_assoc, ← List.length_append]
    refine matchLen_append (fun x hx => ?_) (fun x hx => ?_) hY
    · rw [List.dropLast_append_of_ne_nil hX] at hx
      exact (List.mem_append.mp hx).elim (hfront x) (heqX x)
    · exact (List.mem_append.mp hx).elim (fun hx => ⟨.eq, hfront x hx⟩) (hcondX x)
  have hpos := List.length_pos_of_ne_nil hfull
  refine ⟨?_, ?_⟩
  · rintro rfl
    have hzero : matchLen conds [] = 0 := rfl
    omega
  · rintro ⟨⟨found, hfound, rfl, -⟩, -, X', Y', hXY', -, heqX', hcondX', hY'⟩
    have hlen' : matchLen conds (colNames found) = X'.length := by
      rw [hXY']
      exact matchLen_append heqX' hcondX' hY'
    -- all of these are columns of the index
    have hsub : X' ⊆ X := by
      intro x hx
      obtain ⟨op, hop⟩ := hcondX' x hx
      have hmem : x ∈ colNames index := by
        by_contra hx'
        exact hindex ⟨_, hop, hx'⟩
      rw [hXY] at hmem
      exact (List.mem_append.mp hmem).resolve_right fun hx' => hY x hx' ⟨op, hop⟩
    have hnd : X'.Nodup := by
      have hnd := hnodup found hfound
      rw [hXY'] at hnd
      exact (List.nodup_append.mp hnd).1
    have hle := List.Nodup.length_le_of_subset hnd hsub
    omega

/-- **The choice of an index.** The columns that `get_index_cols` returns are right unless the names of
    indexes that were passed over are in front of them, and, if no index has a column twice, only
    then. -/
theorem getIndexCols_sound_iff (tab : String) (indexes : List IndexMeta) (conds : List Condition) :
    (¬ StaleMatch (valueConds tab conds) indexes → getIndexCols indexes tab conds ≠ [] →
      ChoosesIndex tab indexes (valueConds tab conds) (getIndexCols indexes tab conds)) ∧
    ((∀ index ∈ indexes, (colNames index).Nodup) →
      ((getIndexCols indexes tab conds ≠ [] →
        ChoosesIndex tab indexes (valueConds tab conds) (getIndexCols indexes tab conds)) ↔
        ¬ StaleMatch (valueConds tab conds) indexes)) := by
  have hchooses : ¬ StaleMatch (valueConds tab conds) indexes → getIndexCols indexes tab conds ≠ [] →
      ChoosesIndex tab indexes (valueConds tab conds) (getIndexCols indexes tab conds) :=
    chooses_of_not_stale
  refine ⟨hchooses, fun hnodup => ⟨fun hright hstale => ?_, hchooses⟩⟩
  obtain ⟨hne, hwrong⟩ := not_chooses_of_stale tab hnodup hstale
  exact hwrong (hright hne)

/-- An `INT` column. -/
def intColumn (name : String) (offset : Nat) : ColMeta := ⟨name, .int, 4, offset⟩

/-- The condition `t.name = 0`. -/
def equalsZero (name : String) : Condition :=
  { lhsCol := ⟨"t", name⟩, op := .eq, isRhsVal := true, rhsCol := ⟨"", ""⟩, rhsVal := ⟨.int, 0, [], []⟩ }

/-- The theorem at one index, with conditions on both of its columns. -/
theorem getIndexCols_sound_two_columns :
    ChoosesIndex "t" [IndexMeta.create [intColumn "a" 0, intColumn "b" 4]]
      (valueConds "t" [equalsZero "a", equalsZero "b"])
      (getIndexCols [IndexMeta.create [intColumn "a" 0, intColumn "b" 4]] "t"
        [equalsZero "a", equalsZero "b"]) := by
  have h := getIndexCols_sound_iff "t" [IndexMeta.create [intColumn "a" 0, intColumn "b" 4]]
    [equalsZero "a", equalsZero "b"]
  refine (h.2 (by decide)).mpr ?_ (by decide)
  -- the index is the first one
  rintro ⟨pre, skipped, index, post, heq, -, hfull, -⟩
  have hlen := congrArg List.length heq
  simp only [List.length_append, List.length_cons, List.length_nil] at hlen
  refine hfull ?_
  rw [List.eq_nil_of_length_eq_zero (l := skipped) (by omega)]
  rfl

/-- **Two indexes become one.** With the indexes `(a)` and `(a, b)` and the conditions `a = 0` and
    `b = 0` the names are `a, a, b`, and there is no such index. -/
theorem names_of_two_indexes :
    let indexes := [IndexMeta.create [intColumn "a" 0],
      IndexMeta.create [intColumn "a" 0, intColumn "b" 4]]
    getIndexCols indexes "t" [equalsZero "a", equalsZero "b"] = ["a", "a", "b"] ∧
      getIndexMeta "t" indexes ["a", "a", "b"] =
        .error (.rmdbError "Index not found: t.(a, a, b)") ∧
      ¬ (getIndexCols indexes "t" [equalsZero "a", equalsZero "b"] ≠ [] →
        ChoosesIndex "t" indexes (valueConds "t" [equalsZero "a", equalsZero "b"])
          (getIndexCols indexes "t" [equalsZero "a", equalsZero "b"])) := by
  intro indexes
  have hnames : getIndexCols indexes "t" [equalsZero "a", equalsZero "b"] = ["a", "a", "b"] := by
    decide +kernel
  refine ⟨hnames, by decide +kernel, fun h => ?_⟩
  obtain ⟨⟨index, -, -, hfound⟩, -⟩ := h (by rw [hnames]; exact List.cons_ne_nil _ _)
  rw [hnames] at hfound
  revert hfound
  have herror : getIndexMeta "t" indexes ["a", "a", "b"] =
      .error (.rmdbError "Index not found: t.(a, a, b)") := by decide +kernel
  rw [herror]
  exact fun hfound => nomatch hfound

end Planner

end Rmdb
