import Rmdb.Lib.SortBy
import Rmdb.Execution.BlockJoin
import Rmdb.Optimizer.SortPlan

namespace Rmdb

open Lib Std AbstractExecutor

/-!
# Sorting (`execution_sort.h`)

The executor reads all records of its child when it is started, sorts them with `std::sort` and hands
them out up to the limit, which is the `int` that the parser has made of the text behind `LIMIT`.

* `sortLess` — the comparison given to `std::sort`;
* `AbstractExecutor.sort` — `SortExecutor`, for any routine in the place of `std::sort`;
* `keyCompare` — the order of the values of a column, in the direction of its key;
* `sortLess_eq` — the comparison is the lexicographic one;
* `ScanOrJoin` — the executors that have a `get_col_offset` of their own;
* `sort_delivers` — the records delivered are the first ones of a sorted permutation.

`Next` moves a record out of its place; the loops above call it once for each.
-/

/-- The comparison of two records. -/
def sortLess : List (ExecCol × Bool) → List UInt8 → List UInt8 → Except ExecError Bool
  | [], _, _ => .ok false
  | (c, isDesc) :: cols, a, b => do
    let v1 ← Value.loadRaw c.col.type c.col.len (slice a c.col.offset c.col.len)
    let v2 ← Value.loadRaw c.col.type c.col.len (slice b c.col.offset c.col.len)
    let isGt ← binop .gt v1 v2
    let isLt ← binop .lt v1 v2
    if !isGt && !isLt then sortLess cols a b
    else return (isDesc && isGt) || (!isDesc && !isGt)

/-- `(size_t)limit_`, for an `int`. -/
def limitSize (limit : Int) : Nat := (limit % 2 ^ 64).toNat

/-- The state of a `SortExecutor`. -/
structure SortState (σ : Type) where
  prev : σ
  allRecord : List (List UInt8)
  tuplePtr : Nat

/-- The state after the constructor. -/
def SortState.create {σ : Type} (prev : σ) : SortState σ :=
  { prev := prev, allRecord := [], tuplePtr := 0 }

namespace AbstractExecutor

section Sorting

variable {σ : Type} (stdSort : (List UInt8 → List UInt8 → Bool) → List (List UInt8) →
  List (List UInt8)) (prev : AbstractExecutor σ) (cols : List (ExecCol × Bool)) (limit : Int)

/-- The constructor looks up the columns in the child. -/
def sortCols (selCols : List (TabCol × Bool)) : Except RunError (List (ExecCol × Bool)) :=
  selCols.mapM fun k => do return (← prev.getColOffset k.1, k.2)

/-- The loop of `beginTuple` over the child. -/
def fill : Nat → σ → List (List UInt8) → Except RunError (σ × List (List UInt8))
  | 0, _, _ => .error .outOfFuel
  | fuel + 1, st, recs => do
    if ← prev.isEnd st then return (st, recs)
    let rec ← prev.item st
    let next ← prev.next st
    fill fuel next (recs ++ [rec])

/-- `std::sort`, which may compare any two of the records and passes on what a comparison throws. -/
def sortRecords (recs : List (List UInt8)) : Except RunError (List (List UInt8)) := do
  let _ ← (nestedLoop recs recs).mapM fun p => (sortLess cols p.1 p.2).mapError RunError.exec
  return stdSort (fun a b => (sortLess cols a b).toOption = some true) recs

/-- `is_end`. -/
def sortEnd (st : SortState σ) : Bool :=
  if limit = -1 ∨ st.allRecord.length ≤ limitSize limit then st.tuplePtr = st.allRecord.length
  else st.tuplePtr = limitSize limit

/-- `SortExecutor`: `tupleLen` and `get_col_offset` are those of `AbstractExecutor`. -/
def sort (fuel : Nat) : AbstractExecutor (SortState σ) where
  start st := do
    let first ← prev.start st.prev
    let (last, recs) ← fill prev fuel first st.allRecord
    let sorted ← sortRecords stdSort cols recs
    return { st with prev := last, allRecord := sorted }
  next st := .ok { st with tuplePtr := st.tuplePtr + 1 }
  isEnd st := .ok (sortEnd limit st)
  item st :=
    match st.allRecord[st.tuplePtr]? with
    | some rec => .ok rec
    | none => .error .nullPointer
  cols := prev.cols
  tupleLen := 0
  getColOffset _ := .ok ExecCol.default

end Sorting

end AbstractExecutor

/-! ### The order of the records -/

/-- The order of the values of a column; that of floats is left out. -/
def fieldCompare (c : ColMeta) (a b : List UInt8) : Ordering :=
  let x := slice a c.offset c.len
  let y := slice b c.offset c.len
  match c.type with
  | .int => compare (signed 32 (ofLeBytes x)) (signed 32 (ofLeBytes y))
  | .bigint => compare (signed 64 (ofLeBytes x)) (signed 64 (ofLeBytes y))
  | .string | .datetime => strcmp x y
  | .float => .eq

/-- The order of a key: a descending one is turned around. -/
def keyCompare (k : ExecCol × Bool) (a b : List UInt8) : Ordering :=
  if k.2 then fieldCompare k.1.col b a else fieldCompare k.1.col a b

/-- A column of type INT, BIGINT, STRING or DATETIME, with the length of its type. -/
def ColMeta.Sortable (c : ColMeta) : Prop := c.Declared ∧ c.type ≠ .float

instance transCmp_fieldCompare (c : ColMeta) : TransCmp (fieldCompare c) := by
  unfold fieldCompare
  cases c.type with
  | int =>
    exact inferInstanceAs (TransCmp (compareOn fun a => signed 32 (ofLeBytes (slice a c.offset c.len))))
  | bigint =>
    exact inferInstanceAs (TransCmp (compareOn fun a => signed 64 (ofLeBytes (slice a c.offset c.len))))
  | float => exact { eq_swap := rfl, isLE_trans := fun _ _ => rfl }
  | string => exact inferInstanceAs (TransCmp (compareOn fun a => cStr (slice a c.offset c.len)))
  | datetime => exact inferInstanceAs (TransCmp (compareOn fun a => cStr (slice a c.offset c.len)))

instance transCmp_keyCompare (k : ExecCol × Bool) : TransCmp (keyCompare k) := by
  obtain ⟨c, isDesc⟩ := k
  cases isDesc with
  | true => exact inferInstanceAs (TransCmp fun a b => fieldCompare c.col b a)
  | false => exact inferInstanceAs (TransCmp (fieldCompare c.col))

/-- The values of a sortable column compare as their order says. -/
theorem binop_fieldCompare {c : ColMeta} (h : c.Sortable) (a b : List UInt8) :
    ∃ v1 v2, Value.loadRaw c.type c.len (slice a c.offset c.len) = .ok v1 ∧
      Value.loadRaw c.type c.len (slice b c.offset c.len) = .ok v2 ∧
      ∀ op, binop op v1 v2 = .ok (op.holds (some (fieldCompare c a b))) := by
  obtain ⟨hdecl, hfloat⟩ := h
  have htake : ∀ (rec : List UInt8) (off n : Nat), (slice rec off n).take n = slice rec off n := by
    intro rec off n
    rw [slice, List.take_take, Nat.min_self]
  unfold ColMeta.Declared at hdecl
  unfold fieldCompare Value.loadRaw
  cases htype : c.type with
  | int =>
    rw [htype] at hdecl
    have hlen : c.len = 4 := hdecl
    simp only [hlen, if_true, htake]
    exact ⟨_, _, rfl, rfl, fun op => rfl⟩
  | bigint =>
    rw [htype] at hdecl
    have hlen : c.len = 8 := hdecl
    simp only [hlen, if_true, htake]
    exact ⟨_, _, rfl, rfl, fun op => rfl⟩
  | float => exact absurd htype hfloat
  | string =>
    simp only [htake]
    exact ⟨_, _, rfl, rfl, fun op => rfl⟩
  | datetime =>
    simp only [htake]
    exact ⟨_, _, rfl, rfl, fun op => rfl⟩

/-- **The comparison is the lexicographic one** by the keys in their order and directions. -/
theorem sortLess_eq {cols : List (ExecCol × Bool)} (h : ∀ k ∈ cols, k.1.col.Sortable)
    (a b : List UInt8) :
    sortLess cols a b = .ok (decide (lexBy (cols.map keyCompare) a b = .lt)) := by
  induction cols with
  | nil => rfl
  | cons k cols ih =>
    obtain ⟨c, isDesc⟩ := k
    obtain ⟨v1, v2, hv1, hv2, hop⟩ := binop_fieldCompare (h (c, isDesc) List.mem_cons_self) a b
    have hrest := ih fun k hk => h k (List.mem_cons_of_mem _ hk)
    have hswap : fieldCompare c.col b a = (fieldCompare c.col a b).swap := OrientedCmp.eq_swap
    rw [sortLess, hv1]
    show (Value.loadRaw c.col.type c.col.len (slice b c.col.offset c.col.len) >>= _) = _
    rw [hv2]
    show (binop .gt v1 v2 >>= _) = _
    rw [hop]
    show (binop .lt v1 v2 >>= _) = _
    rw [hop]
    show _ = Except.ok (decide ((keyCompare (c, isDesc) a b).then
      (lexBy (cols.map keyCompare) a b) = .lt))
    unfold keyCompare
    rw [hswap]
    cases fieldCompare c.col a b <;> cases isDesc
    all_goals first
      | exact hrest
      | rfl

/-! ### Runs -/

variable {σ : Type} {stdSort : (List UInt8 → List UInt8 → Bool) → List (List UInt8) →
  List (List UInt8)} {prev : AbstractExecutor σ} {cols : List (ExecCol × Bool)} {limit : Int}
  {rows recs : List (List UInt8)}

theorem fill_eq {st : σ} (h : prev.Yields st rows) (recs : List (List UInt8)) {fuel : Nat}
    (hfuel : rows.length < fuel) : ∃ st', fill prev fuel st recs = .ok (st', recs ++ rows) := by
  induction h generalizing recs fuel with
  | @done st hend =>
    obtain ⟨fuel, rfl⟩ : ∃ n, fuel = n + 1 := ⟨fuel - 1, by omega⟩
    refine ⟨st, ?_⟩
    rw [fill, hend, List.append_nil]
    rfl
  | @item st next rec rows hend hitem hnext hrest ih =>
    obtain ⟨fuel, rfl⟩ : ∃ n, fuel = n + 1 := ⟨fuel - 1, by omega⟩
    rw [List.length_cons] at hfuel
    obtain ⟨st', hfill⟩ := ih (recs ++ [rec]) (Nat.lt_of_succ_lt_succ hfuel)
    refine ⟨st', ?_⟩
    rw [List.append_assoc, List.singleton_append] at hfill
    rw [fill, hend]
    show (prev.item st >>= _) = _
    rw [hitem]
    show (prev.next st >>= _) = _
    rw [hnext]
    exact hfill

/-- With sortable columns no comparison throws. -/
theorem sortRecords_eq (h : ∀ k ∈ cols, k.1.col.Sortable) (recs : List (List UInt8)) :
    sortRecords stdSort cols recs =
      .ok (stdSort (fun a b => lexBy (cols.map keyCompare) a b = .lt) recs) := by
  have hpairs : (fun p : List UInt8 × List UInt8 => (sortLess cols p.1 p.2).mapError RunError.exec) =
      fun p => pure (decide (lexBy (cols.map keyCompare) p.1 p.2 = .lt)) := by
    funext p
    rw [sortLess_eq h]
    rfl
  have hless : (fun a b => decide ((sortLess cols a b).toOption = some true)) =
      fun a b => decide (lexBy (cols.map keyCompare) a b = .lt) := by
    funext a b
    rw [sortLess_eq h]
    simp [Except.toOption]
  unfold sortRecords
  rw [hpairs, List.mapM_pure, hless]
  rfl

/-- How many of `n` records the limit lets through. -/
def limited (limit : Int) (n : Nat) : Nat := if limit = -1 then n else min n limit.toNat

theorem sortEnd_iff (hlimit : limit = -1 ∨ (0 ≤ limit ∧ limit < 2 ^ 31)) (st : SortState σ) :
    sortEnd limit st = true ↔ st.tuplePtr = limited limit st.allRecord.length := by
  unfold sortEnd limited limitSize
  rcases hlimit with rfl | ⟨hlo, hhi⟩
  · rw [if_pos (.inl rfl), if_pos rfl]
    exact decide_eq_true_iff
  · have hsize : (limit % 2 ^ 64).toNat = limit.toNat := by
      rw [Int.emod_eq_of_lt hlo (by omega)]
    have hne : limit ≠ -1 := by omega
    rw [hsize, if_neg hne]
    by_cases hle : st.allRecord.length ≤ limit.toNat
    · rw [if_pos (.inr hle), Nat.min_eq_left hle]
      exact decide_eq_true_iff
    · rw [if_neg (not_or.mpr ⟨hne, hle⟩), Nat.min_eq_right (Nat.le_of_not_le hle)]
      exact decide_eq_true_iff

/-- From a place up to the limit the executor hands out the records there. -/
theorem sort_yields (hlimit : limit = -1 ∨ (0 ≤ limit ∧ limit < 2 ^ 31)) {st : SortState σ}
    (hptr : st.tuplePtr ≤ limited limit st.allRecord.length) (fuel : Nat) :
    (sort stdSort prev cols limit fuel).Yields st
      ((st.allRecord.take (limited limit st.allRecord.length)).drop st.tuplePtr) := by
  have hle : limited limit st.allRecord.length ≤ st.allRecord.length := by
    unfold limited
    split
    · exact Nat.le_refl _
    · exact Nat.min_le_left _ _
  induction hn : limited limit st.allRecord.length - st.tuplePtr generalizing st with
  | zero =>
    have heq : st.tuplePtr = limited limit st.allRecord.length := by omega
    rw [List.drop_of_length_le (by rw [List.length_take]; omega)]
    exact .done (congrArg Except.ok ((sortEnd_iff hlimit st).mpr heq))
  | succ n ih =>
    have hlt : st.tuplePtr < limited limit st.allRecord.length := by omega
    have hget : st.tuplePtr < (st.allRecord.take (limited limit st.allRecord.length)).length := by
      rw [List.length_take]
      omega
    have hnot : sortEnd limit st = false := by
      rw [← Bool.not_eq_true, sortEnd_iff hlimit]
      omega
    have hrest : (sort stdSort prev cols limit fuel).Yields { st with tuplePtr := st.tuplePtr + 1 }
        ((st.allRecord.take (limited limit st.allRecord.length)).drop (st.tuplePtr + 1)) :=
      ih hlt hle (by show limited limit st.allRecord.length - (st.tuplePtr + 1) = n; omega)
    rw [List.drop_eq_getElem_cons hget]
    refine .item (congrArg Except.ok hnot) ?_ rfl hrest
    show (match st.allRecord[st.tuplePtr]? with | some rec => _ | none => _) = _
    rw [List.getElem?_eq_getElem (by omega), List.getElem_take]

/-! ### ORDER BY -/

/-- A sequential scan or a join. -/
inductive ScanOrJoin : {σ : Type} → AbstractExecutor σ → Prop
  | seqScan (fuel : Nat) (t : ScanTable) (conds : List Condition) :
      ScanOrJoin (AbstractExecutor.seqScan fuel t conds)
  | join {σ τ : Type} (left : AbstractExecutor σ) (right : AbstractExecutor τ)
      (conds : List Condition) (fuel : Nat) :
      ScanOrJoin (blockNestedLoopJoin left right conds fuel)

theorem ScanOrJoin.getColOffset (h : ScanOrJoin prev) : prev.getColOffset = findOffset prev.cols := by
  cases h with
  | seqScan => rfl
  | join => rfl

/-- The column that an item of ORDER BY names, as it lies in the records of an executor. -/
def orderKey (allCols : List TabCol) (cols : List ExecCol) (o : OrderBy) : Option (ExecCol × Bool) :=
  match Planner.resolveOrder allCols o with
  | .ok x => (ExecCol.find? cols x).map fun c => (c, o.isDesc)
  | .error _ => none

variable {allCols : List TabCol} {orders : List OrderBy} {keys : List (TabCol × Bool)}
  {listed : List (ExecCol × Bool)}

/-- The keys of the first loop become the columns of ORDER BY. -/
theorem sortCols_listed (hprev : ScanOrJoin prev)
    {selCols : List (TabCol × Bool)}
    (hsel : List.Forall₂ (fun o k => (do return (← Planner.resolveOrder allCols o, o.isDesc)) = .ok k)
      orders selCols)
    (hlisted : List.Forall₂ (fun o k => orderKey allCols prev.cols o = some k) orders listed) :
    sortCols prev selCols = .ok listed := by
  refine mapM_eq_ok.mpr ?_
  induction hsel generalizing listed with
  | nil =>
    cases hlisted
    exact .nil
  | @cons o k orders selCols hk _ ih =>
    obtain ⟨⟩ | ⟨hc, hrest⟩ := hlisted
    refine .cons ?_ (ih hrest)
    obtain ⟨x, hx, hk⟩ := bind_eq_ok.mp hk
    cases hk
    unfold orderKey at hc
    rw [hx] at hc
    obtain ⟨c, hfind, rfl⟩ := Option.map_eq_some_iff.mp hc
    rw [hprev.getColOffset]
    refine bind_eq_ok.mpr ⟨c, ?_, rfl⟩
    unfold findOffset
    rw [hfind]

/-- Keys that occur again are looked up as the first time. -/
theorem sortCols_again {selCols again : List (TabCol × Bool)} (hsel : sortCols prev selCols = .ok listed)
    (h : ∀ k ∈ again, k ∈ selCols) :
    ∃ cols, sortCols prev again = .ok cols ∧ ∀ k ∈ cols, k ∈ listed := by
  induction again with
  | nil => exact ⟨[], rfl, fun _ hk => nomatch hk⟩
  | cons k again ih =>
    obtain ⟨cols, hcols, hmem⟩ := ih fun x hx => h x (List.mem_cons_of_mem _ hx)
    obtain ⟨c, hc, hk⟩ := exists_mem_of_mapM hsel (h k List.mem_cons_self)
    refine ⟨c :: cols, ?_, List.forall_mem_cons.mpr ⟨hc, hmem⟩⟩
    unfold sortCols at hcols ⊢
    rw [List.mapM_cons]
    exact bind_eq_ok.mpr ⟨c, hk, bind_eq_ok.mpr ⟨cols, hcols, rfl⟩⟩

/-- **The records delivered** are the first ones, up to the limit, of a permutation of the child's
records that is sorted by the columns of ORDER BY. -/
theorem sort_delivers (hstd : SortsBy stdSort) (hprev : ScanOrJoin prev)
    {init : σ} (hrows : ∃ st, prev.start init = .ok st ∧ prev.Yields st rows)
    (hnamed : ∀ c ∈ allCols, c.tabName ≠ "")
    (hplan : Planner.generateSortPlan allCols orders = .ok keys)
    (hlisted : List.Forall₂ (fun o k => orderKey allCols prev.cols o = some k) orders listed)
    (hsortable : ∀ k ∈ listed, k.1.col.Sortable)
    (hlimit : limit = -1 ∨ (0 ≤ limit ∧ limit < 2 ^ 31)) :
    ∃ cols, sortCols prev keys = .ok cols ∧
      IsStrictWeakOrder (List UInt8) (fun a b => sortLess cols a b = .ok true) ∧
      ∃ sorted : List (List UInt8), sorted.Perm rows ∧
        sorted.Pairwise (fun a b => lexBy (listed.map keyCompare) b a ≠ .lt) ∧
        ∃ most, ∀ fuel, most ≤ fuel →
          (sort stdSort prev cols limit fuel).run .outOfFuel fuel (SortState.create init) =
            .ok (sorted.take (limited limit rows.length)) := by
  obtain ⟨selCols, again, hsel, rfl, hagain⟩ := generateSortPlan_eq_ok hnamed hplan
  have hfirst := sortCols_listed hprev (mapM_eq_ok.mp hsel) hlisted
  obtain ⟨colsAgain, hsecond, hmem⟩ := sortCols_again hfirst hagain
  have hcols : sortCols prev (selCols ++ again) = .ok (listed ++ colsAgain) := by
    unfold sortCols at hfirst hsecond ⊢
    rw [List.mapM_append]
    exact bind_eq_ok.mpr ⟨listed, hfirst, bind_eq_ok.mpr ⟨colsAgain, hsecond, rfl⟩⟩
  have hall : ∀ k ∈ listed ++ colsAgain, k.1.col.Sortable := fun k hk =>
    (List.mem_append.mp hk).elim (hsortable k) fun hk => hsortable k (hmem k hk)
  -- the second half of the keys changes nothing
  have hlex : lexBy ((listed ++ colsAgain).map keyCompare) = lexBy (listed.map keyCompare) := by
    rw [List.map_append]
    refine lexBy_append fun cmp hcmp => ?_
    obtain ⟨k, hk, rfl⟩ := List.mem_map.mp hcmp
    exact List.mem_map_of_mem (hmem k hk)
  have htrans : TransCmp (lexBy (listed.map keyCompare)) := transCmp_lexBy fun cmp hcmp => by
    obtain ⟨k, -, rfl⟩ := List.mem_map.mp hcmp
    infer_instance
  have hweak : IsStrictWeakOrder (List UInt8) fun a b => lexBy (listed.map keyCompare) a b = .lt :=
    strictWeakOrder_of_transCmp
  have hless : (fun a b => sortLess (listed ++ colsAgain) a b = .ok true) =
      fun a b => lexBy (listed.map keyCompare) a b = .lt := by
    funext a b
    rw [sortLess_eq hall, hlex]
    simp
  obtain ⟨hperm, hsorted⟩ := hstd (fun a b => lexBy (listed.map keyCompare) a b = .lt) rows
    (by simpa using hweak)
  refine ⟨listed ++ colsAgain, hcols, hless ▸ hweak, _, hperm,
    hsorted.imp fun h => of_decide_eq_false h, rows.length + 1, fun fuel hfuel => ?_⟩
  obtain ⟨first, hstart, hyields⟩ := hrows
  obtain ⟨last, hfill⟩ := fill_eq hyields [] (Nat.lt_of_succ_le hfuel)
  rw [List.nil_append] at hfill
  let sorted : SortState σ :=
    ⟨last, stdSort (fun a b => lexBy (listed.map keyCompare) a b = .lt) rows, 0⟩
  have hbegin : (sort stdSort prev (listed ++ colsAgain) limit fuel).start (SortState.create init) =
      .ok sorted := by
    refine bind_eq_ok.mpr ⟨first, hstart, bind_eq_ok.mpr ⟨(last, rows), hfill, ?_⟩⟩
    refine bind_eq_ok.mpr ⟨_, sortRecords_eq hall rows, ?_⟩
    rw [hlex]
    rfl
  have hrun : (sort stdSort prev (listed ++ colsAgain) limit fuel).Yields sorted
      ((sorted.allRecord.take (limited limit sorted.allRecord.length)).drop 0) :=
    sort_yields hlimit (Nat.zero_le _) fuel
  rw [List.drop_zero, hperm.length_eq] at hrun
  unfold Traversal.run
  rw [hbegin]
  refine hrun.collect _ ?_
  rw [List.length_take, hperm.length_eq]
  omega

/-- Two tables with one INT column each, joined and sorted by `t.a`, the first one of the records. -/
theorem sort_delivers_two_tables :
    let t := ofRows [[1, 0, 0, 0], [2, 0, 0, 0]]
      [⟨"t", { name := "a", type := .int, len := 4, offset := 0 }⟩] 4
    let u := ofRows [[3, 0, 0, 0]] [⟨"u", { name := "b", type := .int, len := 4, offset := 0 }⟩] 4
    let prev := blockNestedLoopJoin t u [] 9
    let key : ExecCol × Bool := (⟨"t", { name := "a", type := .int, len := 4, offset := 0 }⟩, true)
    let rows : List (List UInt8) := [[1, 0, 0, 0, 3, 0, 0, 0], [2, 0, 0, 0, 3, 0, 0, 0]]
    let stdSort := fun (lt : List UInt8 → List UInt8 → Bool) (l : List (List UInt8)) =>
      l.mergeSort fun a b => !lt b a
    ∃ cols, sortCols prev [(⟨"t", "a"⟩, true), (⟨"t", "a"⟩, true)] = .ok cols ∧
      IsStrictWeakOrder (List UInt8) (fun a b => sortLess cols a b = .ok true) ∧
      ∃ sorted : List (List UInt8), sorted.Perm rows ∧
        sorted.Pairwise (fun a b => lexBy ([key].map keyCompare) b a ≠ .lt) ∧
        ∃ most, ∀ fuel, most ≤ fuel →
          (sort stdSort prev cols 1 fuel).run .outOfFuel fuel
              (SortState.create (JoinState.create [] [])) =
            .ok (sorted.take (limited 1 rows.length)) := by
  intro t u prev key rows stdSort
  have hpairs : prev.Restarts (((blockLoop maxBufferSize [[1, 0, 0, 0], [2, 0, 0, 0]]
      [[3, 0, 0, 0]]).filter (pairMatches t u [])).map (pairRow t u)) :=
    join_restarts (fun _ hc => absurd hc List.not_mem_nil) (ofRows_restarts _ _ _)
      (List.cons_ne_nil _ _) (ofRows_restarts _ _ _) (List.cons_ne_nil _ _) (by decide)
  have hrows : prev.Restarts rows := by
    rw [blockLoop_of_ne_nil (by decide) (List.cons_ne_nil _ _),
      List.drop_eq_nil_of_le (by decide), blockLoop_nil] at hpairs
    exact hpairs
  have hplan : Planner.generateSortPlan [⟨"t", "a"⟩, ⟨"u", "b"⟩] [⟨"", "a", true⟩] =
      .ok [(⟨"t", "a"⟩, true), (⟨"t", "a"⟩, true)] := by decide
  exact sort_delivers sortsBy_mergeSort (.join t u [] 9) (hrows _) (by decide) hplan (.cons rfl .nil)
    (by intro k hk; cases List.mem_singleton.mp hk; exact ⟨rfl, by decide⟩) (.inr (by decide))

end Rmdb
