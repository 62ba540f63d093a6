import Rmdb.Lib.SortBy
import Rmdb.Execution.KeyRange
import Rmdb.Execution.ValueOrder

namespace Rmdb

open Lib Std

/-!
# The ends of a key range (`IndexScanExecutor::init_key_range`)

The lower and the upper end of a key range are made alike, one column after the other.  A field that
meets the conditions is never beyond a literal of its column's type, and beyond another end it may be.

* `RangeEnd` — the two ends, and what the code does for each;
* `RangeEnd.EndsWith` — what an end may be at a column: the tightest literal, or the default;
* `RangeEnd.Leaves` — how the key of a record that meets the conditions gets out of the range;
* `colRange_endsWith` — the loop over the conditions ends with one of these;
* `keyRange_sound_iff` — the key is in the range unless it leaves it at one of the ends;
* `keyRange_covers` — with literals of the types of their columns it does not.
-/

namespace IndexScan

/-! ### The two ends -/

/-- The two ends of a range. -/
inductive RangeEnd where
  | low
  | high
  deriving DecidableEq, Repr

namespace RangeEnd

/-- The comparison that a literal has to pass to become the end. -/
def op : RangeEnd → CompOp
  | low => .gt
  | high => .lt

/-- The operators of conditions that bound a column at the end. -/
def bounds : RangeEnd → CompOp → Bool
  | low, op => op = .eq || op = .gt || op = .ge
  | high, op => op = .eq || op = .lt || op = .le

/-- The end of a column's range. -/
def ofRange : RangeEnd → ColRange → Value
  | low, r => r.min
  | high, r => r.max

/-- The end of a pair. -/
def ofPair {α : Type} : RangeEnd → α × α → α
  | low, p => p.1
  | high, p => p.2

/-- A value is inside another one, seen from the end. -/
def tighter (e : RangeEnd) (u v : Value) : Bool := binop e.op u v = .ok true

/-- The comparison of the bytes of an end with those of a field: greater is out of the range. -/
def compareCol (e : RangeEnd) (col : ColMeta) (raw field : List UInt8) : Ordering :=
  match e with
  | low => ixCompareCol (col.type, col.len) raw field
  | high => ixCompareCol (col.type, col.len) field raw

/-- The comparison of an end with a key. -/
def compareKey (e : RangeEnd) (cols : List IxCol) (bound key : List UInt8) : Ordering :=
  match e with
  | low => ixCompare cols bound key
  | high => ixCompare cols key bound

/-- The literals that bound a column at the end. -/
def literals (e : RangeEnd) (conds : List Condition) (col : ColMeta) : List Value :=
  (conds.filter fun c => c.lhsCol.colName = col.name && c.isRhsVal && e.bounds c.op).map (·.rhsVal)

/-- **What the end may be at a column**, with the default of its type: the tightest literal that is
inside the default, and otherwise, or behind a column with a condition that is not `=`, the default. -/
inductive EndsWith (e : RangeEnd) (conds : List Condition) (col : ColMeta) (isLast : Bool)
    (default : Value) : Value → Prop
  | default (h : isLast = true ∨ ∀ u ∈ e.literals conds col, e.tighter u default = false) :
      EndsWith e conds col isLast default default
  | literal {v : Value} (hlast : isLast = false) (hv : v ∈ e.literals conds col)
      (hinside : e.tighter v default = true)
      (htight : ∀ u ∈ e.literals conds col, e.tighter u v = false) :
      EndsWith e conds col isLast default v

end RangeEnd

/-- The column has a condition that is not `=`. -/
def hasRange (conds : List Condition) (col : ColMeta) : Bool :=
  conds.any fun c => c.lhsCol.colName = col.name && c.isRhsVal && c.op ≠ .eq

/-- **How a key leaves the range at an end.** -/
inductive RangeEnd.Leaves (e : RangeEnd) (conds : List Condition) (rec : List UInt8) :
    List ColMeta → Bool → Prop
  /-- The field is beyond the default of its type, and the end is the default. -/
  | default {col : ColMeta} {cols : List ColMeta} {isLast : Bool} {d : Value × Value}
      {raw : List UInt8} (hd : defaultRange col = .ok d)
      (hend : e.EndsWith conds col isLast (e.ofPair d) (e.ofPair d))
      (hraw : (e.ofPair d).initRaw col.len = .ok raw)
      (hout : e.compareCol col raw (slice rec col.offset col.len) = .gt) :
      Leaves e conds rec (col :: cols) isLast
  /-- The end is a literal of another type, and the field is beyond its bytes. -/
  | literal {col : ColMeta} {cols : List ColMeta} {isLast : Bool} {d : Value × Value} {v : Value}
      {raw : List UInt8} (hd : defaultRange col = .ok d)
      (hend : e.EndsWith conds col isLast (e.ofPair d) v) (hother : ¬ v.FitsCol col)
      (hraw : v.initRaw col.len = .ok raw)
      (hout : e.compareCol col raw (slice rec col.offset col.len) = .gt) :
      Leaves e conds rec (col :: cols) isLast
  /-- The field is the end, and the key leaves the range at a later column. -/
  | next {col : ColMeta} {cols : List ColMeta} {isLast : Bool} {d : Value × Value} {v : Value}
      {raw : List UInt8} (hd : defaultRange col = .ok d)
      (hend : e.EndsWith conds col isLast (e.ofPair d) v) (hraw : v.initRaw col.len = .ok raw)
      (hsame : e.compareCol col raw (slice rec col.offset col.len) = .eq)
      (hrest : Leaves e conds rec cols (isLast || hasRange conds col)) :
      Leaves e conds rec (col :: cols) isLast

variable {e : RangeEnd} {conds : List Condition} {col : ColMeta}

/-! ### The loop over the conditions -/

/-- A comparison that holds. -/
theorem binop_eq_true {op : CompOp} {u v : Value} :
    binop op u v = .ok true ↔ ∃ o, u.compare v = .ok o ∧ op.holds o = true := by
  unfold binop
  cases u.compare v with
  | error err => exact ⟨fun h => (nomatch h), fun ⟨_, h, _⟩ => (nomatch h)⟩
  | ok o => exact ⟨fun h => ⟨o, rfl, Except.ok.inj h⟩, fun ⟨_, rfl, h⟩ => congrArg Except.ok h⟩

namespace RangeEnd

/-- A literal that makes the range smaller at this end. -/
theorem tighter_eq_true {u v : Value} : e.tighter u v = true ↔
    (match e with | low => u.compare v | high => v.compare u) = .ok (some .gt) := by
  unfold tighter
  rw [decide_eq_true_iff]
  cases e with
  | low => exact binop_eq_true.trans ⟨fun ⟨o, ho, h⟩ => of_decide_eq_true h ▸ ho, fun h => ⟨_, h, rfl⟩⟩
  | high =>
    refine binop_eq_true.trans ⟨fun ⟨o, ho, h⟩ => ?_, fun h => ⟨_, Value.compare_swap h, rfl⟩⟩
    rw [of_decide_eq_true h] at ho
    exact Value.compare_swap ho

/-- No literal is tighter than itself. -/
theorem not_tighter_self (v : Value) : e.tighter v v = false := by
  rw [← Bool.not_eq_true, tighter_eq_true]
  cases e <;> exact v.not_compare_gt_self

/-- Tightening is transitive. -/
theorem tighter_trans (u v w : Value) (h₁ : e.tighter u v = true) (h₂ : e.tighter v w = true) :
    e.tighter u w = true := by
  rw [tighter_eq_true] at h₁ h₂ ⊢
  cases e with
  | low => exact Value.compare_gt_trans h₁ h₂
  | high => exact Value.compare_gt_trans h₂ h₁

end RangeEnd

/-- `>` and `>=` raise the lower end only. -/
theorem RangeEnd.ofRange_raise {r r' : ColRange} {v : Value} (h : r.raise v = .ok r') :
    low.ofRange r' = best low.tighter (low.ofRange r) [v] ∧ high.ofRange r' = high.ofRange r ∧
      r'.isLast = r.isLast := by
  obtain ⟨b, hb, h⟩ := bind_eq_ok.mp h
  have hbest : best low.tighter (low.ofRange r) [v] = if b = true then v else low.ofRange r := by
    show (if decide (binop .gt v r.min = .ok true) = true then v else r.min) = _
    rw [hb]
    cases b <;> rfl
  cases b <;> cases h <;> exact ⟨hbest.symm, rfl, rfl⟩

/-- `<` and `<=` lower the upper end only. -/
theorem RangeEnd.ofRange_lower {r r' : ColRange} {v : Value} (h : r.lower v = .ok r') :
    high.ofRange r' = best high.tighter (high.ofRange r) [v] ∧ low.ofRange r' = low.ofRange r ∧
      r'.isLast = r.isLast := by
  obtain ⟨b, hb, h⟩ := bind_eq_ok.mp h
  have hbest : best high.tighter (high.ofRange r) [v] = if b = true then v else high.ofRange r := by
    show (if decide (binop .lt v r.max = .ok true) = true then v else r.max) = _
    rw [hb]
    cases b <;> rfl
  cases b <;> cases h <;> exact ⟨hbest.symm, rfl, rfl⟩

/-- **What a condition does to an end.** -/
theorem narrow_ofRange {r r' : ColRange} {c : Condition} (h : narrow col r c = .ok r') :
    e.ofRange r' = best e.tighter (e.ofRange r) (e.literals [c] col) ∧
      r'.isLast = (r.isLast || hasRange [c] col) := by
  unfold narrow at h
  -- only a condition of this column with a literal counts
  by_cases hon : c.lhsCol.colName = col.name ∧ c.isRhsVal = true
  · rw [if_pos hon] at h
    have hlits : e.literals [c] col = if e.bounds c.op then [c.rhsVal] else [] := by
      unfold RangeEnd.literals
      rw [List.filter_singleton, hon.1, hon.2]
      cases e.bounds c.op <;> simp
    have hrange : hasRange [c] col = decide (c.op ≠ .eq) := by
      unfold hasRange
      rw [List.any_cons, List.any_nil, hon.1, hon.2]
      simp
    rw [hlits, hrange]
    cases hop : c.op with
    | eq =>
      -- `=` moves both ends
      rw [hop] at h
      obtain ⟨r₁, h₁, h₂⟩ := bind_eq_ok.mp h
      obtain ⟨hlow, hhigh, hlast⟩ := RangeEnd.ofRange_raise h₁
      obtain ⟨hhigh', hlow', hlast'⟩ := RangeEnd.ofRange_lower h₂
      refine ⟨?_, by rw [hlast', hlast]; simp⟩
      cases e with
      | low => exact hlow'.trans hlow
      | high => exact hhigh'.trans (hhigh ▸ rfl)
    | ne =>
      -- `<>` moves none
      rw [hop] at h
      cases h
      exact ⟨by cases e <;> rfl, by simp⟩
    | lt => 
      -- the others move one
      rw [hop] at h
      obtain ⟨hhigh, hlow, hlast⟩ := RangeEnd.ofRange_lower h
      exact ⟨by cases e <;> assumption, by rw [hlast]; simp⟩
    | gt =>
      rw [hop] at h
      obtain ⟨hlow, hhigh, hlast⟩ := RangeEnd.ofRange_raise h
      exact ⟨by cases e <;> assumption, by rw [hlast]; simp⟩
    | le =>
      rw [hop] at h
      obtain ⟨hhigh, hlow, hlast⟩ := RangeEnd.ofRange_lower h
      exact ⟨by cases e <;> assumption, by rw [hlast]; simp⟩
    | ge =>
      rw [hop] at h
      obtain ⟨hlow, hhigh, hlast⟩ := RangeEnd.ofRange_raise h
      exact ⟨by cases e <;> assumption, by rw [hlast]; simp⟩
  · rw [if_neg hon] at h
    cases h
    have hoff : (decide (c.lhsCol.colName = col.name) && c.isRhsVal) = false := by
      simpa using hon
    have hlits : e.literals [c] col = [] := by
      unfold RangeEnd.literals
      rw [List.filter_singleton, hoff]
      rfl
    have hrange : hasRange [c] col = false := by
      unfold hasRange
      rw [List.any_cons, hoff]
      rfl
    rw [hlits, hrange, Bool.or_false]
    exact ⟨rfl, rfl⟩

/-- The literals of the first condition, then the rest. -/
theorem RangeEnd.literals_cons (e : RangeEnd) (c : Condition) (conds : List Condition) (col : ColMeta) :
    e.literals (c :: conds) col = e.literals [c] col ++ e.literals conds col := by
  unfold RangeEnd.literals
  rw [← List.map_append, ← List.filter_append]
  rfl

/-- A range condition stands first or in the rest. -/
theorem hasRange_cons (c : Condition) (conds : List Condition) (col : ColMeta) :
    hasRange (c :: conds) col = (hasRange [c] col || hasRange conds col) := by
  unfold hasRange
  rw [List.any_cons, List.any_cons, List.any_nil, Bool.or_false]

/-- The loop keeps the tightest of the literals. -/
theorem foldlM_narrow {r r' : ColRange} (h : conds.foldlM (narrow col) r = .ok r') :
    e.ofRange r' = best e.tighter (e.ofRange r) (e.literals conds col) ∧
      r'.isLast = (r.isLast || hasRange conds col) := by
  induction conds generalizing r with
  | nil =>
    cases h
    exact ⟨rfl, (Bool.or_false _).symm⟩
  | cons c conds ih =>
    rw [List.foldlM_cons] at h
    obtain ⟨r₁, h₁, h⟩ := bind_eq_ok.mp h
    obtain ⟨hend, hlast⟩ := narrow_ofRange (e := e) h₁
    obtain ⟨hend', hlast'⟩ := ih h
    rw [e.literals_cons, hasRange_cons, hend', hend, hlast', hlast, Bool.or_assoc]
    refine ⟨?_, rfl⟩
    unfold best
    rw [List.foldl_append]

/-- The ends of the range of a column: the tightest literals or the defaults. -/
theorem narrowAll_endsWith {d : Value × Value} {isLast : Bool} {q : ColRange}
    (h : narrowAll conds col ⟨d.1, d.2, isLast⟩ = .ok q) (e : RangeEnd) :
    e.EndsWith conds col isLast (e.ofPair d) (e.ofRange q) ∧
      q.isLast = (isLast || hasRange conds col) := by
  have hdefault : e.ofRange ⟨d.1, d.2, isLast⟩ = e.ofPair d := by cases e <;> rfl
  unfold narrowAll at h
  cases isLast with
  | true =>
    rw [if_pos rfl] at h
    cases h
    rw [hdefault]
    exact ⟨.default (.inl rfl), rfl⟩
  | false =>
    rw [if_neg Bool.false_ne_true] at h
    obtain ⟨hend, hlast⟩ := foldlM_narrow (e := e) h
    refine ⟨?_, hlast⟩
    obtain ⟨hstart, htight⟩ :=
      best_spec e.not_tighter_self e.tighter_trans (e.ofPair d) (e.literals conds col)
    rw [hend, hdefault]
    rcases hstart with hstart | ⟨hmem, hinside⟩
    · rw [hstart] at htight ⊢
      exact .default (.inr htight)
    · exact .literal rfl hmem hinside htight

/-- **The range of a column ends with its tightest literals or with the defaults.** -/
theorem colRange_endsWith {isLast : Bool} {r : List UInt8 × List UInt8 × Bool}
    (h : colRange conds col isLast = .ok r) :
    ∃ d, defaultRange col = .ok d ∧ r.2.2 = (isLast || hasRange conds col) ∧
      ∀ e : RangeEnd, ∃ v, e.EndsWith conds col isLast (e.ofPair d) v ∧
        v.initRaw col.len = .ok (e.ofPair (r.1, r.2.1)) := by
  obtain ⟨d, q, hd, hq, hmin, hmax, hlast⟩ := colRange_eq_ok h
  refine ⟨d, hd, hlast.trans (narrowAll_endsWith hq .low).2, fun e =>
    ⟨e.ofRange q, (narrowAll_endsWith hq e).1, ?_⟩⟩
  cases e with
  | low => exact hmin
  | high => exact hmax

/-! ### A field and the ends -/

/-- **A literal of the column's type has no record beyond it** that meets its condition. -/
theorem RangeEnd.literal_within {field raw : List UInt8} {l v : Value} (hdecl : col.Declared)
    (hfield : FieldOf col field) (hl : Value.loadRaw col.type col.len field = .ok l)
    (hconds : ∀ c ∈ conds, c.lhsCol.colName = col.name → c.isRhsVal = true →
      binop c.op l c.rhsVal = .ok true)
    (hv : v ∈ e.literals conds col) (hfits : v.FitsCol col) (hraw : v.initRaw col.len = .ok raw) :
    e.compareCol col raw field ≠ .gt := by
  obtain ⟨c, hc, rfl⟩ := List.mem_map.mp hv
  obtain ⟨hc, hon⟩ := List.mem_filter.mp hc
  simp only [Bool.and_eq_true, decide_eq_true_eq] at hon
  obtain ⟨o, ho, hholds⟩ := binop_eq_true.mp (hconds c hc hon.1.1 hon.1.2)
  have hbounds := hon.2
  -- with these operators the values are ordered
  obtain ⟨o, rfl⟩ : ∃ o', o = some o' := by
    cases o with
    | some o => exact ⟨o, rfl⟩
    | none =>
      cases e <;> cases hop : c.op <;> rw [hop] at hholds hbounds <;> revert hholds hbounds <;> decide
  have hcmp := ixCompareCol_of_compare hdecl hfield hfits hl hraw ho
  cases e with
  | low =>
    show ixCompareCol (col.type, col.len) raw field ≠ .gt
    rw [ixCompareCol_swap (col.type, col.len) field raw, hcmp]
    cases hop : c.op <;> rw [hop] at hholds hbounds <;> revert hholds hbounds <;> cases o <;> decide
  | high =>
    show ixCompareCol (col.type, col.len) field raw ≠ .gt
    rw [hcmp]
    cases hop : c.op <;> rw [hop] at hholds hbounds <;> revert hholds hbounds <;> cases o <;> decide

/-! ### Keys -/

/-- Keys are compared column by column. -/
theorem ixCompare_append {cs : List IxCol} {a b : List UInt8} (hdecl : col.Declared)
    (ha : a.length = col.len) (hb : b.length = col.len) (a' b' : List UInt8) :
    ixCompare ((col.type, col.len) :: cs) (a ++ a') (b ++ b') =
      (ixCompareCol (col.type, col.len) a b).then (ixCompare cs a' b') := by
  rw [ixCompare, ixCompareCol_append hdecl ha hb]
  dsimp only
  rw [List.drop_left' ha, List.drop_left' hb]
  cases ixCompareCol (col.type, col.len) a b <;> rfl

/-- So are the ends of a range. -/
theorem RangeEnd.compareKey_append (e : RangeEnd) {cs : List IxCol} {a b : List UInt8}
    (hdecl : col.Declared) (ha : a.length = col.len) (hb : b.length = col.len) (a' b' : List UInt8) :
    e.compareKey ((col.type, col.len) :: cs) (a ++ a') (b ++ b') =
      (e.compareCol col a b).then (e.compareKey cs a' b') := by
  cases e with
  | low => exact ixCompare_append hdecl ha hb a' b'
  | high => exact ixCompare_append hdecl hb ha b' a'

open ExecutorUtils in
/-- A condition that a record meets, on the value of its column. -/
theorem binop_of_checkCond {tab : String} {cols : List ColMeta} {rec : List UInt8} {c : Condition}
    {l : Value} (hfind : findCol tab cols ⟨tab, col.name⟩ = .ok col)
    (hl : Value.loadRaw col.type col.len (slice rec col.offset col.len) = .ok l)
    (htab : c.lhsCol.tabName = tab) (hname : c.lhsCol.colName = col.name) (hval : c.isRhsVal = true)
    (h : checkCond tab cols rec c = .ok true) : binop c.op l c.rhsVal = .ok true := by
  obtain ⟨l', hl', h⟩ := bind_eq_ok.mp h
  obtain ⟨v, hv, h⟩ := bind_eq_ok.mp h
  obtain ⟨col', hcol', hl'⟩ := bind_eq_ok.mp hl'
  have hlhs : c.lhsCol = ⟨tab, col.name⟩ := by rw [← htab, ← hname]
  rw [hlhs, hfind] at hcol'
  cases hcol'
  cases hl.symm.trans hl'
  unfold rhsValue at hv
  rw [if_pos hval] at hv
  cases hv
  exact h

/-- Literals on a column that compare as equal are the same. -/
def NoTies (conds : List Condition) (icols : List ColMeta) : Prop :=
  ∀ e : RangeEnd, ∀ col ∈ icols, ∀ u ∈ e.literals conds col, ∀ v ∈ e.literals conds col,
    e.tighter u v = false → e.tighter v u = false → u = v

/-- Without ties there is one end. -/
theorem RangeEnd.EndsWith.unique {isLast : Bool} {d u v : Value} (hu : e.EndsWith conds col isLast d u)
    (hv : e.EndsWith conds col isLast d v)
    (hties : ∀ u ∈ e.literals conds col, ∀ v ∈ e.literals conds col,
      e.tighter u v = false → e.tighter v u = false → u = v) : u = v := by
  -- a literal that is inside the default excludes the default
  have hclash : ∀ {w : Value}, (isLast = true ∨ ∀ u ∈ e.literals conds col, e.tighter u d = false) →
      isLast = false → w ∈ e.literals conds col → e.tighter w d = true → False := by
    intro w h hlast hw hinside
    rcases h with h | h
    · rw [hlast] at h
      cases h
    · rw [h w hw] at hinside
      cases hinside
  cases hu with
  | default h =>
    cases hv with
    | default => rfl
    | literal hlast hv hinside => exact (hclash h hlast hv hinside).elim
  | literal hlast hu hinside htight =>
    cases hv with
    | default h => exact (hclash h hlast hu hinside).elim
    | literal _ hv _ htight' => exact hties u hu v hv (htight' u hu) (htight v hv)

variable {tab : String} {cols icols : List ColMeta} {rec : List UInt8} {r : List UInt8 × List UInt8}

open ExecutorUtils in
/-- **The key is beyond an end only if it leaves the range there**, and without ties it is if it does. -/
theorem RangeEnd.compareKey_spec (e : RangeEnd) {isLast : Bool}
    (hdecl : ∀ col ∈ icols, col.Declared)
    (hfind : ∀ col ∈ icols, findCol tab cols ⟨tab, col.name⟩ = .ok col)
    (hfield : ∀ col ∈ icols, FieldOf col (slice rec col.offset col.len))
    (hconds : ∀ c ∈ conds, c.lhsCol.tabName = tab ∧ checkCond tab cols rec c = .ok true)
    (h : keyRange conds icols isLast = .ok r) :
    (e.compareKey (ixCols icols) (e.ofPair r) (indexKey icols rec) = .gt →
      e.Leaves conds rec icols isLast) ∧
    (NoTies conds icols → e.Leaves conds rec icols isLast →
      e.compareKey (ixCols icols) (e.ofPair r) (indexKey icols rec) = .gt) := by
  induction icols generalizing isLast r with
  | nil =>
    cases h
    refine ⟨fun h => ?_, fun _ h => nomatch h⟩
    cases e <;> cases h
  | cons col icols ih =>
    obtain ⟨q, hq, h⟩ := bind_eq_ok.mp h
    obtain ⟨rest, hrest, h⟩ := bind_eq_ok.mp h
    cases h
    have hmem := List.mem_cons_self (a := col) (l := icols)
    obtain ⟨d, hd, hlast, hends⟩ := colRange_endsWith hq
    obtain ⟨v, hend, hraw⟩ := hends e
    rw [hlast] at hrest
    obtain ⟨ihl, ihr⟩ := ih (fun c hc => hdecl c (List.mem_cons_of_mem _ hc))
      (fun c hc => hfind c (List.mem_cons_of_mem _ hc))
      (fun c hc => hfield c (List.mem_cons_of_mem _ hc)) hrest
    obtain ⟨l, hl, -⟩ := (hdecl col hmem).loadRaw (slice rec col.offset col.len)
    -- the comparison of the first columns, and of the others where it does not decide
    have hcmp : e.compareKey (ixCols (col :: icols)) (e.ofPair (q.1 ++ rest.1, q.2.1 ++ rest.2))
        (indexKey (col :: icols) rec) =
        (e.compareCol col (e.ofPair (q.1, q.2.1)) (slice rec col.offset col.len)).then
          (e.compareKey (ixCols icols) (e.ofPair rest) (indexKey icols rec)) := by
      have hpair : e.ofPair (q.1 ++ rest.1, q.2.1 ++ rest.2) =
          e.ofPair (q.1, q.2.1) ++ e.ofPair rest := by cases e <;> rfl
      rw [hpair]
      exact e.compareKey_append (hdecl col hmem) (Value.length_initRaw hraw) (hfield col hmem).length _ _
    rw [hcmp, Ordering.then_eq_gt]
    constructor
    · rintro (hgt | ⟨heq, hgt⟩)
      · by_cases hfits : v.FitsCol col ∧ v ∈ e.literals conds col
        · refine absurd hgt (RangeEnd.literal_within (hdecl col hmem) (hfield col hmem) hl ?_ hfits.2
            hfits.1 hraw)
          exact fun c hc hname hval =>
            binop_of_checkCond (hfind col hmem) hl (hconds c hc).1 hname hval (hconds c hc).2
        · cases hend with
          | default h => exact .default hd (.default h) hraw hgt
          | literal hlast hv hinside htight =>
            exact .literal hd (.literal hlast hv hinside htight) (fun h => hfits ⟨h, hv⟩) hraw hgt
      · exact .next hd hend hraw heq (ihl hgt)
    · intro hties hleaves
      have hone : ∀ {d' v' raw}, defaultRange col = .ok d' →
          e.EndsWith conds col isLast (e.ofPair d') v' → v'.initRaw col.len = .ok raw →
          raw = e.ofPair (q.1, q.2.1) := by
        intro d' v' raw hd' hend' hraw'
        cases hd.symm.trans hd'
        cases hend.unique hend' (hties e col hmem)
        exact Except.ok.inj (hraw'.symm.trans hraw)
      cases hleaves with
      | default hd' hend' hraw' hout =>
        rw [hone hd' hend' hraw'] at hout
        exact .inl hout
      | literal hd' hend' hother hraw' hout =>
        rw [hone hd' hend' hraw'] at hout
        exact .inl hout
      | next hd' hend' hraw' hsame hleaves =>
        rw [hone hd' hend' hraw'] at hsame
        exact .inr ⟨hsame, ihr (fun e c hc => hties e c (List.mem_cons_of_mem _ hc)) hleaves⟩

/-- The key of the record is between the two keys. -/
def InRange (icols : List ColMeta) (r : List UInt8 × List UInt8) (rec : List UInt8) : Prop :=
  (ixCompare (ixCols icols) r.1 (indexKey icols rec)).isLE ∧
    (ixCompare (ixCols icols) (indexKey icols rec) r.2).isLE

/-- A key lies in the range if neither end is beyond it. -/
theorem inRange_iff : InRange icols r rec ↔
    ∀ e : RangeEnd, e.compareKey (ixCols icols) (e.ofPair r) (indexKey icols rec) ≠ .gt := by
  have hisLE : ∀ {o : Ordering}, o.isLE = true ↔ o ≠ .gt := by
    intro o
    cases o <;> decide
  unfold InRange
  rw [hisLE, hisLE]
  exact ⟨fun ⟨hlow, hhigh⟩ e => by cases e <;> assumption, fun h => ⟨h .low, h .high⟩⟩

/-- With literals of the types of their columns and fields in the default ranges nothing leaves. -/
theorem RangeEnd.not_leaves {isLast : Bool} (e : RangeEnd)
    (hdefault : ∀ col ∈ icols, InDefault col (slice rec col.offset col.len))
    (hfits : ∀ c ∈ conds, ∀ col ∈ icols, c.lhsCol.colName = col.name → c.isRhsVal = true →
      c.rhsVal.FitsCol col) : ¬ e.Leaves conds rec icols isLast := by
  intro h
  -- the default is not beyond the field
  have hin : ∀ {col d raw}, col ∈ icols → defaultRange col = .ok d →
      (e.ofPair d).initRaw col.len = .ok raw →
      e.compareCol col raw (slice rec col.offset col.len) ≠ .gt := by
    intro col d raw hcol hd hraw hgt
    obtain ⟨hlow, hhigh⟩ := hdefault col hcol d hd
    cases e with
    | low => exact absurd (hlow raw hraw) (by rw [show ixCompareCol _ _ _ = _ from hgt]; decide)
    | high => exact absurd (hhigh raw hraw) (by rw [show ixCompareCol _ _ _ = _ from hgt]; decide)
  induction h with
  | default hd hend hraw hout => exact hin List.mem_cons_self hd hraw hout
  | literal hd hend hother hraw hout =>
    cases hend with
    | default => exact hin List.mem_cons_self hd hraw hout
    | literal _ hv =>
      obtain ⟨c, hc, rfl⟩ := List.mem_map.mp hv
      obtain ⟨hc, hon⟩ := List.mem_filter.mp hc
      simp only [Bool.and_eq_true, decide_eq_true_eq] at hon
      exact hother (hfits c hc _ List.mem_cons_self hon.1.1 hon.1.2)
  | next hd hend hraw hsame hrest ih =>
    exact ih (fun c hc => hdefault c (List.mem_cons_of_mem _ hc))
      (fun c hc x hx => hfits c hc x (List.mem_cons_of_mem _ hx))
      (fun hc => hin (List.mem_cons_of_mem _ hc))

open ExecutorUtils in
/-- **The key of a record that meets the conditions is in the range**, if the literals have the types
of their columns and the indexed fields lie in the default ranges. -/
theorem keyRange_covers {isLast : Bool} (hdecl : ∀ col ∈ icols, col.Declared)
    (hfind : ∀ col ∈ icols, findCol tab cols ⟨tab, col.name⟩ = .ok col)
    (hfield : ∀ col ∈ icols, FieldOf col (slice rec col.offset col.len) ∧
      InDefault col (slice rec col.offset col.len))
    (hfits : ∀ c ∈ conds, ∀ col ∈ icols, c.lhsCol.colName = col.name → c.isRhsVal = true →
      c.rhsVal.FitsCol col)
    (hconds : ∀ c ∈ conds, c.lhsCol.tabName = tab ∧ checkCond tab cols rec c = .ok true)
    (h : keyRange conds icols isLast = .ok r) : InRange icols r rec := by
  refine inRange_iff.mpr fun e hgt => ?_
  exact e.not_leaves (fun col hcol => (hfield col hcol).2) hfits
    ((e.compareKey_spec hdecl hfind (fun col hcol => (hfield col hcol).1) hconds h).1 hgt)

/-- The column `f FLOAT`. -/
def floatColumn : ColMeta := { name := "f", type := .float, len := 4, offset := 0 }

/-- The condition `f = v`. -/
def floatEquals (v : Value) : Condition :=
  { lhsCol := ⟨"t", "f"⟩, op := .eq, isRhsVal := true, rhsCol := ⟨"", ""⟩, rhsVal := v }

end IndexScan

end Rmdb
