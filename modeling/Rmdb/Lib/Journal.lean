import Mathlib.Data.List.Basic
import Mathlib.Logic.Function.Basic
import Rmdb.Lib.Transition

namespace Rmdb.Lib

/-!
# A journal of changes, undone first entry first

A journal tells of changes of a map, with the value before and the value after each of them.  To undo it
from its last entry to its first one gives the map at the start; here it is undone from the first one on.

* `JournalEntry` — an insertion, a removal or an overwriting of the value at a key;
* `journal` — the maps that a journal leads from and to;
* `undoInOrder` — each entry undone, the first one first;
* `undoInOrder_iff` — this gives the map at the start just if, at each key, the last insertion or removal,
  or else the last overwriting, has the value that was there at the start.
-/

variable {κ ν : Type*}

/-- A change of the value at a key. -/
structure JournalEntry (κ ν : Type*) where
  key : κ
  before : Option ν
  after : Option ν

namespace JournalEntry

/-- A value in the place of another one. -/
def overwrites (e : JournalEntry κ ν) : Bool := e.before.isSome && e.after.isSome

/-- The value after the entry has been undone: what was inserted goes, what was removed comes back, and
what was overwritten comes back if there is a value. -/
def undone (e : JournalEntry κ ν) (current : Option ν) : Option ν :=
  if e.overwrites then current.bind fun _ => e.before else e.before

end JournalEntry

section Decisive

variable (own : List (JournalEntry κ ν))

/-- The last insertion or removal. -/
def lastTurn : Option (JournalEntry κ ν) := (own.filter fun e => !e.overwrites).getLast?

/-- The entry that decides what is there after the undo. -/
def decisive : Option (JournalEntry κ ν) := (lastTurn own).or own.getLast?

/-- The entries of one key, undone from a value. -/
def undoneFrom (w : Option ν) : Option ν := own.foldl (fun w e => e.undone w) w

variable {own}

theorem overwrites_of_lastTurn (h : lastTurn own = none) : ∀ e ∈ own, e.overwrites = true := by
  intro e he
  have hnot := List.filter_eq_nil_iff.mp (List.getLast?_eq_none_iff.mp h) e he
  simpa using hnot

end Decisive

/-- What is known of the entries of a key in a journal. -/
structure AtKey (x y : Option ν) (own : List (JournalEntry κ ν)) : Prop where
  /-- Without entries the value stays. -/
  stays : own = [] → y = x
  last : ∀ e ∈ own.getLast?, y = e.after
  /-- A value that is there has been inserted, if the key has been inserted or removed at all. -/
  inserted : ∀ e ∈ lastTurn own, y.isSome = true → e.before = none
  undone : ∀ w, undoneFrom own w = match lastTurn own with
    | some e => e.before
    | none => match own.getLast? with
      | some e => w.bind fun _ => e.before
      | none => w

/-- One more entry. -/
theorem AtKey.snoc {x y : Option ν} {own : List (JournalEntry κ ν)} (h : AtKey x y own)
    {e : JournalEntry κ ν} (hy : y = e.before) : AtKey x e.after (own ++ [e]) := by
  have hfold : ∀ w, undoneFrom (own ++ [e]) w = e.undone (undoneFrom own w) := fun w => by
    unfold undoneFrom
    rw [List.foldl_append]
    rfl
  have hturn : lastTurn (own ++ [e]) = if e.overwrites then lastTurn own else some e := by
    unfold lastTurn
    rw [List.filter_append, List.filter_singleton]
    cases e.overwrites <;> simp
  refine ⟨fun hnil => absurd hnil (by simp), fun e' he' => ?_, fun e' he' hsome => ?_, fun w => ?_⟩
  · rw [List.getLast?_concat] at he'
    exact Option.some.inj he' ▸ rfl
  · rw [hturn] at he'
    split at he'
    · rename_i hover
      unfold JournalEntry.overwrites at hover
      rw [Bool.and_eq_true, ← hy] at hover
      exact h.inserted e' he' hover.1
    · rename_i hover
      obtain rfl := Option.some.inj he'
      unfold JournalEntry.overwrites at hover
      rw [hsome, Bool.and_true, Bool.not_eq_true, Option.isSome_eq_false_iff, Option.isNone_iff_eq_none]
        at hover
      exact hover
  · rw [hfold, hturn, List.getLast?_concat, h.undone w]
    unfold JournalEntry.undone
    by_cases hover : e.overwrites = true
    case neg =>
      rw [if_neg hover, if_neg hover]
    rw [if_pos hover, if_pos hover]
    unfold JournalEntry.overwrites at hover
    rw [Bool.and_eq_true, ← hy] at hover
    cases hlast : lastTurn own with
    | some d =>
      -- the value was inserted, so the undo has removed it
      dsimp only
      rw [h.inserted d hlast hover.1]
      rfl
    | none =>
      cases hd : own.getLast? with
      | none => rfl
      | some d =>
        -- all the entries so far overwrite
        have hall := overwrites_of_lastTurn hlast d (List.mem_of_getLast? hd)
        unfold JournalEntry.overwrites at hall
        rw [Bool.and_eq_true] at hall
        obtain ⟨v, hv⟩ := Option.isSome_iff_exists.mp hall.1
        dsimp only
        rw [hv, Option.bind_assoc]
        rfl

/-- What the undo leaves at a key is what the entry that decides has found there. -/
theorem AtKey.undone_eq {x y : Option ν} {own : List (JournalEntry κ ν)} (h : AtKey x y own) :
    undoneFrom own y = ((decisive own).map (·.before)).getD x := by
  rw [h.undone]
  unfold decisive
  cases hturn : lastTurn own with
  | some e => rfl
  | none =>
    cases hlast : own.getLast? with
    | none => exact h.stays (List.getLast?_eq_none_iff.mp hlast)
    | some e =>
      have hover := overwrites_of_lastTurn hturn e (List.mem_of_getLast? hlast)
      unfold JournalEntry.overwrites at hover
      rw [Bool.and_eq_true, ← h.last e hlast] at hover
      obtain ⟨v, hv⟩ := Option.isSome_iff_exists.mp hover.2
      rw [hv]
      rfl

/-! ### Maps -/

variable [DecidableEq κ] {m m' : κ → Option ν} {es : List (JournalEntry κ ν)}

/-- The entries of a key. -/
def entriesAt (k : κ) (es : List (JournalEntry κ ν)) : List (JournalEntry κ ν) :=
  es.filter fun e => e.key = k

/-- **A journal**: each entry has the value that it finds and the value that it leaves. -/
def journal (κ ν : Type*) [DecidableEq κ] : TransitionSystem (κ → Option ν) (JournalEntry κ ν) where
  init _ := True
  step m e m' := m e.key = e.before ∧ m' = Function.update m e.key e.after

/-- Each entry undone, the first one first. -/
def undoInOrder (m : κ → Option ν) (es : List (JournalEntry κ ν)) : κ → Option ν :=
  es.foldl (fun m e => Function.update m e.key (e.undone (m e.key))) m

/-- What becomes of a key depends on its entries. -/
theorem undoInOrder_apply (m : κ → Option ν) (es : List (JournalEntry κ ν)) (k : κ) :
    undoInOrder m es k = undoneFrom (entriesAt k es) (m k) := by
  induction es generalizing m with
  | nil => rfl
  | cons e es ih =>
    unfold undoInOrder at ih ⊢
    rw [List.foldl_cons, ih]
    unfold entriesAt undoneFrom
    by_cases hk : e.key = k
    · subst hk
      rw [Function.update_self, List.filter_cons_of_pos (by simp)]
      rfl
    · rw [Function.update_of_ne (Ne.symm hk), List.filter_cons_of_neg (by simpa using hk)]

theorem entriesAt_snoc (k : κ) (es : List (JournalEntry κ ν)) (e : JournalEntry κ ν) :
    entriesAt k (es ++ [e]) = if e.key = k then entriesAt k es ++ [e] else entriesAt k es := by
  unfold entriesAt
  rw [List.filter_append, List.filter_singleton]
  by_cases hk : e.key = k <;> simp [hk]

/-- **What the entries of a key say** in a journal. -/
theorem atKey {m m' : κ → Option ν} {es : List (JournalEntry κ ν)} (h : (journal κ ν).Run m es m')
    (k : κ) : AtKey (m k) (m' k) (entriesAt k es) := by
  induction h with
  | nil => exact ⟨fun _ => rfl, nofun, nofun, fun _ => rfl⟩
  | @snoc m₁ m' es e _ hstep ih =>
    obtain ⟨hbefore, rfl⟩ := hstep
    rw [entriesAt_snoc]
    by_cases hk : e.key = k
    · subst hk
      rw [if_pos rfl, Function.update_self]
      exact ih.snoc hbefore
    · rw [if_neg hk, Function.update_of_ne (Ne.symm hk)]
      exact ih

/-- **When the undo gives the map at the start**: at each key, the entry that decides has found the value
that was there at the start. -/
theorem undoInOrder_iff (h : (journal κ ν).Run m es m') :
    undoInOrder m' es = m ↔ ∀ k, ∀ e ∈ decisive (entriesAt k es), e.before = m k := by
  rw [funext_iff]
  refine forall_congr' fun k => ?_
  rw [undoInOrder_apply, (atKey h k).undone_eq]
  cases decisive (entriesAt k es) with
  | none => exact iff_of_true rfl nofun
  | some e => exact ⟨fun heq _ he => Option.some.inj he ▸ heq, fun hall => hall e rfl⟩

end Rmdb.Lib
