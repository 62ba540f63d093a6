import Mathlib.Data.List.Basic
import Rmdb.Lib.Cursor

namespace Rmdb.Lib

/-!
# Traversals

A traversal goes through the items of a collection, and can be started again from any state.  Every
operation may fail.

* `Traversal.Yields` — the items from a state to the end;
* `Traversal.Restarts` — starting leads to these items, from any state;
* `Traversal.run` — start, then read items up to the end; `Restarts.run` — what it gives;
* `Traversal.Extends` — a traversal that goes at least as far before it gets stuck;
* `Cursor.traversal` — the traversal that goes through the items of a cursor that pass a test.
-/

/-- A traversal with states `σ` over items `α`. -/
structure Traversal (σ α ε : Type) where
  start : σ → Except ε σ
  next : σ → Except ε σ
  isEnd : σ → Except ε Bool
  item : σ → Except ε α

namespace Traversal

variable {σ α ε : Type} (t : Traversal σ α ε)

/-- The items from this state to the end. -/
inductive Yields : σ → List α → Prop
  | done {st : σ} (hend : t.isEnd st = .ok true) : Yields st []
  | item {st st' : σ} {a : α} {l : List α} (hend : t.isEnd st = .ok false) (hitem : t.item st = .ok a)
      (hnext : t.next st = .ok st') (hrest : Yields st' l) : Yields st (a :: l)

/-- From every state a start leads to the same items. -/
def Restarts (l : List α) : Prop := ∀ st, ∃ st', t.start st = .ok st' ∧ t.Yields st' l

/-- The items read by the loop over a traversal. -/
def collect (stuck : ε) : Nat → σ → Except ε (List α)
  | 0, _ => .error stuck
  | fuel + 1, st => do
    if ← t.isEnd st then return []
    let a ← t.item st
    let st ← t.next st
    let rest ← collect stuck fuel st
    return a :: rest

/-- Start, and read all items. -/
def run (stuck : ε) (fuel : Nat) (st : σ) : Except ε (List α) := do
  let st ← t.start st
  t.collect stuck fuel st

variable {t} {st st' : σ} {l : List α}

/-- The end is there exactly when nothing is left. -/
theorem Yields.isEnd (h : t.Yields st l) : t.isEnd st = .ok l.isEmpty := by
  cases h with
  | done hend => exact hend
  | item hend => exact hend

/-- Enough fuel collects all items. -/
theorem Yields.collect (h : t.Yields st l) (stuck : ε) {fuel : Nat} (hfuel : l.length < fuel) :
    t.collect stuck fuel st = .ok l := by
  induction h generalizing fuel with
  | done hend =>
    obtain ⟨fuel, rfl⟩ : ∃ n, fuel = n + 1 := ⟨fuel - 1, by omega⟩
    rw [Traversal.collect, hend]
    rfl
  | @item st st' a l hend hitem hnext hrest ih =>
    obtain ⟨fuel, rfl⟩ : ∃ n, fuel = n + 1 := ⟨fuel - 1, by omega⟩
    rw [List.length_cons] at hfuel
    rw [Traversal.collect, hend]
    show (t.item st >>= _) = _
    rw [hitem]
    show (t.next st >>= _) = _
    rw [hnext]
    show (t.collect stuck fuel st' >>= _) = _
    rw [ih (by omega)]
    rfl

/-- The loop reads the items, and does so again when it is started again. -/
theorem Restarts.run (h : t.Restarts l) (stuck : ε) {fuel : Nat} (hfuel : l.length < fuel) (st : σ) :
    t.run stuck fuel st = .ok l := by
  obtain ⟨st', hstart, hyields⟩ := h st
  unfold Traversal.run
  rw [hstart]
  exact hyields.collect stuck hfuel

/-! ### Other items -/

/-- The traversal of what is read at the items. -/
def bindItem {β : Type} (t : Traversal σ α ε) (f : α → Except ε β) : Traversal σ β ε :=
  { t with item := fun st => (t.item st).bind f }

/-- A function of the items that succeeds. -/
theorem Yields.bindItem {β : Type} {f : α → Except ε β} {g : α → β} (h : t.Yields st l)
    (hf : ∀ a ∈ l, f a = .ok (g a)) : (t.bindItem f).Yields st (l.map g) := by
  induction h with
  | done hend => exact .done hend
  | @item st st' a l hend hitem hnext hrest ih =>
    refine .item hend ?_ hnext (ih fun x hx => hf x (List.mem_cons_of_mem _ hx))
    show (t.item st).bind f = _
    rw [hitem]
    exact hf a List.mem_cons_self

/-- The same from the beginning. -/
theorem Restarts.bindItem {β : Type} {f : α → Except ε β} {g : α → β} (h : t.Restarts l)
    (hf : ∀ a ∈ l, f a = .ok (g a)) : (t.bindItem f).Restarts (l.map g) := by
  intro st
  obtain ⟨st', hstart, hyields⟩ := h st
  exact ⟨st', hstart, hyields.bindItem hf⟩

/-! ### Traversals that go further -/

/-- `t'` does what `t` does where `t` does not fail. -/
structure Extends (t t' : Traversal σ α ε) : Prop where
  start : ∀ {st st'}, t.start st = .ok st' → t'.start st = .ok st'
  next : ∀ {st st'}, t.next st = .ok st' → t'.next st = .ok st'
  isEnd : ∀ st, t'.isEnd st = t.isEnd st
  item : ∀ st, t'.item st = t.item st

variable {t' : Traversal σ α ε}

/-- The same of a traversal with more fuel. -/
theorem Extends.bindItem {β : Type} (h : t.Extends t') (f : α → Except ε β) :
    (t.bindItem f).Extends (t'.bindItem f) where
  start := h.start
  next := h.next
  isEnd := h.isEnd
  item st := congrArg (Except.bind · f) (h.item st)

/-- More fuel yields the same items. -/
theorem Extends.yields (h : t.Extends t') (hy : t.Yields st l) : t'.Yields st l := by
  induction hy with
  | done hend => exact .done ((h.isEnd _).trans hend)
  | item hend hitem hnext _ ih =>
    exact .item ((h.isEnd _).trans hend) ((h.item _).trans hitem) (h.next hnext) ih

/-- More fuel restarts alike. -/
theorem Extends.restarts (h : t.Extends t') (hr : t.Restarts l) : t'.Restarts l := by
  intro st
  obtain ⟨st', hstart, hyields⟩ := hr st
  exact ⟨st', h.start hstart, h.yields hyields⟩

/-- More fuel collects the same items. -/
theorem Extends.collect (h : t.Extends t') {stuck : ε} {fuel : Nat}
    (hc : t.collect stuck fuel st = .ok l) : t'.collect stuck fuel st = .ok l := by
  induction fuel generalizing st l with
  | zero => cases hc
  | succ fuel ih =>
    rw [Traversal.collect] at hc ⊢
    rw [h.isEnd, h.item]
    obtain ⟨b, hend, hc⟩ := bind_eq_ok.mp hc
    refine bind_eq_ok.mpr ⟨b, hend, ?_⟩
    cases b with
    | true => exact hc
    | false =>
      rw [if_neg Bool.false_ne_true] at hc ⊢
      obtain ⟨a, hitem, hc⟩ := bind_eq_ok.mp hc
      obtain ⟨st₁, hnext, hc⟩ := bind_eq_ok.mp hc
      obtain ⟨rest, hrest, hc⟩ := bind_eq_ok.mp hc
      exact bind_eq_ok.mpr ⟨a, hitem, bind_eq_ok.mpr ⟨st₁, h.next hnext,
        bind_eq_ok.mpr ⟨rest, ih hrest, hc⟩⟩⟩

end Traversal

/-! ### From cursors to traversals -/

namespace Cursor

variable {σ α ε : Type} (c : Cursor σ α ε) (start : Except ε σ) (check : α → Except ε Bool)
  (unset : ε) (fuel : Nat)

/-- The traversal of the items that pass the test.  Before the first start there is no cursor, and
    every operation reports `unset`. -/
def traversal : Traversal (Option σ) α ε where
  start _ := do return some (← c.seek check fuel (← start))
  next
    | none => .error unset
    | some st => do return some (← c.seek check fuel (← c.next st))
  isEnd
    | none => .error unset
    | some st => .ok (c.isEnd st)
  item
    | none => .error unset
    | some st => c.item st

variable {c start check unset fuel} {st : σ} {l : List α} {p : α → Bool}

/-- The items that pass the check. -/
theorem Visits.yields (h : c.Visits st l) (hcheck : ∀ a ∈ l, check a = .ok (p a))
    (hhead : ∀ a ∈ l.head?, p a = true) (hfuel : l.length < fuel) :
    (c.traversal start check unset fuel).Yields (some st) (l.filter p) := by
  induction hn : l.length using Nat.strongRecOn generalizing st l with
  | ind n ih =>
    cases h with
    | done hend => exact .done (congrArg Except.ok hend)
    | @item _ st' a l hend hitem hnext hrest =>
      rw [List.length_cons] at hfuel hn
      obtain ⟨st₁, l₁, hseek, hv, hle, hsub, hfilter, hhead₁⟩ :=
        hrest.seek (fun x hx => hcheck x (List.mem_cons_of_mem _ hx)) (Nat.lt_of_succ_lt hfuel)
      have hrec := ih l₁.length (by omega) hv
        (fun x hx => hcheck x (List.mem_cons_of_mem _ (hsub hx))) hhead₁ (by omega) rfl
      rw [List.filter_cons, hhead a rfl, if_pos rfl, ← hfilter]
      refine .item (congrArg Except.ok hend) hitem ?_ hrec
      show (c.next st >>= _) = _
      rw [hnext]
      show (c.seek check fuel st' >>= _) = _
      rw [hseek]
      rfl

/-- The traversal gives the items that pass the test. -/
theorem Visits.restarts (h : c.Visits st l) (hcheck : ∀ a ∈ l, check a = .ok (p a))
    (hfuel : l.length < fuel) :
    (c.traversal (.ok st) check unset fuel).Restarts (l.filter p) := by
  intro st₀
  obtain ⟨st₁, l₁, hseek, hv, hle, hsub, hfilter, hhead⟩ := h.seek hcheck hfuel
  refine ⟨some st₁, ?_, ?_⟩
  · show (c.seek check fuel st >>= _) = _
    rw [hseek]
    rfl
  · rw [← hfilter]
    exact hv.yields (fun x hx => hcheck x (hsub hx)) hhead (by omega)

/-- More fuel for the search. -/
theorem traversal_extends {fuel' : Nat} (hle : fuel ≤ fuel') :
    (c.traversal start check unset fuel).Extends (c.traversal start check unset fuel') where
  start h := by
    obtain ⟨st, hstart, h⟩ := bind_eq_ok.mp h
    obtain ⟨st₁, hseek, h⟩ := bind_eq_ok.mp h
    exact bind_eq_ok.mpr ⟨st, hstart, bind_eq_ok.mpr ⟨st₁, seek_mono hseek hle, h⟩⟩
  next {st st'} h := by
    cases st with
    | none => cases h
    | some st =>
      obtain ⟨st₁, hnext, h⟩ := bind_eq_ok.mp h
      obtain ⟨st₂, hseek, h⟩ := bind_eq_ok.mp h
      exact bind_eq_ok.mpr ⟨st₁, hnext, bind_eq_ok.mpr ⟨st₂, seek_mono hseek hle, h⟩⟩
  isEnd st := by cases st <;> rfl
  item st := by cases st <;> rfl

end Cursor

end Rmdb.Lib
