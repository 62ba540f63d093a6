import Mathlib.Data.List.Forall2
import Mathlib.Logic.Relation

namespace Rmdb.Lib

/-!
# Transition systems and the invariant rule

A transition system over an arbitrary state type `σ` and label type `ι`.

* `Reachable.invariant` — a predicate that holds initially and is preserved by each step holds
  in every reachable state;
* `restrict` — the runs whose steps all meet a condition.

For step functions that can fail, `bind_eq_ok` and `foldlM_snoc_eq_ok` take a run apart.
-/

variable {σ ι : Type*}

/-- A labelled transition system. -/
structure TransitionSystem (σ ι : Type*) where
  /-- The initial states. -/
  init : σ → Prop
  /-- The labelled steps. -/
  step : σ → ι → σ → Prop

namespace TransitionSystem

variable (M : TransitionSystem σ ι)

/-- The states reachable from an initial one. -/
inductive Reachable : σ → Prop
  | init {s : σ} : M.init s → Reachable s
  | step {s s' : σ} {a : ι} : Reachable s → M.step s a s' → Reachable s'

/-- A run: the labels taken, in order, from `s` to `s'`. -/
inductive Run : σ → List ι → σ → Prop
  | nil (s : σ) : Run s [] s
  | snoc {s s' s'' : σ} {as : List ι} {a : ι} :
      Run s as s' → M.step s' a s'' → Run s (as ++ [a]) s''

/-- Only the steps that meet a condition. -/
def restrict (good : σ → ι → σ → Prop) : TransitionSystem σ ι where
  init := M.init
  step s a s' := M.step s a s' ∧ good s a s'

variable {M}

/-- **The invariant rule.** What holds initially and survives every step holds in every
    reachable state. -/
theorem Reachable.invariant {I : σ → Prop} (h0 : ∀ s, M.init s → I s)
    (hstep : ∀ s a s', I s → M.step s a s' → I s') {s : σ} (h : M.Reachable s) : I s := by
  induction h with
  | init hi => exact h0 _ hi
  | step _ hs ih => exact hstep _ _ _ ih hs

theorem Reachable.of_restrict {good : σ → ι → σ → Prop} {s : σ} (h : (M.restrict good).Reachable s) :
    M.Reachable s := by
  induction h with
  | init hi => exact .init hi
  | step _ hs ih => exact .step ih hs.1

/-- Running a step function over a list of labels stays reachable. -/
theorem Reachable.foldlM {f : σ → ι → Option σ} (hf : ∀ s a s', f s a = some s' → M.step s a s')
    {as : List ι} {s s' : σ} (h : M.Reachable s) (hr : as.foldlM f s = some s') :
    M.Reachable s' := by
  induction as generalizing s with
  | nil =>
    cases hr
    exact h
  | cons a as ih =>
    rw [List.foldlM_cons] at hr
    obtain ⟨s₁, hs₁, hr⟩ := Option.bind_eq_some_iff.mp hr
    exact ih (.step h (hf s a s₁ hs₁)) hr

end TransitionSystem

/-! ### Step functions that can fail -/

/-- A sequence of two computations succeeds if both do. -/
theorem bind_eq_ok {ε α β : Type*} {x : Except ε α} {f : α → Except ε β} {b : β} :
    x.bind f = .ok b ↔ ∃ a, x = .ok a ∧ f a = .ok b := by
  cases x with
  | error e => exact ⟨fun h => (by cases h), fun ⟨_, h, _⟩ => (by cases h)⟩
  | ok a =>
    refine ⟨fun h => ⟨a, rfl, h⟩, ?_⟩
    rintro ⟨_, h, hf⟩
    cases h
    exact hf

/-- A sequence of two computations fails if one of them does. -/
theorem bind_eq_error {ε α β : Type*} {x : Except ε α} {f : α → Except ε β} {e : ε} :
    x.bind f = .error e ↔ x = .error e ∨ ∃ a, x = .ok a ∧ f a = .error e := by
  cases x with
  | error e' =>
    refine ⟨fun h => Or.inl (congrArg Except.error (Except.error.inj h)), ?_⟩
    rintro (h | ⟨_, h, _⟩)
    · exact congrArg Except.error (Except.error.inj h)
    · cases h
  | ok a =>
    refine ⟨fun h => Or.inr ⟨a, rfl, h⟩, ?_⟩
    rintro (h | ⟨_, h, hf⟩)
    · cases h
    · cases h
      exact hf

/-- A computation for each item of a list succeeds if each does. -/
theorem mapM_eq_ok {ε α β : Type*} {f : α → Except ε β} {l : List α} {l' : List β} :
    l.mapM f = .ok l' ↔ List.Forall₂ (fun a b => f a = .ok b) l l' := by
  induction l generalizing l' with
  | nil =>
    refine ⟨fun h => ?_, fun h => ?_⟩
    · cases h
      exact .nil
    · cases h
      rfl
  | cons a l ih =>
    rw [List.mapM_cons]
    constructor
    · intro h
      obtain ⟨b, hb, h⟩ := bind_eq_ok.mp h
      obtain ⟨bs, hbs, h⟩ := bind_eq_ok.mp h
      cases h
      exact .cons hb (ih.mp hbs)
    · rintro (_ | ⟨hb, hbs⟩)
      exact bind_eq_ok.mpr ⟨_, hb, bind_eq_ok.mpr ⟨_, ih.mpr hbs, rfl⟩⟩

theorem exists_mem_of_mapM {ε α β : Type*} {f : α → Except ε β} {l : List α} {l' : List β}
    (h : l.mapM f = .ok l') {a : α} (ha : a ∈ l) : ∃ b ∈ l', f a = .ok b := by
  have hall := mapM_eq_ok.mp h
  clear h
  induction hall with
  | nil => cases ha
  | @cons a' b l l' hb _ ih =>
    rcases List.mem_cons.mp ha with rfl | ha
    · exact ⟨b, List.mem_cons_self, hb⟩
    · obtain ⟨b', hb', hf⟩ := ih ha
      exact ⟨b', List.mem_cons_of_mem _ hb', hf⟩

/-- A computation whose result is changed succeeds alike. -/
theorem map_eq_ok {ε α β : Type*} {f : α → β} {x : Except ε α} {b : β} :
    x.map f = .ok b ↔ ∃ a, x = .ok a ∧ f a = b := by
  cases x with
  | error e => exact ⟨fun h => (by cases h), fun ⟨_, h, _⟩ => (by cases h)⟩
  | ok a =>
    refine ⟨fun h => ⟨a, rfl, Except.ok.inj h⟩, ?_⟩
    rintro ⟨_, h, rfl⟩
    cases h
    rfl

/-- A computation with other errors succeeds alike. -/
theorem mapError_eq_ok {ε ε' α : Type*} {f : ε → ε'} {x : Except ε α} {a : α} :
    x.mapError f = .ok a ↔ x = .ok a := by
  cases x with
  | error e => exact ⟨fun h => (by cases h), fun h => (by cases h)⟩
  | ok b =>
    refine ⟨fun h => ?_, fun h => ?_⟩
    · cases h
      rfl
    · cases h
      rfl

theorem mapError_eq_error {ε ε' α : Type*} {f : ε → ε'} {x : Except ε α} {e : ε'} :
    x.mapError f = .error e ↔ ∃ e', x = .error e' ∧ f e' = e := by
  cases x with
  | error e' =>
    refine ⟨fun h => ⟨e', rfl, Except.error.inj h⟩, ?_⟩
    rintro ⟨_, h, rfl⟩
    cases h
    rfl
  | ok b => exact ⟨fun h => (by cases h), fun ⟨_, h, _⟩ => (by cases h)⟩

/-- A computation that succeeds with a value of this kind. -/
theorem toOption_map_eq_some {ε α β : Type*} {f : α → β} {x : Except ε α} {b : β} :
    x.toOption.map f = some b ↔ ∃ a, x = .ok a ∧ f a = b := by
  cases x with
  | error e => exact ⟨fun h => (by cases h), fun ⟨_, h, _⟩ => (by cases h)⟩
  | ok a =>
    refine ⟨fun h => ⟨a, rfl, Option.some.inj h⟩, ?_⟩
    rintro ⟨_, h, rfl⟩
    cases h
    rfl

theorem toOption_eq_some {ε α : Type*} {x : Except ε α} {a : α} :
    x.toOption = some a ↔ x = .ok a := by
  cases x with
  | error e => exact ⟨fun h => (by cases h), fun h => (by cases h)⟩
  | ok b => exact ⟨fun h => congrArg Except.ok (Option.some.inj h), fun h => by cases h; rfl⟩

/-- A run with one more step. -/
theorem foldlM_snoc_eq_ok {ε : Type*} {σ : Type*} {ι : Type*} {f : σ → ι → Except ε σ} {as : List ι}
    {a : ι} {s s' : σ} : (as ++ [a]).foldlM f s = .ok s' ↔
      ∃ s₁, as.foldlM f s = .ok s₁ ∧ f s₁ a = .ok s' := by
  rw [List.foldlM_append]
  refine (bind_eq_ok (x := as.foldlM f s)).trans ?_
  refine exists_congr fun s₁ => and_congr_right fun _ => ?_
  show (f s₁ a).bind _ = _ ↔ _
  rw [bind_eq_ok]
  exact ⟨fun ⟨s₂, h, h'⟩ => by cases h'; exact h, fun h => ⟨s', h, rfl⟩⟩

end Rmdb.Lib
