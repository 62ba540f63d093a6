import Mathlib.Logic.Basic
import Mathlib.Data.List.Basic

namespace Rmdb.Lib

/-!
# Programs over an interface

A program gives commands to other components and goes on with what they answer.  What happens between
two commands is not part of it, so the answers may be anything that the interface allows: other programs
may have run in between.

* `Program.Always` — what holds of every history of a program, whatever it is answered; it is computed
  command by command (`always_call`, `always_bind`);
* `Program.exec` — the program alone, on a state that answers its commands.
-/

/-- The commands of other components, their answers, and which answers a command may get. -/
structure Interface where
  Cmd : Type
  Answer : Cmd → Type
  Allowed : (c : Cmd) → Answer c → Prop

/-- A command with its answer. -/
structure Interface.Exchange (I : Interface) where
  cmd : I.Cmd
  answer : I.Answer cmd

/-- A program ends, or gives a command and goes on with the answer. -/
inductive Program (I : Interface) (α : Type) : Type where
  | done (a : α)
  | call (c : I.Cmd) (next : I.Answer c → Program I α)

namespace Program

variable {I : Interface} {α β ε : Type}

/-- One program after another. -/
def bind : Program I α → (α → Program I β) → Program I β
  | .done a, k => k a
  | .call c next, k => .call c fun a => (next a).bind k

instance : Monad (Program I) where
  pure := .done
  bind := bind

/-- A program that gives one command. -/
def command (c : I.Cmd) : Program I (I.Answer c) := .call c .done

/-! ### Histories -/

/-- The histories of a program: what it exchanges until it ends, and its result. -/
inductive Runs : Program I α → List I.Exchange → α → Prop where
  | done (a : α) : Runs (.done a) [] a
  | call {c : I.Cmd} {next : I.Answer c → Program I α} {a : I.Answer c} {h : List I.Exchange} {r : α}
      (ha : I.Allowed c a) (hr : Runs (next a) h r) : Runs (.call c next) (⟨c, a⟩ :: h) r

/-- This holds of every history and its result. -/
def Always (p : Program I α) (Q : List I.Exchange → α → Prop) : Prop := ∀ h r, p.Runs h r → Q h r

variable {Q : List I.Exchange → α → Prop} {p : Program I α}

@[simp] theorem always_done (a : α) : (done a : Program I α).Always Q ↔ Q [] a := by
  refine ⟨fun h => h _ _ (.done a), fun hQ h r hr => ?_⟩
  cases hr
  exact hQ

/-- **One command**: whatever it is answered. -/
@[simp] theorem always_call (c : I.Cmd) (next : I.Answer c → Program I α) :
    (call c next).Always Q ↔
      ∀ a, I.Allowed c a → (next a).Always fun h r => Q (⟨c, a⟩ :: h) r := by
  constructor
  · exact fun hall a ha h r hr => hall _ _ (.call ha hr)
  · intro hall h r hr
    cases hr with
    | call ha hr => exact hall _ ha _ _ hr

/-- **One program after another.** -/
theorem always_bind {k : α → Program I β} {Q : List I.Exchange → β → Prop} : (p >>= k).Always Q ↔
    p.Always fun h a => (k a).Always fun h' r => Q (h ++ h') r := by
  show (p.bind k).Always Q ↔ _
  induction p generalizing Q with
  | done a => simp [bind]
  | call c next ih => simp only [bind, always_call, ih, List.cons_append]

theorem Always.mono {Q' : List I.Exchange → α → Prop} (h : p.Always Q) (hQ : ∀ h r, Q h r → Q' h r) :
    p.Always Q' := fun l r hr => hQ l r (h l r hr)

/-- A program that may throw: what follows is left out when it does. -/
theorem always_bindE {x : ExceptT ε (Program I) α} {k : α → ExceptT ε (Program I) β}
    {Q : List I.Exchange → Except ε β → Prop} : (x >>= k).run.Always Q ↔
      x.run.Always fun h r =>
        match r with
        | .error e => Q h (.error e)
        | .ok a => (k a).run.Always fun h' r => Q (h ++ h') r := by
  refine (always_bind (p := x.run) (k := ExceptT.bindCont k)).trans ?_
  refine forall_congr' fun h => forall_congr' fun r => imp_congr_right fun _ => ?_
  cases r with
  | error e =>
    refine (always_done (Except.error e)).trans ?_
    rw [List.append_nil]
  | ok a => exact Iff.rfl

/-! ### Alone -/

/-- The program on a state that answers its commands. -/
def exec {σ : Type} (answer : (c : I.Cmd) → σ → I.Answer c × σ) : Program I α → σ → α × σ
  | .done a, s => (a, s)
  | .call c next, s => exec answer (next (answer c s).1) (answer c s).2

/-- What it exchanges. -/
def trace {σ : Type} (answer : (c : I.Cmd) → σ → I.Answer c × σ) : Program I α → σ → List I.Exchange
  | .done _, _ => []
  | .call c next, s => ⟨c, (answer c s).1⟩ :: trace answer (next (answer c s).1) (answer c s).2

theorem exec_bind {σ : Type} (answer : (c : I.Cmd) → σ → I.Answer c × σ) (k : α → Program I β) (s : σ) :
    (p >>= k).exec answer s = (k (p.exec answer s).1).exec answer (p.exec answer s).2 := by
  show (p.bind k).exec answer s = _
  induction p generalizing s with
  | done a => rfl
  | call c next ih => exact ih _ _

/-- A program that may throw: what follows is left out when it does. -/
theorem exec_bindE {σ : Type} (answer : (c : I.Cmd) → σ → I.Answer c × σ) {x : ExceptT ε (Program I) α}
    {k : α → ExceptT ε (Program I) β} (s : σ) : (x >>= k).run.exec answer s =
      match x.run.exec answer s with
      | (.ok a, s') => (k a).run.exec answer s'
      | (.error e, s') => (.error e, s') := by
  refine (exec_bind (p := x.run) answer (ExceptT.bindCont k) s).trans ?_
  rcases x.run.exec answer s with ⟨e | a, s'⟩
  · rfl
  · rfl

end Program

end Rmdb.Lib
