import Mathlib.Data.List.Basic

namespace Rmdb.Lib

/-!
# Shift-reduce parsing

A grammar whose rules compute values, and the automaton that parses it with a bounded stack.  A state may
reduce without a look at the next token, and the parse ends when a rule of the start symbol is reduced.

* `Grammar.Derives` — the token lists of a list of symbols, with their values and the stack they need;
* `Parser.run` — the automaton at work, token by token;
* `Report` — what the states stand for: the items, and the tokens that may follow a rule;
* `Report.Sound` and `Report.Complete` — the checks that tie the automaton to its report;
* `Report.Sound.run_derives` — what is accepted was derived;
* `Report.Complete.run_accepts` — what is derived is accepted, if the stack is large enough;
* `Report.Sound.run_total` — every run ends;
* `Report.Complete.derives_unique` — tokens are derived with one value only.
-/

/-- Rules `R` over symbols `S`, with the values `V` that they compute from tokens `T`. -/
structure Grammar (S R T V : Type) where
  lhs : R → S
  rhs : R → List S
  /-- The value of the left side, from those of the right side. -/
  act : R → List V → V
  /-- The symbol of a token; none if the token cannot be read. -/
  kind : T → Option S
  value : T → V

namespace Grammar

variable {S R T V : Type} (G : Grammar S R T V)

/-- These symbols derive these tokens, with these values.  The number is the height that a stack gains on
    the way. -/
inductive Derives : List S → List T → List V → Nat → Prop
  | nil : Derives [] [] [] 0
  | token {a : S} {t : T} {ss : List S} {ts : List T} {vs : List V} {d : Nat} (hkind : G.kind t = some a)
      (hrest : Derives ss ts vs d) : Derives (a :: ss) (t :: ts) (G.value t :: vs) (d + 1)
  | rule {r : R} {ss : List S} {ts us : List T} {vs ws : List V} {d e : Nat}
      (hrhs : Derives (G.rhs r) ts vs d) (hrest : Derives ss us ws e) :
      Derives (G.lhs r :: ss) (ts ++ us) (G.act r vs :: ws) (max d (e + 1))

variable {G} {ss ss' : List S} {ts us : List T} {vs ws : List V} {d e : Nat}

/-- One value for each symbol. -/
theorem Derives.length_eq (h : G.Derives ss ts vs d) : vs.length = ss.length := by
  induction h with
  | nil => rfl
  | token hkind hrest ih => rw [List.length_cons, List.length_cons, ih]
  | rule hrhs hrest ihrhs ihrest => rw [List.length_cons, List.length_cons, ihrest]

/-- Derivations side by side; the second one stands above the values of the first. -/
theorem Derives.append (h : G.Derives ss ts vs d) (h' : G.Derives ss' us ws e) :
    G.Derives (ss ++ ss') (ts ++ us) (vs ++ ws) (max d (ss.length + e)) := by
  induction h with
  | nil =>
    rw [show max 0 (([] : List S).length + e) = e by simp]
    exact h'
  | @token a t ss ts vs d hkind hrest ih =>
    rw [show max (d + 1) ((a :: ss).length + e) = max d (ss.length + e) + 1 by
      rw [List.length_cons]
      omega]
    exact .token hkind ih
  | @rule r ss ts₁ ts₂ vs₁ vs₂ d₁ d₂ hrhs hrest ihrhs ihrest =>
    rw [show max (max d₁ (d₂ + 1)) ((G.lhs r :: ss).length + e) = max d₁ (max d₂ (ss.length + e) + 1) by
      rw [List.length_cons]
      omega, List.append_assoc]
    exact .rule hrhs ihrest

/-- What one symbol derives, before what the others do. -/
theorem Derives.cons {a : S} {v : V} (h : G.Derives [a] ts [v] d) (h' : G.Derives ss us ws e) :
    G.Derives (a :: ss) (ts ++ us) (v :: ws) (max d (e + 1)) := by
  rw [Nat.add_comm e 1]
  exact h.append h'

/-- A rule by itself. -/
theorem Derives.single {r : R} (h : G.Derives (G.rhs r) ts vs d) :
    G.Derives [G.lhs r] ts [G.act r vs] (max d 1) := by
  have hrule := Derives.rule h .nil
  rwa [List.append_nil] at hrule

/-- Tokens and values part where the symbols part. -/
theorem Derives.split (h : G.Derives (ss ++ ss') ts vs d) : ∃ ts₁ ts₂ vs₁ vs₂ d₁ d₂,
    ts = ts₁ ++ ts₂ ∧ vs = vs₁ ++ vs₂ ∧ G.Derives ss ts₁ vs₁ d₁ ∧ G.Derives ss' ts₂ vs₂ d₂ := by
  induction ss generalizing ts vs d with
  | nil => exact ⟨[], ts, [], vs, 0, d, rfl, rfl, .nil, h⟩
  | cons a ss ih =>
    cases h with
    | @token _ t _ ts vs d hkind hrest =>
      obtain ⟨ts₁, ts₂, vs₁, vs₂, d₁, d₂, rfl, rfl, h₁, h₂⟩ := ih hrest
      exact ⟨t :: ts₁, ts₂, _ :: vs₁, vs₂, _, d₂, rfl, rfl, .token hkind h₁, h₂⟩
    | @rule r _ us₁ us vs₁ vs d₁ d hrhs hrest =>
      obtain ⟨ts₁, ts₂, ws₁, vs₂, d₁, d₂, rfl, rfl, h₁, h₂⟩ := ih hrest
      exact ⟨us₁ ++ ts₁, ts₂, _ :: ws₁, vs₂, _, d₂, (List.append_assoc _ _ _).symm, rfl, .rule hrhs h₁, h₂⟩

/-- The right side of a rule at the end is replaced by its left side. -/
theorem Derives.reduce {r : R} (h : G.Derives (ss ++ G.rhs r) ts vs d) :
    ∃ e, G.Derives (ss ++ [G.lhs r]) ts
      (vs.take ss.length ++ [G.act r (vs.drop ss.length)]) e := by
  obtain ⟨ts₁, ts₂, vs₁, vs₂, d₁, d₂, rfl, rfl, h₁, h₂⟩ := h.split
  rw [← h₁.length_eq, List.take_left, List.drop_left]
  exact ⟨_, h₁.append h₂.single⟩

/-- What a symbol without rules derives begins with its token. -/
theorem Derives.exists_cons {a : S} (ha : ∀ r, G.lhs r ≠ a) (h : G.Derives (a :: ss) ts vs d) :
    ∃ t us ws e, G.kind t = some a ∧ ts = t :: us ∧ vs = G.value t :: ws ∧ d = e + 1 ∧
      G.Derives ss us ws e := by
  cases h with
  | token hkind hrest => exact ⟨_, _, _, _, hkind, rfl, rfl, rfl, hrest⟩
  | @rule r => exact absurd rfl (ha r)

/-- What a symbol that is no token derives begins with what one of its rules does. -/
theorem Derives.exists_rule {a : S} (ha : ∀ t, G.kind t ≠ some a) (h : G.Derives (a :: ss) ts vs d) :
    ∃ r ts₁ ts₂ vs₁ vs₂ d₁ d₂, G.lhs r = a ∧ ts = ts₁ ++ ts₂ ∧ vs = G.act r vs₁ :: vs₂ ∧
      d = max d₁ (d₂ + 1) ∧ G.Derives (G.rhs r) ts₁ vs₁ d₁ ∧ G.Derives ss ts₂ vs₂ d₂ := by
  cases h with
  | token hkind hrest => exact absurd hkind (ha _)
  | rule hrhs hrest => exact ⟨_, _, _, _, _, _, _, rfl, rfl, rfl, rfl, hrhs, hrest⟩

/-- A token among the symbols is among what they derive. -/
theorem Derives.exists_token {a : S} (ha : ∀ r, G.lhs r ≠ a) (h : G.Derives ss ts vs d) (hmem : a ∈ ss) :
    ∃ t ∈ ts, G.kind t = some a := by
  induction h with
  | nil => cases hmem
  | @token b t ss ts vs d hkind hrest ih =>
    rcases List.mem_cons.mp hmem with rfl | hmem
    · exact ⟨t, List.mem_cons_self, hkind⟩
    · obtain ⟨t', ht', hkind'⟩ := ih hmem
      exact ⟨t', List.mem_cons_of_mem _ ht', hkind'⟩
  | @rule r ss ts₁ ts₂ vs₁ vs₂ d₁ d₂ hrhs hrest ihrhs ihrest =>
    obtain ⟨t, ht, hkind⟩ := ihrest ((List.mem_cons.mp hmem).resolve_left fun h => ha r h.symm)
    exact ⟨t, List.mem_append_right _ ht, hkind⟩

/-- What holds of symbols, and of a right side where it holds of the left side, holds of all tokens. -/
theorem Derives.forall_token {p : S → Prop} (hclosed : ∀ r, p (G.lhs r) → ∀ a ∈ G.rhs r, p a)
    (h : G.Derives ss ts vs d) (hss : ∀ a ∈ ss, p a) : ∀ t ∈ ts, ∀ a, G.kind t = some a → p a := by
  induction h with
  | nil => exact fun t ht => nomatch ht
  | @token b t ss ts vs d hkind hrest ih =>
    intro t' ht' a ha
    rcases List.mem_cons.mp ht' with rfl | ht'
    · obtain rfl := Option.some.inj (hkind.symm.trans ha)
      exact hss b List.mem_cons_self
    · exact ih (fun a ha => hss a (List.mem_cons_of_mem _ ha)) t' ht' a ha
  | @rule r ss ts₁ ts₂ vs₁ vs₂ d₁ d₂ hrhs hrest ihrhs ihrest =>
    intro t ht
    rcases List.mem_append.mp ht with ht | ht
    · exact ihrhs (hclosed r (hss _ List.mem_cons_self)) t ht
    · exact ihrest (fun a ha => hss a (List.mem_cons_of_mem _ ha)) t ht

end Grammar

/-! ### The automaton -/

/-- What a state does at a token. -/
inductive Action (R Q : Type) where
  | shift (q : Q)
  | reduce (r : R)
  | reject

/-- States `Q` with their actions. -/
structure Automaton (S R Q : Type) where
  entry : Q
  /-- The reduction of a state that does not look at the next token. -/
  eager : Q → Option R
  action : Q → S → Action R Q
  goto : Q → S → Q
  /-- The rules of the start symbol: the parse ends when one is reduced. -/
  accepts : R → Bool

/-- A parser: a grammar, an automaton for it and the height that its stack may reach. -/
structure Parser (S R Q T V : Type) extends Automaton S R Q where
  grammar : Grammar S R T V
  limit : Nat

namespace Parser

variable {S R Q T V : Type}

/-- The states above the entry, with the values of their symbols, the top first; and the tokens to come. -/
structure Config (Q T V : Type) where
  stack : List (Q × V)
  input : List T

/-- How a parse ends. -/
inductive Outcome (T V : Type) where
  | accepted (v : V) (input : List T)
  | rejected
  | exhausted
  | unread (input : List T)

variable (P : Parser S R Q T V)

/-- The state on the top. -/
def top (stack : List (Q × V)) : Q := (stack.head?.map Prod.fst).getD P.entry

/-- Enter a state, if the stack has room. -/
def push (c : Config Q T V) (q : Q) (v : V) : Config Q T V ⊕ Outcome T V :=
  if P.limit < c.stack.length + 1 then .inr .exhausted else .inl ⟨(q, v) :: c.stack, c.input⟩

/-- Take the right side of the rule from the stack and enter the state of its left side. -/
def reduce (c : Config Q T V) (r : R) : Config Q T V ⊕ Outcome T V :=
  let n := (P.grammar.rhs r).length
  let v := P.grammar.act r ((c.stack.take n).map Prod.snd).reverse
  let stack := c.stack.drop n
  if P.accepts r then .inr (.accepted v c.input)
  else P.push ⟨stack, c.input⟩ (P.goto (P.top stack) (P.grammar.lhs r)) v

/-- One step. -/
def step (c : Config Q T V) : Config Q T V ⊕ Outcome T V :=
  match P.eager (P.top c.stack) with
  | some r => P.reduce c r
  | none =>
    match c.input with
    | [] => .inr (.unread [])
    | t :: input =>
      match P.grammar.kind t with
      | none => .inr (.unread (t :: input))
      | some a =>
        match P.action (P.top c.stack) a with
        | .shift q => P.push ⟨c.stack, input⟩ q (P.grammar.value t)
        | .reduce r => P.reduce c r
        | .reject => .inr .rejected

/-- The steps from a configuration, as many as there is fuel for. -/
def run : Nat → Config Q T V → Option (Outcome T V)
  | 0, _ => none
  | fuel + 1, c =>
    match P.step c with
    | .inl c' => run fuel c'
    | .inr o => some o

/-- Steps that lead from one configuration to another. -/
def Goes (c c' : Config Q T V) : Prop := ∃ n, ∀ m, P.run (n + m) c = P.run m c'

/-- Steps that end. -/
def Ends (c : Config Q T V) (o : Outcome T V) : Prop := ∃ n, ∀ m, P.run (n + m) c = some o

variable {P} {c c' c'' : Config Q T V} {o : Outcome T V}

/-- The parser begins in its entry state. -/
@[simp]
theorem top_nil : P.top [] = P.entry := rfl

/-- The state on top. -/
@[simp]
theorem top_cons (x : Q × V) (stack : List (Q × V)) : P.top (x :: stack) = x.1 := rfl

theorem Goes.refl (c : Config Q T V) : P.Goes c c := ⟨0, fun m => by rw [Nat.zero_add]⟩

/-- Steps after steps. -/
theorem Goes.trans (h : P.Goes c c') (h' : P.Goes c' c'') : P.Goes c c'' := by
  obtain ⟨n, hn⟩ := h
  obtain ⟨n', hn'⟩ := h'
  exact ⟨n + n', fun m => by rw [Nat.add_assoc, hn, hn']⟩

/-- Steps up to an end. -/
theorem Goes.ends (h : P.Goes c c') (h' : P.Ends c' o) : P.Ends c o := by
  obtain ⟨n, hn⟩ := h
  obtain ⟨n', hn'⟩ := h'
  exact ⟨n + n', fun m => by rw [Nat.add_assoc, hn, hn']⟩

/-- A single step. -/
theorem Goes.step (h : P.step c = .inl c') : P.Goes c c' :=
  ⟨1, fun m => by rw [Nat.add_comm, run, h]⟩

/-- The last step. -/
theorem Ends.step (h : P.step c = .inr o) : P.Ends c o :=
  ⟨1, fun m => by rw [Nat.add_comm, run, h]⟩

/-- More fuel does not change the result. -/
theorem run_add {fuel : Nat} (h : P.run fuel c = some o) (m : Nat) : P.run (fuel + m) c = some o := by
  induction fuel generalizing c with
  | zero => cases h
  | succ fuel ih =>
    rw [Nat.add_right_comm, run]
    rw [run] at h
    cases hstep : P.step c with
    | inl c' =>
      rw [hstep] at h
      exact ih h
    | inr o' =>
      rw [hstep] at h
      exact h

/-- A run ends in one way only. -/
theorem Ends.run_eq (h : P.Ends c o) {fuel : Nat} {o' : Outcome T V} (hrun : P.run fuel c = some o') :
    o' = o := by
  obtain ⟨n, hn⟩ := h
  have hmore := run_add hrun n
  rw [Nat.add_comm, hn] at hmore
  exact (Option.some.inj hmore).symm

/-- A state that reduces without looking at a token. -/
theorem step_eager {r : R} (h : P.eager (P.top c.stack) = some r) : P.step c = P.reduce c r := by
  rw [step, h]

/-- A state that looks at the next token. -/
theorem step_token {stack : List (Q × V)} {t : T} {input : List T} {a : S} (h : P.eager (P.top stack) = none)
    (hkind : P.grammar.kind t = some a) : P.step ⟨stack, t :: input⟩ =
      match P.action (P.top stack) a with
      | .shift q => P.push ⟨stack, input⟩ q (P.grammar.value t)
      | .reduce r => P.reduce ⟨stack, t :: input⟩ r
      | .reject => .inr .rejected := by
  simp only [step, h, hkind]

/-- A state is pushed while there is room. -/
theorem push_of_le {q : Q} {v : V} (h : c.stack.length + 1 ≤ P.limit) :
    P.push c q v = .inl ⟨(q, v) :: c.stack, c.input⟩ := if_neg (Nat.not_lt.mpr h)

/-- The stack is full. -/
theorem push_of_lt {q : Q} {v : V} (h : P.limit < c.stack.length + 1) : P.push c q v = .inr .exhausted :=
  if_pos h

/-- A reduction of what lies on the top. -/
theorem reduce_append {r : R} {new stack : List (Q × V)} {input : List T} {vs : List V}
    (hlen : new.length = (P.grammar.rhs r).length) (hvs : new.map Prod.snd = vs.reverse) :
    P.reduce ⟨new ++ stack, input⟩ r =
      if P.accepts r then .inr (.accepted (P.grammar.act r vs) input)
      else P.push ⟨stack, input⟩ (P.goto (P.top stack) (P.grammar.lhs r)) (P.grammar.act r vs) := by
  simp only [reduce, ← hlen, List.take_left, List.drop_left, hvs, List.reverse_reverse]

end Parser

/-! ### Reports -/

/-- What the states stand for. -/
structure Report (S R Q : Type) where
  start : S
  terminal : S → Bool
  /-- The rules under way in a state, with the number of symbols behind us. -/
  items : Q → List (R × Nat)
  /-- The symbols that may begin here. -/
  opens : Q → List S
  /-- What may follow a rule that is under way or begins here. -/
  looks : Q → R → List S
  /-- The first tokens of a symbol. -/
  first : S → List S
  nullable : S → Bool
  /-- How much a state may still reduce. -/
  weight : Q → Nat
  heavy : S → Nat
  maxWeight : Nat

namespace Report

variable {S R Q T V : Type} (C : Report S R Q) (P : Parser S R Q T V)

/-- The rule is under way in the state, or begins there. -/
def Has (q : Q) (r : R) (k : Nat) : Prop :=
  (r, k) ∈ C.items q ∨ k = 0 ∧ P.grammar.lhs r ∈ C.opens q

/-- The second state is what the first one becomes behind the symbol. -/
def Edge (q : Q) (a : S) (q' : Q) : Prop :=
  C.items q' ≠ [] ∧
    ∀ i ∈ C.items q', 1 ≤ i.2 ∧ (P.grammar.rhs i.1)[i.2 - 1]? = some a ∧ C.Has P q i.1 (i.2 - 1)

/-- The first tokens of symbols before these tokens. -/
def firstOf : List S → List S → List S
  | [], follow => follow
  | a :: ss, follow =>
    (if C.terminal a then [a] else C.first a) ++ if C.nullable a then firstOf ss follow else []

/-- The automaton does what the report allows. -/
structure Sound : Prop where
  entry_items : C.items P.entry = []
  terminal : ∀ {t a}, P.grammar.kind t = some a → C.terminal a = true
  shift : ∀ {q a q'}, C.terminal a = true → P.eager q = none → P.action q a = .shift q' → C.Edge P q a q'
  eager : ∀ {q r}, P.eager q = some r → C.Has P q r (P.grammar.rhs r).length
  reduce : ∀ {q a r}, C.terminal a = true → P.eager q = none → P.action q a = .reduce r →
    C.Has P q r (P.grammar.rhs r).length
  goto : ∀ {q r k a}, C.Has P q r k → (P.grammar.rhs r)[k]? = some a → C.terminal a = false →
    C.Edge P q a (P.goto q a) ∧ C.weight (P.goto q a) ≤ C.heavy a
  opens : ∀ {q a}, a ∈ C.opens q →
    q = P.entry ∧ a = C.start ∨ ∃ r k, C.Has P q r k ∧ (P.grammar.rhs r)[k]? = some a
  accepts : ∀ {r}, P.accepts r = true ↔ P.grammar.lhs r = C.start
  start_notMem : ∀ r, C.start ∉ P.grammar.rhs r
  lhs_terminal : ∀ {r}, C.terminal (P.grammar.lhs r) = false
  weight_le : ∀ {q}, C.weight q ≤ C.maxWeight
  weight_lt : ∀ {q r}, C.Has P q r (P.grammar.rhs r).length → P.accepts r = false →
    C.heavy (P.grammar.lhs r) + 1 < (P.grammar.rhs r).length + C.weight q

/-- The automaton does all that the report asks for. -/
structure Complete : Prop extends C.Sound P where
  entry_opens : C.start ∈ C.opens P.entry
  start_last : ∀ {r}, P.accepts r = true → ∃ a, (P.grammar.rhs r).getLast? = some a ∧ C.terminal a = true
  advance : ∀ {q r k a}, C.Has P q r k → (P.grammar.rhs r)[k]? = some a → C.terminal a = true →
    P.eager q = none ∧ ∃ q', P.action q a = .shift q' ∧ (r, k + 1) ∈ C.items q' ∧
      C.looks q r ⊆ C.looks q' r
  cover : ∀ {q r k a}, C.Has P q r k → (P.grammar.rhs r)[k]? = some a → C.terminal a = false →
    (r, k + 1) ∈ C.items (P.goto q a) ∧ C.looks q r ⊆ C.looks (P.goto q a) r ∧ a ∈ C.opens q ∧
      ∀ r', P.grammar.lhs r' = a →
        C.firstOf ((P.grammar.rhs r).drop (k + 1)) (C.looks q r) ⊆ C.looks q r'
  finish : ∀ {q r}, C.Has P q r (P.grammar.rhs r).length → P.eager q = some r ∨
    P.eager q = none ∧ P.accepts r = false ∧ ∀ a ∈ C.looks q r, P.action q a = .reduce r
  terminal_nullable : ∀ {a}, C.terminal a = true → C.nullable a = false
  nullable : ∀ {r}, (∀ a ∈ P.grammar.rhs r, C.nullable a = true) → C.nullable (P.grammar.lhs r) = true
  first : ∀ {r}, C.firstOf (P.grammar.rhs r) [] ⊆ C.first (P.grammar.lhs r)

/-! ### What is accepted -/

/-- The states of a stack lie one behind the other, each behind its symbol. -/
inductive Path : List (Q × V) → List S → Prop
  | nil : Path [] []
  | cons {stack : List (Q × V)} {ss : List S} {q : Q} {a : S} {v : V} (hpath : Path stack ss)
      (hedge : C.Edge P (P.top stack) a q) : Path ((q, v) :: stack) (a :: ss)

/-- The stack stands for tokens read so far. -/
def Stands (stack : List (Q × V)) (ts : List T) : Prop :=
  ∃ ss d, C.Path P stack ss ∧ P.grammar.Derives ss.reverse ts (stack.map Prod.snd).reverse d

variable {C P} {stack : List (Q × V)} {ss : List S} {ts : List T}

/-- One symbol for each state on the stack. -/
theorem Path.length_eq (h : C.Path P stack ss) : ss.length = stack.length := by
  induction h with
  | nil => rfl
  | cons hpath hedge ih => rw [List.length_cons, List.length_cons, ih]

/-- Below a state that has a rule under way lie the symbols behind us, and the state where it began. -/
theorem Path.pop (hS : C.Sound P) {r : R} {k : Nat} (h : C.Path P stack ss)
    (hk : k ≤ (P.grammar.rhs r).length) (hhas : C.Has P (P.top stack) r k) :
    k ≤ stack.length ∧ ss.take k = ((P.grammar.rhs r).take k).reverse ∧ C.Path P (stack.drop k) (ss.drop k) ∧
      C.Has P (P.top (stack.drop k)) r 0 := by
  induction k generalizing stack ss with
  | zero => exact ⟨Nat.zero_le _, rfl, h, hhas⟩
  | succ k ih =>
    have hitem : (r, k + 1) ∈ C.items (P.top stack) :=
      hhas.resolve_right fun h => absurd h.1 (Nat.succ_ne_zero k)
    cases h with
    | nil =>
      rw [Parser.top_nil, hS.entry_items] at hitem
      cases hitem
    | @cons stack ss q a v hpath hedge =>
      obtain ⟨-, hsymbol, hbefore⟩ := hedge.2 (r, k + 1) hitem
      obtain ⟨hlen, htake, hdrop, hbegin⟩ := ih hpath (Nat.le_of_succ_le hk) hbefore
      refine ⟨Nat.succ_le_succ hlen, ?_, hdrop, hbegin⟩
      rw [List.take_succ_cons, htake, List.take_add_one, show (P.grammar.rhs r)[k]? = some a from hsymbol]
      simp

/-- A stack above the entry does not lie at the entry. -/
theorem Path.eq_nil (hS : C.Sound P) (h : C.Path P stack ss) (hentry : P.top stack = P.entry) :
    stack = [] := by
  cases h with
  | nil => rfl
  | cons hpath hedge =>
    subst hentry
    exact absurd hS.entry_items hedge.1

/-- A rule begins where its left side may. -/
theorem Path.opens (hS : C.Sound P) {r : R} (h : C.Path P stack ss) (hhas : C.Has P (P.top stack) r 0) :
    P.grammar.lhs r ∈ C.opens (P.top stack) := by
  rcases hhas with hitem | ⟨-, hopens⟩
  · cases h with
    | nil =>
      rw [Parser.top_nil, hS.entry_items] at hitem
      cases hitem
    | cons hpath hedge => exact absurd (hedge.2 _ hitem).1 (Nat.not_succ_le_zero 0)
  · exact hopens

/-- What a reduction leads to. -/
theorem Stands.reduce (hS : C.Sound P) {r : R} (h : C.Stands P stack ts)
    (hhas : C.Has P (P.top stack) r (P.grammar.rhs r).length) :
    (P.grammar.rhs r).length ≤ stack.length ∧
    let v := P.grammar.act r ((stack.take (P.grammar.rhs r).length).map Prod.snd).reverse
    let base := stack.drop (P.grammar.rhs r).length
    if P.accepts r then ∃ d vs, P.grammar.Derives (P.grammar.rhs r) ts vs d ∧ v = P.grammar.act r vs
    else C.Stands P ((P.goto (P.top base) (P.grammar.lhs r), v) :: base) ts ∧
      C.weight (P.goto (P.top base) (P.grammar.lhs r)) ≤ C.heavy (P.grammar.lhs r) := by
  obtain ⟨ss, d, hpath, hderives⟩ := h
  obtain ⟨hlen, htake, hdrop, hbegin⟩ := hpath.pop hS (Nat.le_refl _) hhas
  refine ⟨hlen, ?_⟩
  -- the states of the right side are popped, with their values
  have hss : ss.reverse = (ss.drop (P.grammar.rhs r).length).reverse ++ P.grammar.rhs r := by
    have hrhs := congrArg List.reverse htake
    rw [List.take_length, List.reverse_reverse] at hrhs
    rw [← List.take_append_drop (P.grammar.rhs r).length ss, List.reverse_append, hrhs,
      List.take_append_drop]
  have hvs : (stack.map Prod.snd).reverse = ((stack.drop (P.grammar.rhs r).length).map Prod.snd).reverse ++
      ((stack.take (P.grammar.rhs r).length).map Prod.snd).reverse := by
    rw [← List.reverse_append, ← List.map_append, List.take_append_drop]
  rw [hss, hvs] at hderives
  have hopens := hdrop.opens hS hbegin
  generalize ((stack.take (P.grammar.rhs r).length).map Prod.snd).reverse = vs at hderives ⊢
  generalize stack.drop (P.grammar.rhs r).length = base at hdrop hderives hopens ⊢
  generalize ss.drop (P.grammar.rhs r).length = ss' at hdrop hderives
  intro v base'
  split
  · -- the start rule: nothing is below
    rename_i haccepts
    rcases hS.opens hopens with ⟨hentry, -⟩ | ⟨r', k, -, hsymbol⟩
    · obtain rfl := hdrop.eq_nil hS hentry
      cases hdrop
      exact ⟨d, vs, hderives, rfl⟩
    · rw [hS.accepts.mp haccepts] at hsymbol
      exact absurd (List.mem_of_getElem? hsymbol) (hS.start_notMem r')
  · rename_i haccepts
    rcases hS.opens hopens with ⟨-, hstart⟩ | ⟨r', k, hhas', hsymbol⟩
    · exact absurd (hS.accepts.mpr hstart) haccepts
    · obtain ⟨hedge, hweight⟩ := hS.goto hhas' hsymbol hS.lhs_terminal
      obtain ⟨e, he⟩ := hderives.reduce
      have hlen : ss'.reverse.length = (base.map Prod.snd).reverse.length := by
        simp [hdrop.length_eq]
      rw [hlen, List.take_left, List.drop_left] at he
      refine ⟨⟨_, e, .cons hdrop hedge, ?_⟩, hweight⟩
      rw [List.reverse_cons, List.map_cons, List.reverse_cons]
      exact he

/-- A shift adds its token to what the stack stands for. -/
theorem Stands.shift (hS : C.Sound P) {q : Q} {t : T} {a : S} (h : C.Stands P stack ts)
    (heager : P.eager (P.top stack) = none) (hkind : P.grammar.kind t = some a)
    (haction : P.action (P.top stack) a = .shift q) :
    C.Stands P ((q, P.grammar.value t) :: stack) (ts ++ [t]) := by
  obtain ⟨ss, d, hpath, hderives⟩ := h
  have hmore := hderives.append (.token hkind .nil)
  rw [← List.reverse_cons, ← List.reverse_cons] at hmore
  exact ⟨_, _, .cons hpath (hS.shift (hS.terminal hkind) heager haction), hmore⟩

/-- The empty stack stands for no tokens. -/
theorem Stands.nil : C.Stands P [] [] := ⟨[], 0, .nil, .nil⟩

/-- How many steps a configuration may still take. -/
def fuel (C : Report S R Q) (P : Parser S R Q T V) (c : Parser.Config Q T V) : Nat :=
  c.input.length * (C.maxWeight + 2) + c.stack.length + C.weight (P.top c.stack)

variable (C P) in
/-- What a step may lead to, when the tokens before it are `ts`. -/
def After (c : Parser.Config Q T V) (ts : List T) : Parser.Config Q T V ⊕ Parser.Outcome T V → Prop
  | .inl c' => C.fuel P c' < C.fuel P c ∧ ∃ us, c.input = us ++ c'.input ∧ C.Stands P c'.stack (ts ++ us)
  | .inr (.accepted v input) => input = c.input ∧ ∃ r d vs, P.accepts r = true ∧
      P.grammar.Derives (P.grammar.rhs r) ts vs d ∧ v = P.grammar.act r vs
  | .inr .exhausted => ∃ stack us input, c.input = us ++ input ∧ C.Stands P stack (ts ++ us) ∧
      P.limit < stack.length
  | .inr _ => True

/-- A push after which the stack stands for what was read, or no room for it. -/
theorem After.push {c c₀ : Parser.Config Q T V} {q : Q} {v : V}
    (h : C.After P c ts (.inl ⟨(q, v) :: c₀.stack, c₀.input⟩)) : C.After P c ts (P.push c₀ q v) := by
  unfold Parser.push
  split
  · rename_i hfull
    obtain ⟨-, us, hus, hstands⟩ := h
    exact ⟨_, us, _, hus, hstands, hfull⟩
  · exact h

/-- A reduction changes the stack but not the tokens it stands for. -/
theorem Stands.after_reduce (hS : C.Sound P) {c : Parser.Config Q T V} {r : R} (h : C.Stands P c.stack ts)
    (hhas : C.Has P (P.top c.stack) r (P.grammar.rhs r).length) : C.After P c ts (P.reduce c r) := by
  obtain ⟨hlen, hnext⟩ := h.reduce hS hhas
  unfold Parser.reduce
  cases haccepts : P.accepts r with
  | true =>
    simp only [haccepts, if_true] at hnext ⊢
    obtain ⟨d, vs, hderives, hv⟩ := hnext
    exact ⟨rfl, r, d, vs, haccepts, hderives, hv⟩
  | false =>
    simp only [haccepts, Bool.false_eq_true, if_false] at hnext ⊢
    have hweight := hS.weight_lt hhas haccepts
    have hnew := hnext.2
    refine .push ⟨?_, [], rfl, by rw [List.append_nil]; exact hnext.1⟩
    simp only [fuel, List.length_cons, List.length_drop, Parser.top_cons] at hnew ⊢
    omega

/-- A step reads on, or reduces; or it ends the parse, and what it accepts was derived. -/
theorem Stands.step (hS : C.Sound P) {c : Parser.Config Q T V} (h : C.Stands P c.stack ts) :
    C.After P c ts (P.step c) := by
  unfold Parser.step
  cases heager : P.eager (P.top c.stack) with
  | some r => exact h.after_reduce hS (hS.eager heager)
  | none =>
    simp only
    cases hinput : c.input with
    | nil => trivial
    | cons t input =>
      simp only
      cases hkind : P.grammar.kind t with
      | none => trivial
      | some a =>
        simp only
        cases haction : P.action (P.top c.stack) a with
        | shift q =>
          have hweight := hS.weight_le (q := q)
          refine .push ⟨?_, [t], hinput, h.shift hS heager hkind haction⟩
          simp only [fuel, List.length_cons, Parser.top_cons, hinput, Nat.add_mul]
          omega
        | reduce r => exact h.after_reduce hS (hS.reduce (hS.terminal hkind) heager haction)
        | reject => trivial

/-- What is accepted was derived from a rule of the start symbol. -/
theorem Sound.run_derives (hS : C.Sound P) {n : Nat} {c : Parser.Config Q T V} {v : V} {input : List T}
    (h : C.Stands P c.stack ts) (hrun : P.run n c = some (.accepted v input)) :
    ∃ us r d vs, c.input = us ++ input ∧ P.accepts r = true ∧
      P.grammar.Derives (P.grammar.rhs r) (ts ++ us) vs d ∧ v = P.grammar.act r vs := by
  induction n generalizing c ts with
  | zero => cases hrun
  | succ n ih =>
    have hstep := h.step hS
    rw [Parser.run] at hrun
    cases hc : P.step c with
    | inl c' =>
      simp only [hc] at hrun hstep
      obtain ⟨-, us, hus, hstands⟩ := hstep
      obtain ⟨us', r, d, vs, hus', haccepts, hderives, hv⟩ := ih hstands hrun
      refine ⟨us ++ us', r, d, vs, ?_, haccepts, ?_, hv⟩
      · rw [hus, hus', List.append_assoc]
      · rw [← List.append_assoc]
        exact hderives
    | inr o =>
      simp only [hc, Option.some.injEq] at hrun hstep
      subst hrun
      obtain ⟨rfl, r, d, vs, haccepts, hderives, hv⟩ := hstep
      exact ⟨[], r, d, vs, rfl, haccepts, by rw [List.append_nil]; exact hderives, hv⟩

/-- A parse is given up with a stack that stands for tokens and is higher than the limit. -/
theorem Sound.run_exhausted (hS : C.Sound P) {n : Nat} {c : Parser.Config Q T V}
    (h : C.Stands P c.stack ts) (hrun : P.run n c = some .exhausted) :
    ∃ stack us input, c.input = us ++ input ∧ C.Stands P stack (ts ++ us) ∧ P.limit < stack.length := by
  induction n generalizing c ts with
  | zero => cases hrun
  | succ n ih =>
    have hstep := h.step hS
    rw [Parser.run] at hrun
    cases hc : P.step c with
    | inl c' =>
      simp only [hc] at hrun hstep
      obtain ⟨-, us, hus, hstands⟩ := hstep
      obtain ⟨stack, us', input, hus', hstands', hfull⟩ := ih hstands hrun
      refine ⟨stack, us ++ us', input, ?_, ?_, hfull⟩
      · rw [hus, hus', List.append_assoc]
      · rw [← List.append_assoc]
        exact hstands'
    | inr o =>
      simp only [hc, Option.some.injEq] at hrun hstep
      subst hrun
      exact hstep

/-- Every run ends. -/
theorem Sound.run_total (hS : C.Sound P) {n : Nat} {c : Parser.Config Q T V} (h : C.Stands P c.stack ts)
    (hn : C.fuel P c < n) : ∃ o, P.run n c = some o := by
  induction n generalizing c ts with
  | zero => exact absurd hn (Nat.not_lt_zero _)
  | succ n ih =>
    have hstep := h.step hS
    rw [Parser.run]
    cases hc : P.step c with
    | inl c' =>
      simp only [hc] at hstep ⊢
      obtain ⟨hfuel, us, -, hstands⟩ := hstep
      exact ih hstands (by omega)
    | inr o => exact ⟨o, rfl⟩

/-! ### What is derived -/

/-- What follows a sequence that may be empty is among its first symbols. -/
theorem firstOf_follow {ss follow : List S} (h : ∀ a ∈ ss, C.nullable a = true) :
    follow ⊆ C.firstOf ss follow := by
  induction ss with
  | nil => exact List.Subset.refl _
  | cons a ss ih =>
    rw [firstOf, if_pos (h a List.mem_cons_self)]
    have htail := ih fun b hb => h b (List.mem_cons_of_mem _ hb)
    exact List.Subset.trans htail (List.subset_append_right _ _)

/-- What may follow only adds first symbols. -/
theorem firstOf_mono {ss follow : List S} : C.firstOf ss [] ⊆ C.firstOf ss follow := by
  induction ss with
  | nil => exact List.nil_subset _
  | cons a ss ih =>
    unfold firstOf
    refine List.append_subset.mpr
      ⟨List.subset_append_left _ _, List.Subset.trans ?_ (List.subset_append_right _ _)⟩
    split
    · exact ih
    · exact List.Subset.refl _

/-- Symbols that derive no token may all vanish. -/
theorem Complete.nullable_of (hC : C.Complete P) {vs : List V} {d : Nat} (h : P.grammar.Derives ss ts vs d)
    (hts : ts = []) : ∀ a ∈ ss, C.nullable a = true := by
  induction h with
  | nil => exact fun a ha => nomatch ha
  | token => cases hts
  | @rule r ss ts₁ ts₂ vs₁ vs₂ d₁ d₂ hrhs hrest ihrhs ihrest =>
    obtain ⟨h₁, h₂⟩ := List.append_eq_nil_iff.mp hts
    intro a ha
    rcases List.mem_cons.mp ha with rfl | ha
    · exact hC.nullable (ihrhs h₁)
    · exact ihrest h₂ a ha

/-- The first token of what symbols derive is one of their first tokens. -/
theorem Complete.first_of (hC : C.Complete P) {vs : List V} {d : Nat} (h : P.grammar.Derives ss ts vs d)
    {t : T} {us : List T} (hts : ts = t :: us) : ∃ a, P.grammar.kind t = some a ∧ a ∈ C.firstOf ss [] := by
  induction h generalizing us with
  | nil => cases hts
  | @token a t' ss ts vs d hkind hrest ih =>
    obtain ⟨rfl, -⟩ := List.cons.inj hts
    refine ⟨a, hkind, List.mem_append_left _ ?_⟩
    rw [if_pos (hC.terminal hkind)]
    exact List.mem_singleton_self a
  | @rule r ss ts₁ ts₂ vs₁ vs₂ d₁ d₂ hrhs hrest ihrhs ihrest =>
    rw [firstOf, if_neg (by rw [hC.lhs_terminal]; exact Bool.false_ne_true)]
    cases ts₁ with
    | nil =>
      obtain ⟨a, hkind, ha⟩ := ihrest hts
      refine ⟨a, hkind, List.mem_append_right _ ?_⟩
      rw [if_pos (hC.nullable (hC.nullable_of hrhs rfl))]
      exact ha
    | cons t' ts₁ =>
      obtain ⟨rfl, -⟩ := List.cons.inj hts
      obtain ⟨a, hkind, ha⟩ := ihrhs rfl
      exact ⟨a, hkind, List.mem_append_left _ (hC.first ha)⟩

/-- The next token is one of these. -/
def Starts (P : Parser S R Q T V) (follow : List S) (ts : List T) : Prop :=
  ∃ t us a, ts = t :: us ∧ P.grammar.kind t = some a ∧ a ∈ follow

/-- A larger set of symbols that may follow. -/
theorem Starts.mono {follow follow' : List S} (h : Starts P follow ts) (hsub : follow ⊆ follow') :
    Starts P follow' ts := by
  obtain ⟨t, us, a, hts, hkind, ha⟩ := h
  exact ⟨t, us, a, hts, hkind, hsub ha⟩

/-- The symbols can be parsed before these tokens: the tokens go on in a way that the report knows of, or
    need not be looked at. -/
def Ready (C : Report S R Q) (P : Parser S R Q T V) (follow : List S) (ss : List S) (ts : List T) : Prop :=
  ss = [] ∨ (∃ a, ss.getLast? = some a ∧ C.terminal a = true) ∨ Starts P follow ts

/-- A larger set of symbols that may follow. -/
theorem Ready.mono {follow follow' : List S} (h : C.Ready P follow ss ts) (hsub : follow ⊆ follow') :
    C.Ready P follow' ss ts := h.imp_right fun h => h.imp_right fun h => h.mono hsub

/-- The rest of a right side is still possible. -/
theorem Ready.tail {follow : List S} {a : S} (h : C.Ready P follow (a :: ss) ts) :
    C.Ready P follow ss ts := by
  rcases h with h | ⟨b, hb, hterminal⟩ | h
  · cases h
  · cases ss with
    | nil => exact .inl rfl
    | cons a' ss => exact .inr (.inl ⟨b, List.getLast?_cons_cons ▸ hb, hterminal⟩)
  · exact .inr (.inr h)

/-- Behind a symbol that is no token, the tokens go on in a way that the report knows of. -/
theorem Ready.starts (hC : C.Complete P) {follow : List S} {a : S} {us : List T} {vs : List V} {d : Nat}
    (h : C.Ready P follow (a :: ss) us) (ha : C.terminal a = false) (hss : P.grammar.Derives ss ts vs d) :
    Starts P (C.firstOf ss follow) (ts ++ us) := by
  cases hts : ts with
  | nil =>
    have hnull := hC.nullable_of hss hts
    rcases h with h | ⟨b, hb, hterminal⟩ | h
    · cases h
    · have hmem : b ∈ a :: ss := List.mem_of_getLast? hb
      rcases List.mem_cons.mp hmem with rfl | hmem
      · rw [ha] at hterminal
        cases hterminal
      · have hvanish := hnull b hmem
        rw [hC.terminal_nullable hterminal] at hvanish
        cases hvanish
    · exact h.mono (firstOf_follow hnull)
  | cons t ts' =>
    obtain ⟨b, hkind, hb⟩ := hC.first_of hss hts
    exact ⟨t, ts' ++ us, b, rfl, hkind, firstOf_mono hb⟩

/-- A state where a rule is complete reduces it, when the tokens go on as the report knows. -/
theorem Complete.step_finish (hC : C.Complete P) {r : R} {input : List T}
    (hhas : C.Has P (P.top stack) r (P.grammar.rhs r).length)
    (h : P.accepts r = true ∨ Starts P (C.looks (P.top stack) r) input) :
    P.step ⟨stack, input⟩ = P.reduce ⟨stack, input⟩ r := by
  rcases hC.finish hhas with heager | ⟨heager, haccepts, haction⟩
  · exact Parser.step_eager heager
  · rcases h with h | ⟨t, us, a, rfl, hkind, ha⟩
    · rw [haccepts] at h
      cases h
    · rw [Parser.step_token heager hkind, haction a ha]

/-- The automaton goes through what the rest of a rule derives, or finds no room for it.  The induction is
    on the derivation, over all stacks. -/
theorem Complete.goes (hC : C.Complete P) {vs : List V} {d : Nat} (h : P.grammar.Derives ss ts vs d)
    (stack : List (Q × V)) (us : List T) {r : R} {k : Nat} (hlen : stack.length ≤ P.limit)
    (hhas : C.Has P (P.top stack) r k)
    (hk : k ≤ (P.grammar.rhs r).length) (hss : (P.grammar.rhs r).drop k = ss)
    (hready : C.Ready P (C.looks (P.top stack) r) ss us) :
    (stack.length + d ≤ P.limit → ∃ new : List (Q × V), new.map Prod.snd = vs.reverse ∧
      C.Has P (P.top (new ++ stack)) r (P.grammar.rhs r).length ∧
      C.looks (P.top stack) r ⊆ C.looks (P.top (new ++ stack)) r ∧
      P.Goes ⟨stack, ts ++ us⟩ ⟨new ++ stack, us⟩) ∧
    (P.limit < stack.length + d → P.Ends ⟨stack, ts ++ us⟩ .exhausted) := by
  induction h generalizing stack us r k with
  | nil =>
    have hend : (P.grammar.rhs r).length = k := Nat.le_antisymm (List.drop_eq_nil_iff.mp hss) hk
    refine ⟨fun _ => ⟨[], rfl, ?_, List.Subset.refl _, .refl _⟩, fun hover => absurd hlen (by omega)⟩
    rw [hend]
    exact hhas
  | @token a t ss ts vs d hkind hrest ih =>
    have hsymbol : (P.grammar.rhs r)[k]? = some a := by rw [← List.head?_drop, hss]; rfl
    have hrest' : (P.grammar.rhs r).drop (k + 1) = ss := by rw [← List.tail_drop, hss]; rfl
    obtain ⟨heager, q, haction, hitem, hlooks⟩ := hC.advance hhas hsymbol (hC.terminal hkind)
    have hstep : P.step ⟨stack, t :: (ts ++ us)⟩ = P.push ⟨stack, ts ++ us⟩ q (P.grammar.value t) := by
      rw [Parser.step_token heager hkind, haction]
    have hk' : k + 1 ≤ (P.grammar.rhs r).length := (List.getElem?_eq_some_iff.mp hsymbol).1
    have hnext := fun hroom : stack.length + 1 ≤ P.limit =>
      ih ((q, P.grammar.value t) :: stack) us hroom (.inl hitem) hk' hrest' (hready.tail.mono hlooks)
    constructor
    · intro hroom
      have hone : stack.length + 1 ≤ P.limit := by omega
      obtain ⟨new, hvs, hhas', hlooks', hgoes⟩ :=
        (hnext hone).1 (by rw [List.length_cons]; omega)
      refine ⟨new ++ [(q, P.grammar.value t)], ?_, ?_, ?_, ?_⟩
      · rw [List.map_append, hvs, List.reverse_cons]
        rfl
      · rw [List.append_assoc]
        exact hhas'
      · rw [List.append_assoc]
        exact List.Subset.trans hlooks hlooks'
      · rw [List.append_assoc]
        exact (Parser.Goes.step (hstep.trans (Parser.push_of_le hone))).trans hgoes
    · intro hover
      by_cases hone : stack.length + 1 ≤ P.limit
      · exact (Parser.Goes.step (hstep.trans (Parser.push_of_le hone))).ends
          ((hnext hone).2 (by rw [List.length_cons]; omega))
      · exact .step (hstep.trans (Parser.push_of_lt (Nat.not_le.mp hone)))
  | @rule r' ss ts₁ ts₂ vs₁ vs₂ d e hrhs hrest ihrhs ihrest =>
    have hsymbol : (P.grammar.rhs r)[k]? = some (P.grammar.lhs r') := by rw [← List.head?_drop, hss]; rfl
    have hrest' : (P.grammar.rhs r).drop (k + 1) = ss := by rw [← List.tail_drop, hss]; rfl
    obtain ⟨hitem, hlooks, hopens, hfollow⟩ := hC.cover hhas hsymbol hC.lhs_terminal
    have hk' : k + 1 ≤ (P.grammar.rhs r).length := (List.getElem?_eq_some_iff.mp hsymbol).1
    have hstarts : Starts P (C.looks (P.top stack) r') (ts₂ ++ us) :=
      (hready.starts hC hC.lhs_terminal hrest).mono (hrest' ▸ hfollow r' rfl)
    have haccepts : P.accepts r' = false := by
      refine Bool.eq_false_iff.mpr fun haccepts => hC.start_notMem r ?_
      rw [← hC.accepts.mp haccepts]
      exact List.mem_of_getElem? hsymbol
    rw [List.append_assoc]
    have hinner := ihrhs stack (ts₂ ++ us) hlen (.inr ⟨rfl, hopens⟩) (Nat.zero_le _) List.drop_zero
      (.inr (.inr hstarts))
    -- the right side is gone through, and its reduction is a push on the old stack
    have hcross : stack.length + d ≤ P.limit → ∃ c, P.Goes ⟨stack, ts₁ ++ (ts₂ ++ us)⟩ c ∧
        P.step c =
          P.push ⟨stack, ts₂ ++ us⟩ (P.goto (P.top stack) (P.grammar.lhs r')) (P.grammar.act r' vs₁) := by
      intro hroom
      obtain ⟨new, hvs, hhas', hlooks', hgoes⟩ := hinner.1 hroom
      refine ⟨_, hgoes, ?_⟩
      have hlength : new.length = (P.grammar.rhs r').length := by
        have hsame := congrArg List.length hvs
        rw [List.length_map, List.length_reverse, hrhs.length_eq] at hsame
        exact hsame
      rw [hC.step_finish hhas' (.inr (hstarts.mono hlooks')), Parser.reduce_append hlength hvs, haccepts]
      rfl
    have hnext := fun hroom : stack.length + 1 ≤ P.limit =>
      ihrest ((P.goto (P.top stack) (P.grammar.lhs r'), P.grammar.act r' vs₁) :: stack) us hroom
        (.inl hitem) hk' hrest' (hready.tail.mono hlooks)
    constructor
    · intro hroom
      have hone : stack.length + 1 ≤ P.limit := by omega
      obtain ⟨c, hgoes, hstep⟩ := hcross (by omega)
      obtain ⟨new, hvs, hhas', hlooks', hgoes'⟩ := (hnext hone).1 (by rw [List.length_cons]; omega)
      refine ⟨new ++ [(P.goto (P.top stack) (P.grammar.lhs r'), P.grammar.act r' vs₁)], ?_, ?_, ?_, ?_⟩
      · rw [List.map_append, hvs, List.reverse_cons]
        rfl
      · rw [List.append_assoc]
        exact hhas'
      · rw [List.append_assoc]
        exact List.Subset.trans hlooks hlooks'
      · rw [List.append_assoc]
        exact (hgoes.trans (.step (hstep.trans (Parser.push_of_le hone)))).trans hgoes'
    · intro hover
      by_cases hinside : stack.length + d ≤ P.limit
      · obtain ⟨c, hgoes, hstep⟩ := hcross hinside
        by_cases hone : stack.length + 1 ≤ P.limit
        · exact (hgoes.trans (.step (hstep.trans (Parser.push_of_le hone)))).ends
            ((hnext hone).2 (by rw [List.length_cons]; omega))
        · exact hgoes.ends (.step (hstep.trans (Parser.push_of_lt (Nat.not_le.mp hone))))
      · exact hinner.2 (Nat.not_le.mp hinside)

/-- What a rule of the start symbol derives is accepted with its value, whatever comes behind it, if the
    stack has room for it; if not, the parse is given up. -/
theorem Complete.run_accepts (hC : C.Complete P) {r : R} {vs : List V} {d : Nat}
    (h : P.grammar.Derives (P.grammar.rhs r) ts vs d) (haccepts : P.accepts r = true) (us : List T) :
    P.Ends ⟨[], ts ++ us⟩ (if d ≤ P.limit then .accepted (P.grammar.act r vs) us else .exhausted) := by
  have hhas : C.Has P (P.top []) r 0 := .inr ⟨rfl, by rw [hC.accepts.mp haccepts]; exact hC.entry_opens⟩
  have hruns := hC.goes h [] us (Nat.zero_le _) hhas (Nat.zero_le _) List.drop_zero
    (.inr (.inl (hC.start_last haccepts)))
  rw [List.length_nil, Nat.zero_add] at hruns
  split
  · rename_i hroom
    obtain ⟨new, hvs, hhas', -, hgoes⟩ := hruns.1 hroom
    refine hgoes.ends (.step ?_)
    have hlength : new.length = (P.grammar.rhs r).length := by
      have hsame := congrArg List.length hvs
      rw [List.length_map, List.length_reverse, h.length_eq] at hsame
      exact hsame
    rw [hC.step_finish hhas' (.inl haccepts), Parser.reduce_append hlength hvs, haccepts]
    rfl
  · rename_i hroom
    exact hruns.2 (Nat.not_le.mp hroom)

/-- The height of the stack plays no part in the report. -/
theorem Complete.withLimit (hC : C.Complete P) (n : Nat) : C.Complete { P with limit := n } :=
  ⟨⟨hC.entry_items, hC.terminal, hC.shift, hC.eager, hC.reduce, hC.goto, hC.opens, hC.accepts,
    hC.start_notMem, hC.lhs_terminal, hC.weight_le, hC.weight_lt⟩, hC.entry_opens, hC.start_last, hC.advance,
    hC.cover, hC.finish, hC.terminal_nullable, hC.nullable, @fun r => hC.first (r := r)⟩

/-- Tokens have one meaning: rules of the start symbol that derive a beginning of the same tokens derive the
    same beginning, with the same value and the same height. -/
theorem Complete.derives_unique (hC : C.Complete P) {r r' : R} {ts ts' us us' : List T} {vs vs' : List V}
    {d d' : Nat} (h : P.grammar.Derives (P.grammar.rhs r) ts vs d) (haccepts : P.accepts r = true)
    (h' : P.grammar.Derives (P.grammar.rhs r') ts' vs' d') (haccepts' : P.accepts r' = true)
    (heq : ts ++ us = ts' ++ us') : ts = ts' ∧ P.grammar.act r vs = P.grammar.act r' vs' ∧ d = d' := by
  have hboth := fun n => (hC.withLimit n).run_accepts h haccepts us
  have hboth' := fun n => (hC.withLimit n).run_accepts h' haccepts' us'
  have hsame : ∀ n, (if d ≤ n then Parser.Outcome.accepted (P.grammar.act r vs) us else .exhausted) =
      if d' ≤ n then Parser.Outcome.accepted (P.grammar.act r' vs') us' else .exhausted := by
    intro n
    obtain ⟨m, hm⟩ := hboth n
    exact (hboth' n).run_eq (heq ▸ hm 0)
  have hdd : ∀ n, d ≤ n ↔ d' ≤ n := by
    intro n
    have hn := hsame n
    constructor
    · intro hd
      by_contra hd'
      rw [if_pos hd, if_neg hd'] at hn
      cases hn
    · intro hd'
      by_contra hd
      rw [if_neg hd, if_pos hd'] at hn
      cases hn
  have hd : d = d' := Nat.le_antisymm ((hdd d').mpr (Nat.le_refl _)) ((hdd d).mp (Nat.le_refl _))
  have hlast := hsame d
  rw [if_pos (Nat.le_refl d), if_pos (hd ▸ Nat.le_refl d), Parser.Outcome.accepted.injEq] at hlast
  obtain ⟨hact, rfl⟩ := hlast
  exact ⟨List.append_cancel_right heq, hact, hd⟩

end Report

end Rmdb.Lib
