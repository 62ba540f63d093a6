import Mathlib.Computability.RegularExpressions

namespace Rmdb.Lib

/-!
# Scanners

A list of rules, each a pattern and an action.  The scanner takes the longest beginning of the text that a
pattern matches, and the first of the rules that match it.  A rule is active in some start conditions only.

* `choice`, `word`, `many` — patterns from patterns;
* `Scanner.scan` — the tokens of a text;
* `Scanner.Cuts` — a word that is cut off the rest of the text, with the rule that takes it;
* `Scanner.scan_of_cuts` — what is scanned of a word that is cut off.
-/

open RegularExpression

/-! ### Patterns -/

section Patterns

variable {α : Type} {P : RegularExpression α} {w : List α}

/-- One of some patterns. -/
def choice (l : List (RegularExpression α)) : RegularExpression α := l.foldr (· + ·) 0

/-- One of some letters. -/
def anyOf (l : List α) : RegularExpression α := choice (l.map char)

/-- A word. -/
def word (w : List α) : RegularExpression α := (w.map char).foldr (· * ·) 1

/-- One pattern behind the other. -/
def sequence (l : List (RegularExpression α)) : RegularExpression α := l.foldr (· * ·) 1

/-- At least once. -/
def many (P : RegularExpression α) : RegularExpression α := P * star P

/-- One of several patterns. -/
theorem mem_choice {l : List (RegularExpression α)} : w ∈ (choice l).matches' ↔ ∃ P ∈ l, w ∈ P.matches' := by
  induction l with
  | nil => exact ⟨fun h => absurd h (Language.notMem_zero w), fun ⟨a, ha, _⟩ => nomatch ha⟩
  | cons P l ih =>
    rw [choice, List.foldr_cons, matches'_add, Language.mem_add, List.exists_mem_cons_iff]
    exact or_congr_right ih

/-- One of several letters. -/
theorem mem_anyOf {l : List α} : w ∈ (anyOf l).matches' ↔ ∃ a ∈ l, w = [a] := by
  rw [anyOf, mem_choice]
  constructor
  · rintro ⟨P, hP, hw⟩
    obtain ⟨a, ha, rfl⟩ := List.mem_map.mp hP
    exact ⟨a, ha, hw⟩
  · rintro ⟨a, ha, hw⟩
    exact ⟨char a, List.mem_map_of_mem ha, hw⟩

/-- A fixed text. -/
theorem mem_word {v : List α} : w ∈ (word v).matches' ↔ w = v := by
  induction v generalizing w with
  | nil => exact Language.mem_one w
  | cons a v ih =>
    rw [word, List.map_cons, List.foldr_cons, matches'_mul, Language.mem_mul]
    change (∃ u ∈ (char a).matches', ∃ x ∈ (word v).matches', u ++ x = w) ↔ _
    constructor
    · rintro ⟨u, hu, x, hx, rfl⟩
      rw [ih.mp hx, show u = [a] from hu]
      rfl
    · rintro rfl
      exact ⟨[a], rfl, v, ih.mpr rfl, rfl⟩

end Patterns

/-! ### Rules -/

/-- A rule: the states it is active in, its pattern, and what it does with a text. -/
structure ScanRule (α σ τ : Type) where
  active : σ → Bool
  pattern : RegularExpression α
  /-- The next state, and the token that is returned, if there is one. -/
  action : List α → σ → σ × Option τ

namespace Scanner

variable {α σ τ : Type} [DecidableEq α] (rules : List (ScanRule α σ τ))

/-- The first rule that matches the text. -/
def ruleFor (s : σ) (w : List α) : Option (ScanRule α σ τ) :=
  rules.find? fun r => r.active s && r.pattern.rmatch w

/-- The longest beginning of at most this length that a rule matches, and the rule. -/
def longest (s : σ) (text : List α) : Nat → Option (ScanRule α σ τ × Nat)
  | 0 => none
  | n + 1 =>
    match ruleFor rules s (text.take (n + 1)) with
    | some r => some (r, n + 1)
    | none => longest s text n

/-- The tokens up to the end of the text, where there is one more, and the state there.  What no rule
    matches is left out. -/
def scanFrom (eof : τ) : Nat → σ → List α → List τ × σ
  | 0, s, _ => ([], s)
  | _ + 1, s, [] => ([eof], s)
  | fuel + 1, s, a :: text =>
    match longest rules s (a :: text) (text.length + 1) with
    | none => scanFrom eof fuel s text
    | some (r, n) =>
      let next := r.action ((a :: text).take n) s
      let rest := scanFrom eof fuel next.1 ((a :: text).drop n)
      (next.2.toList ++ rest.1, rest.2)

/-- The tokens of a text. -/
def scan (eof : τ) (s : σ) (text : List α) : List τ × σ := scanFrom rules eof (text.length + 1) s text

variable {rules} {s s' : σ} {w text rest : List α} {r : ScanRule α σ τ} {eof : τ}

/-- Rules further up come first. -/
theorem ruleFor_append (rules' : List (ScanRule α σ τ)) :
    ruleFor (rules ++ rules') s w = (ruleFor rules s w).or (ruleFor rules' s w) := List.find?_append

/-- No rule matches. -/
theorem ruleFor_eq_none (h : ∀ r ∈ rules, r.active s = true → w ∉ r.pattern.matches') :
    ruleFor rules s w = none := by
  refine List.find?_eq_none.mpr fun r hr hmatch => ?_
  obtain ⟨hactive, hmatch⟩ := Bool.and_eq_true_iff.mp hmatch
  exact h r hr hactive ((r.pattern.rmatch_iff_matches' w).mp hmatch)

/-- The first rule matches. -/
theorem ruleFor_cons_of_mem (hactive : r.active s = true) (h : w ∈ r.pattern.matches') :
    ruleFor (r :: rules) s w = some r := by
  have hmatch : r.pattern.rmatch w = true := (r.pattern.rmatch_iff_matches' w).mpr h
  exact List.find?_cons_of_pos (by rw [hactive, hmatch]; rfl)

/-- The first rule does not. -/
theorem ruleFor_cons_of_notMem (h : r.active s = true → w ∉ r.pattern.matches') :
    ruleFor (r :: rules) s w = ruleFor rules s w := by
  refine List.find?_cons_of_neg fun hmatch => ?_
  obtain ⟨hactive, hmatch⟩ := Bool.and_eq_true_iff.mp hmatch
  exact h hactive ((r.pattern.rmatch_iff_matches' w).mp hmatch)

/-- A match is not empty. -/
theorem longest_pos {n : Nat} {p : ScanRule α σ τ × Nat} (h : longest rules s text n = some p) :
    1 ≤ p.2 ∧ p.2 ≤ n := by
  induction n with
  | zero => cases h
  | succ n ih =>
    rw [longest] at h
    split at h
    · obtain rfl := Option.some.inj h
      exact ⟨Nat.succ_le_succ (Nat.zero_le n), Nat.le_refl _⟩
    · exact ⟨(ih h).1, (ih h).2.trans (Nat.le_succ n)⟩

/-- More fuel than there is text changes nothing. -/
theorem scanFrom_eq {n m : Nat} (hn : text.length < n) (hm : text.length < m) :
    scanFrom rules eof n s text = scanFrom rules eof m s text := by
  induction n generalizing m s text with
  | zero => exact absurd hn (Nat.not_lt_zero _)
  | succ n ih =>
    obtain ⟨m, rfl⟩ := Nat.exists_eq_add_of_lt (Nat.zero_lt_of_lt hm)
    rw [Nat.zero_add] at hm ⊢
    cases text with
    | nil => rfl
    | cons a text =>
      rw [List.length_cons] at hn hm
      rw [scanFrom, scanFrom]
      cases h : longest rules s (a :: text) (text.length + 1) with
      | none => exact ih (by omega) (by omega)
      | some p =>
        -- a token takes at least one letter, so both fuels are enough for the rest
        have hpos := (longest_pos h).1
        have hdrop : ((a :: text).drop p.2).length ≤ text.length := by
          rw [List.length_drop, List.length_cons]
          omega
        dsimp only
        rw [ih (m := m) (by omega) (by omega)]

/-- The word is cut off the rest of the text: a rule matches the word, and none matches more of the text. -/
structure Cuts (rules : List (ScanRule α σ τ)) (s : σ) (w rest : List α) (r : ScanRule α σ τ) : Prop where
  ne_nil : w ≠ []
  rule : ruleFor rules s w = some r
  longest : ∀ u, u ≠ [] → u <+: rest → ruleFor rules s (w ++ u) = none

/-- The longest match is the word that is cut off. -/
theorem Cuts.longest_eq (h : Cuts rules s w rest r) {n : Nat} (hn : w.length ≤ n)
    (hlen : n ≤ (w ++ rest).length) : Scanner.longest rules s (w ++ rest) n = some (r, w.length) := by
  induction n with
  | zero => exact absurd (List.eq_nil_of_length_eq_zero (Nat.le_zero.mp hn)) h.ne_nil
  | succ n ih =>
    rw [Scanner.longest]
    rcases Nat.lt_or_ge w.length (n + 1) with hlt | hge
    -- a longer beginning is the word with some of the rest
    · have hu : (w ++ rest).take (n + 1) = w ++ rest.take (n + 1 - w.length) := by
        rw [List.take_append, List.take_of_length_le hn]
      have hne : rest.take (n + 1 - w.length) ≠ [] := by
        intro hnil
        have hlength := congrArg List.length hnil
        rw [List.length_take, List.length_nil] at hlength
        rw [List.length_append] at hlen
        omega
      rw [hu, h.longest _ hne (List.take_prefix _ _)]
      exact ih (by omega) (by omega)
    -- the word itself
    · have heq : w.length = n + 1 := Nat.le_antisymm hn hge
      rw [← heq, List.take_left, h.rule]

/-- What is scanned of a word that is cut off. -/
theorem scan_of_cuts (h : Cuts rules s w rest r) :
    scan rules eof s (w ++ rest) = (((r.action w s).2.toList ++ (scan rules eof (r.action w s).1 rest).1),
      (scan rules eof (r.action w s).1 rest).2) := by
  have hlongest := h.longest_eq (n := (w ++ rest).length) (by rw [List.length_append]; omega) (Nat.le_refl _)
  obtain ⟨a, w, rfl⟩ := List.exists_cons_of_ne_nil h.ne_nil
  have hdrop : (a :: (w ++ rest)).drop (a :: w).length = rest := List.drop_left
  have htake : (a :: (w ++ rest)).take (a :: w).length = a :: w := List.take_left
  rw [List.cons_append, List.length_cons] at hlongest
  rw [scan, List.cons_append, List.length_cons, scanFrom, hlongest]
  dsimp only
  rw [hdrop, htake, scanFrom_eq (m := rest.length + 1) (by rw [List.length_append]; omega)
    (Nat.lt_succ_self _)]
  rfl

end Scanner

end Rmdb.Lib
