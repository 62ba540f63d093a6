import Mathlib.Data.List.Basic

namespace Rmdb.Lib

/-!
# Joined words

Words that are joined with a separator between them, where a word begins with one of some initial letters
and the separator is none of these.  The separator may be inside a word, so the words cannot always be told
from the joined text.

* `joined` — a first word, and others behind it;
* `Splits` — a word that could be two: it has the separator before an initial letter;
* `first_cut` — how two ways to cut one text differ;
* `joined_inj` — words that do not split can be told from the text;
* `joined_pair_unique` — two such words, among all words.
-/

variable {α : Type*} (sep : α) (initial : α → Prop)

/-- A word begins with an initial letter. -/
def IsWord (w : List α) : Prop := ∃ c cs, w = c :: cs ∧ initial c

/-- The first word, and the others with the separator before each. -/
def joined (w : List α) (ws : List (List α)) : List α := w ++ ws.flatMap fun x => sep :: x

/-- There is a word behind a separator. -/
def Splits (w : List α) : Prop := ∃ u v, w = u ++ sep :: v ∧ IsWord initial v

variable {sep initial}

@[simp] theorem joined_nil (w : List α) : joined sep w [] = w := by simp [joined]

theorem joined_cons (w x : List α) (ws : List (List α)) :
    joined sep w (x :: ws) = w ++ sep :: joined sep x ws := by
  simp [joined]

/-- Two first words may as well be one. -/
theorem joined_joined (w x : List α) (ws : List (List α)) :
    joined sep (w ++ sep :: x) ws = joined sep w (x :: ws) := by
  simp [joined]

theorem IsWord.append {w : List α} (h : IsWord initial w) (r : List α) : IsWord initial (w ++ r) := by
  obtain ⟨c, cs, rfl, hc⟩ := h
  exact ⟨c, cs ++ r, rfl, hc⟩

theorem IsWord.joined {w : List α} (h : IsWord initial w) (ws : List (List α)) :
    IsWord initial (Lib.joined sep w ws) := h.append _

/-- No word begins with the separator. -/
theorem IsWord.ne_sep (hsep : ¬ initial sep) {w : List α} (h : IsWord initial w) (r : List α) : w ≠ sep :: r := by
  obtain ⟨c, cs, rfl, hc⟩ := h
  intro heq
  exact hsep ((List.cons.inj heq).1 ▸ hc)

/-- **Two cuts of one text**, the left part of the first not splitting: they are the same, or the second
    comes later. -/
theorem first_cut (hsep : ¬ initial sep) {t t' x x' : List α} (hx' : IsWord initial x')
    (ht : ¬ Splits sep initial t) (h : t ++ sep :: x = t' ++ sep :: x') :
    (t' = t ∧ x' = x) ∨ ∃ m, t' = t ++ sep :: m ∧ x = m ++ sep :: x' := by
  rcases List.append_eq_append_iff.mp h with ⟨m, ht', hm⟩ | ⟨m, ht', hm⟩
  · rcases m with _ | ⟨s, m⟩
    · exact .inl ⟨by simpa using ht', ((List.cons.inj hm).2).symm⟩
    · obtain ⟨rfl, hx⟩ := List.cons.inj hm
      exact .inr ⟨m, ht', hx⟩
  · rcases m with _ | ⟨s, m⟩
    · exact .inl ⟨by simpa using ht'.symm, (List.cons.inj hm).2⟩
    · obtain ⟨rfl, hx⟩ := List.cons.inj hm
      -- the second cut would be inside `t`, or before a separator
      rcases m with _ | ⟨c, m⟩
      · exact absurd hx (hx'.ne_sep hsep _)
      · obtain ⟨d, ds, hd, hinit⟩ := hx'
        rw [hd] at hx
        obtain ⟨rfl, -⟩ := List.cons.inj hx
        exact absurd ⟨t', d :: m, ht', d, m, rfl, hinit⟩ ht

/-- The same, if neither left part splits. -/
theorem cut_eq (hsep : ¬ initial sep) {t t' x x' : List α} (hx : IsWord initial x) (hx' : IsWord initial x')
    (ht : ¬ Splits sep initial t) (ht' : ¬ Splits sep initial t') (h : t ++ sep :: x = t' ++ sep :: x') :
    t = t' ∧ x = x' := by
  rcases first_cut hsep hx' ht h with ⟨rfl, rfl⟩ | ⟨m, hm, hxm⟩
  · exact ⟨rfl, rfl⟩
  · rcases m with _ | ⟨c, m⟩
    · exact absurd hxm (hx.ne_sep hsep _)
    · obtain ⟨d, ds, hd, hinit⟩ := hx
      rw [hd] at hxm
      obtain ⟨rfl, -⟩ := List.cons.inj hxm
      exact absurd ⟨t, d :: m, hm, d, m, rfl, hinit⟩ ht'

/-- **Words that do not split** can be told from the joined text. -/
theorem joined_inj (hsep : ¬ initial sep) {t t' : List α} {ws ws' : List (List α)}
    (hws : ∀ w ∈ ws, IsWord initial w) (hws' : ∀ w ∈ ws', IsWord initial w)
    (hwhole : ∀ w ∈ t :: ws, ¬ Splits sep initial w) (hwhole' : ∀ w ∈ t' :: ws', ¬ Splits sep initial w)
    (h : joined sep t ws = joined sep t' ws') : t = t' ∧ ws = ws' := by
  induction ws generalizing t t' ws' with
  | nil =>
    cases ws' with
    | nil => exact ⟨by simpa using h, rfl⟩
    | cons c cs =>
      rw [joined_nil, joined_cons] at h
      exact absurd ⟨t', _, h, (hws' c List.mem_cons_self).joined cs⟩ (hwhole t List.mem_cons_self)
  | cons w ws ih =>
    cases ws' with
    | nil =>
      rw [joined_nil, joined_cons] at h
      exact absurd ⟨t, _, h.symm, (hws w List.mem_cons_self).joined ws⟩ (hwhole' t' List.mem_cons_self)
    | cons c cs =>
      rw [joined_cons, joined_cons] at h
      obtain ⟨ht, hrest⟩ := cut_eq hsep ((hws w List.mem_cons_self).joined ws)
        ((hws' c List.mem_cons_self).joined cs) (hwhole t List.mem_cons_self) (hwhole' t' List.mem_cons_self) h
      obtain ⟨hw, hws⟩ := ih (fun x hx => hws x (List.mem_cons_of_mem _ hx))
        (fun x hx => hws' x (List.mem_cons_of_mem _ hx)) (fun x hx => hwhole x (List.mem_cons_of_mem _ hx))
        (fun x hx => hwhole' x (List.mem_cons_of_mem _ hx)) hrest
      exact ⟨ht, by rw [hw, hws]⟩

/-- **Two words that do not split** are told from all other words that are joined to this text. -/
theorem joined_pair_unique (hsep : ¬ initial sep) {t w t' : List α} {ws' : List (List α)}
    (ht : ¬ Splits sep initial t) (hw : ¬ Splits sep initial w) (hne : ws' ≠ [])
    (hws' : ∀ x ∈ ws', IsWord initial x) (h : joined sep t [w] = joined sep t' ws') : t' = t ∧ ws' = [w] := by
  obtain ⟨c, cs, rfl⟩ := List.exists_cons_of_ne_nil hne
  have hword : IsWord initial (joined sep c cs) := (hws' c List.mem_cons_self).joined cs
  rw [joined_cons, joined_nil, joined_cons] at h
  rcases first_cut hsep hword ht h with ⟨rfl, hc⟩ | ⟨m, -, hm⟩
  · cases cs with
    | nil => exact ⟨rfl, by rw [← hc, joined_nil]⟩
    | cons d ds =>
      rw [joined_cons] at hc
      exact absurd ⟨c, _, hc.symm, (hws' d (by simp)).joined ds⟩ hw
  · exact absurd ⟨m, _, hm, hword⟩ hw

end Rmdb.Lib
