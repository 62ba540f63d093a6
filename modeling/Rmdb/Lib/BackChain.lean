import Mathlib.Data.List.Induction
import Mathlib.Data.List.Nodup

namespace Rmdb.Lib

/-!
# Chains in a log

The entries of a log have a key, and each names the key of the entry before it in its chain.  Several
chains can lie in one log, their entries between each other.

* `lastKey`, `BackLinked` — the key of the newest entry, and a list whose entries name each other;
* `follow` — from a key back, from entry to entry;
* `follow_lastKey` — from the newest entry of a chain this comes to each of them, newest first, and ends.
-/

variable {α κ : Type*} (key prev : α → κ)

/-- The key of the newest entry, or the one that is no key. -/
def lastKey (start : κ) (l : List α) : κ := l.foldl (fun _ a => key a) start

/-- Each entry names the one before it, and the first one names `start`. -/
def BackLinked (start : κ) : List α → Prop
  | [] => True
  | a :: l => prev a = start ∧ BackLinked (key a) l

/-- At most `n` entries back from the key `k`. -/
def follow [DecidableEq κ] (log : List α) : Nat → κ → List α
  | 0, _ => []
  | n + 1, k =>
    match log.find? (fun a => key a = k) with
    | none => []
    | some a => a :: follow log n (prev a)

variable {key prev} {start : κ} {l log : List α} {a : α} {n : Nat}

@[simp]
theorem lastKey_nil : lastKey key start [] = start := rfl

@[simp]
theorem lastKey_snoc : lastKey key start (l ++ [a]) = key a := by
  simp [lastKey]

/-- One more entry. -/
theorem backLinked_snoc : BackLinked key prev start (l ++ [a]) ↔
    BackLinked key prev start l ∧ prev a = lastKey key start l := by
  induction l generalizing start with
  | nil => simp [BackLinked]
  | cons b l ih =>
    have hlast : lastKey key start (b :: l) = lastKey key (key b) l := rfl
    rw [List.cons_append, hlast]
    simp only [BackLinked, ih, and_assoc]

variable [DecidableEq κ]

/-- The entry with this key. -/
theorem find?_key (hnodup : (log.map key).Nodup) (ha : a ∈ log) :
    log.find? (fun b => key b = key a) = some a := by
  induction log with
  | nil => simp at ha
  | cons b log ih =>
    rw [List.map_cons, List.nodup_cons] at hnodup
    by_cases hb : key b = key a
    · have hab : a = b := by
        rcases List.mem_cons.mp ha with hab | ha
        · exact hab
        · exact absurd (List.mem_map_of_mem ha) (hb ▸ hnodup.1)
      simp [hab]
    · have hne : a ≠ b := by
        rintro rfl
        exact hb rfl
      rw [List.find?_cons_of_neg (by simpa using hb)]
      exact ih hnodup.2 (List.mem_of_ne_of_mem hne ha)

/-- Nothing has the key that is none. -/
theorem follow_start (hstart : start ∉ log.map key) (n : Nat) : follow key prev log n start = [] := by
  cases n with
  | zero => rfl
  | succ n =>
    have hnone : log.find? (fun a => key a = start) = none := by
      rw [List.find?_eq_none]
      intro a ha hkey
      exact hstart (of_decide_eq_true hkey ▸ List.mem_map_of_mem ha)
    rw [follow, hnone]

/-- **The entries of a chain**, from the newest one back. -/
theorem follow_lastKey (hnodup : (log.map key).Nodup) (hstart : start ∉ log.map key)
    (hsub : ∀ a ∈ l, a ∈ log) (hl : BackLinked key prev start l) (hn : l.length ≤ n) :
    follow key prev log n (lastKey key start l) = l.reverse := by
  induction l using List.reverseRecOn generalizing n with
  | nil =>
    rw [lastKey_nil, follow_start hstart]
    rfl
  | append_singleton l a ih =>
    obtain ⟨hl, hprev⟩ := backLinked_snoc.mp hl
    rw [List.length_append, List.length_singleton] at hn
    obtain ⟨n, rfl⟩ : ∃ k, n = k + 1 := ⟨n - 1, by omega⟩
    have ha : a ∈ log := hsub a (by simp)
    rw [lastKey_snoc, follow, find?_key hnodup ha]
    dsimp only
    rw [hprev, ih (fun b hb => hsub b (by simp [hb])) hl (by omega)]
    simp

end Rmdb.Lib
