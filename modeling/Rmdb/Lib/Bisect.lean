import Mathlib.Data.List.Basic
import Mathlib.Tactic.ByContra

namespace Rmdb.Lib

/-!
# Bisection

A predicate on numbers that holds up to some place and then no more: the place is found by bisection, and it
is the count of the numbers below it.

* `bisect` — the loop with two bounds;
* `DownTo` — the predicate holds up to `r` and then no more, within the bounds;
* `bisect_downTo` — the place that the loop finds;
* `DownTo.eq_countP`, `DownTo.eq_max_countP` — the place as a count, from 0 on and from 1 on.
-/

variable {p : Nat → Bool} {left right r n : Nat}

/-- `while (left < right)`, with the middle as the next bound. -/
def bisect (p : Nat → Bool) (left right : Nat) : Nat :=
  if left < right then
    let mid := left + (right - left) / 2
    if p mid then bisect p (mid + 1) right else bisect p left mid
  else left
termination_by right - left

/-- From `left` to `right`, the predicate holds below `r` and not from `r` on. -/
structure DownTo (p : Nat → Bool) (left right r : Nat) : Prop where
  le : left ≤ r
  le_right : r ≤ right
  below : ∀ i, left ≤ i → i < r → p i = true
  above : ∀ i, r ≤ i → i < right → p i = false

/-- The predicate does not come back. -/
def Falling (p : Nat → Bool) (n : Nat) : Prop := ∀ i j, i ≤ j → j < n → p j = true → p i = true

/-- **The loop finds the place**, if the predicate does not come back between the bounds. -/
theorem bisect_downTo (hle : left ≤ right)
    (hfall : ∀ i j, left ≤ i → i ≤ j → j < right → p j = true → p i = true) :
    DownTo p left right (bisect p left right) := by
  induction hlen : right - left using Nat.strongRecOn generalizing left right with
  | ind len ih =>
    rw [bisect]
    by_cases hlt : left < right
    · rw [if_pos hlt]
      dsimp only
      cases hmid : p (left + (right - left) / 2) with
      | true =>
        -- all of the left half holds
        rw [if_pos rfl]
        obtain ⟨h1, h2, h3, h4⟩ := ih _ (by omega) (by omega : left + (right - left) / 2 + 1 ≤ right)
          (fun i j hi => hfall i j (by omega)) rfl
        refine ⟨by omega, h2, fun i hi hir => ?_, h4⟩
        by_cases him : i ≤ left + (right - left) / 2
        · exact hfall i _ hi him (by omega) hmid
        · exact h3 i (by omega) hir
      | false =>
        rw [if_neg (by decide)]
        obtain ⟨h1, h2, h3, h4⟩ := ih _ (by omega) (by omega : left ≤ left + (right - left) / 2)
          (fun i j hi hij hj => hfall i j hi hij (by omega)) rfl
        refine ⟨h1, by omega, h3, fun i hi hir => ?_⟩
        by_cases him : i < left + (right - left) / 2
        · exact h4 i hi him
        · -- what held behind the middle would hold there
          by_contra hp
          have hback := hfall _ i (by omega) (Nat.not_lt.mp him) hir (by simpa using hp)
          rw [hmid] at hback
          cases hback
    · rw [if_neg hlt]
      exact ⟨Nat.le_refl _, hle, fun i h1 h2 => by omega, fun i h1 h2 => by omega⟩

/-- How often the predicate holds. -/
theorem countP_range_eq (hr : r ≤ n) (hbelow : ∀ i < r, p i = true)
    (habove : ∀ i, r ≤ i → i < n → p i = false) :
    (List.range n).countP p = r := by
  induction n with
  | zero => exact (Nat.le_zero.mp hr).symm
  | succ n ih =>
    rw [List.range_succ, List.countP_append]
    by_cases hrn : r ≤ n
    · rw [ih hrn fun i h1 h2 => habove i h1 (by omega)]
      simp [habove n hrn (by omega)]
    · obtain rfl : r = n + 1 := by omega
      have hall : (List.range n).countP p = n := by
        have hmem : ∀ i ∈ List.range n, p i = true := fun i hi => hbelow i (by
          rw [List.mem_range] at hi
          omega)
        rw [List.countP_eq_length.mpr hmem, List.length_range]
      rw [hall]
      simp [hbelow n (by omega)]

/-- **From 0 on** the place is the count. -/
theorem DownTo.eq_countP (h : DownTo p 0 n r) : r = (List.range n).countP p :=
  (countP_range_eq h.le_right (fun i hi => h.below i (Nat.zero_le _) hi) h.above).symm

/-- **From 1 on** it is the count, but at least 1. -/
theorem DownTo.eq_max_countP (h : DownTo p 1 n r) (hfall : Falling p n) :
    r = max 1 ((List.range n).countP p) := by
  have hle := h.le
  have hright := h.le_right
  by_cases h0 : p 0 = true
  · have hcount : (List.range n).countP p = r := by
      refine countP_range_eq hright (fun i hi => ?_) h.above
      by_cases hi0 : i = 0
      · rw [hi0, h0]
      · exact h.below i (by omega) hi
    omega
  · -- nothing holds
    have hnone : ∀ i < n, p i = false := fun i hi => by
      by_contra hp
      exact h0 (hfall 0 i (Nat.zero_le _) hi (by simpa using hp))
    have hr : r = 1 := by
      by_contra hne
      have hone := h.below 1 (Nat.le_refl _) (by omega)
      rw [hnone 1 (by omega)] at hone
      cases hone
    have hcount : (List.range n).countP p = 0 :=
      countP_range_eq (Nat.zero_le _) (fun i hi => by omega) fun i _ hi => hnone i hi
    omega

end Rmdb.Lib
