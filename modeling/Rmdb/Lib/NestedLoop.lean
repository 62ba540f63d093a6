import Mathlib.Data.List.Perm.Basic
import Mathlib.Data.List.ProdSigma

namespace Rmdb.Lib

/-!
# Nested loops over two lists

* `nestedLoop` — all pairs, the second list in the outer loop;
* `blockLoop` — the first list is cut into blocks, with a nested loop for each block;
* `blockLoop_perm` — both have the same pairs, each as often.
-/

variable {α β : Type*}

/-- All pairs: for each item of `rs` those of `ls`. -/
def nestedLoop (ls : List α) (rs : List β) : List (α × β) := rs.flatMap fun r => ls.map fun l => (l, r)

theorem nestedLoop_cons (ls : List α) (r : β) (rs : List β) :
    nestedLoop ls (r :: rs) = ls.map (fun l => (l, r)) ++ nestedLoop ls rs :=
  List.flatMap_cons

@[simp] theorem nestedLoop_nil_left (rs : List β) : nestedLoop ([] : List α) rs = [] :=
  List.flatMap_eq_nil_iff.mpr fun _ _ => rfl

@[simp] theorem nestedLoop_nil_right (ls : List α) : nestedLoop ls ([] : List β) = [] := rfl

theorem nestedLoop_append (ls ls' : List α) (rs : List β) :
    (nestedLoop (ls ++ ls') rs).Perm (nestedLoop ls rs ++ nestedLoop ls' rs) := by
  have h := List.flatMap_append_perm rs (fun r => ls.map fun l => (l, r))
    fun r => ls'.map fun l => (l, r)
  simp only [← List.map_append] at h
  exact h.symm

/-- The order of the two lists does not matter. -/
theorem nestedLoop_perm {ls ls' : List α} {rs rs' : List β} (hl : ls.Perm ls') (hr : rs.Perm rs') :
    (nestedLoop ls rs).Perm (nestedLoop ls' rs') :=
  hr.flatMap fun _ _ => hl.map _

/-- Blocks of `n` items of `ls`, and a nested loop for each block. -/
def blockLoop (n : Nat) (ls : List α) (rs : List β) : List (α × β) :=
  if ls = [] ∨ n = 0 then []
  else nestedLoop (ls.take n) rs ++ blockLoop n (ls.drop n) rs
termination_by ls.length
decreasing_by
  rename_i h
  have hlen : 0 < ls.length := List.length_pos_iff.mpr fun hnil => h (.inl hnil)
  have hn : n ≠ 0 := fun hn => h (.inr hn)
  rw [List.length_drop]
  omega

@[simp] theorem blockLoop_nil (n : Nat) (rs : List β) : blockLoop n ([] : List α) rs = [] := by
  rw [blockLoop, if_pos (.inl rfl)]

theorem blockLoop_of_ne_nil {n : Nat} (hn : n ≠ 0) {ls : List α} (hls : ls ≠ []) (rs : List β) :
    blockLoop n ls rs = nestedLoop (ls.take n) rs ++ blockLoop n (ls.drop n) rs := by
  rw [blockLoop, if_neg (not_or.mpr ⟨hls, hn⟩)]

/-- **Loops in blocks and plain loops have the same pairs.** -/
theorem blockLoop_perm {n : Nat} (hn : n ≠ 0) (ls : List α) (rs : List β) :
    (blockLoop n ls rs).Perm (nestedLoop ls rs) := by
  induction hlen : ls.length using Nat.strongRecOn generalizing ls with
  | ind m ih =>
    by_cases hls : ls = []
    · subst hls
      rw [blockLoop_nil, nestedLoop_nil_left]
    · have hpos := List.length_pos_iff.mpr hls
      have hrest := ih (ls.drop n).length (by rw [List.length_drop]; omega) (ls.drop n) rfl
      rw [blockLoop_of_ne_nil hn hls]
      have happ := nestedLoop_append (ls.take n) (ls.drop n) rs
      rw [List.take_append_drop] at happ
      exact (hrest.append_left _).trans happ.symm

end Rmdb.Lib
