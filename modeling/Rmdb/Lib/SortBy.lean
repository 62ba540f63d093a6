import Mathlib.Order.Defs.Unbundled
import Mathlib.Data.List.Induction
import Mathlib.Data.List.Perm.Basic

namespace Rmdb.Lib

open Std

/-!
# Sorting and choosing by comparisons

* `lexBy` — the lexicographic comparison by a list of comparisons; `lexBy_append` — one that occurs
  again later changes nothing;
* `strictWeakOrder_of_transCmp` — the strict part of a transitive comparison is a strict weak order;
* `SortsBy` — what a sort routine promises for strict weak orders, with no promise about ties;
* `sortsBy_mergeSort` — a merge sort keeps the promise;
* `best` — the loop that keeps the best so far; `best_spec` — nothing of the list is better.
-/

variable {α : Type}

/-- The first of the comparisons that tells the two apart. -/
def lexBy : List (α → α → Ordering) → α → α → Ordering
  | [] => fun _ _ => .eq
  | cmp :: cmps => compareLex cmp (lexBy cmps)

theorem transCmp_lexBy {cmps : List (α → α → Ordering)} (h : ∀ cmp ∈ cmps, TransCmp cmp) :
    TransCmp (lexBy cmps) := by
  induction cmps with
  | nil => exact { eq_swap := rfl, isLE_trans := fun _ _ => rfl }
  | cons cmp cmps ih =>
    have hcmp : TransCmp cmp := h cmp List.mem_cons_self
    have hrest : TransCmp (lexBy cmps) := ih fun c hc => h c (List.mem_cons_of_mem _ hc)
    show TransCmp (compareLex cmp (lexBy cmps))
    infer_instance

theorem lexBy_eq_eq {cmps : List (α → α → Ordering)} {a b : α} :
    lexBy cmps a b = .eq ↔ ∀ cmp ∈ cmps, cmp a b = .eq := by
  induction cmps with
  | nil => exact iff_of_true rfl fun _ h => absurd h List.not_mem_nil
  | cons cmp cmps ih =>
    rw [List.forall_mem_cons, ← ih]
    exact compareLex_eq_eq

/-- **Comparisons that occur again later change nothing.** -/
theorem lexBy_append {cmps cmps' : List (α → α → Ordering)} (h : ∀ cmp ∈ cmps', cmp ∈ cmps) :
    lexBy (cmps ++ cmps') = lexBy cmps := by
  funext a b
  have happ : lexBy (cmps ++ cmps') a b = (lexBy cmps a b).then (lexBy cmps' a b) := by
    clear h
    induction cmps with
    | nil => rfl
    | cons cmp cmps ih =>
      show (cmp a b).then (lexBy (cmps ++ cmps') a b) = _
      rw [ih]
      exact (Ordering.then_assoc _ _ _).symm
  rw [happ]
  cases hab : lexBy cmps a b with
  | lt => rfl
  | gt => rfl
  | eq =>
    have hall := lexBy_eq_eq.mp hab
    exact lexBy_eq_eq.mpr fun cmp hcmp => hall cmp (h cmp hcmp)

/-- **The strict part of a transitive comparison is a strict weak order.** -/
theorem strictWeakOrder_of_transCmp {cmp : α → α → Ordering} [TransCmp cmp] :
    IsStrictWeakOrder α fun a b => cmp a b = .lt where
  irrefl a h := by
    have hself : cmp a a = .eq := ReflCmp.compare_self
    rw [hself] at h
    cases h
  trans _ _ _ h h' := TransCmp.lt_trans h h'
  incomp_trans a b c := by
    rintro ⟨hab, hba⟩ ⟨hbc, hcb⟩
    have heq : ∀ x y : α, cmp x y ≠ .lt → cmp y x ≠ .lt → cmp x y = .eq := by
      intro x y hxy hyx
      cases h : cmp x y with
      | lt => exact absurd h hxy
      | eq => rfl
      | gt => exact absurd (OrientedCmp.lt_of_gt h) hyx
    have hac := TransCmp.eq_trans (heq a b hab hba) (heq b c hbc hcb)
    have hca : cmp c a = (cmp a c).swap := OrientedCmp.eq_swap
    rw [hca, hac]
    exact ⟨by decide, by decide⟩

/-- **What a sort routine promises** for a strict weak order.  The order of equal items is open. -/
def SortsBy (sort : (α → α → Bool) → List α → List α) : Prop :=
  ∀ (lt : α → α → Bool) (l : List α), IsStrictWeakOrder α (fun a b => lt a b = true) →
    (sort lt l).Perm l ∧ (sort lt l).Pairwise fun a b => lt b a = false

theorem sortsBy_mergeSort : SortsBy (α := α) fun lt l => l.mergeSort fun a b => !lt b a := by
  intro lt l h
  have hirrefl : ∀ a, lt a a = false := fun a => Bool.eq_false_iff.mpr (h.irrefl a)
  have hasymm : ∀ a b, lt a b = true → lt b a = false := fun a b hab =>
    Bool.eq_false_iff.mpr fun hba => h.irrefl a (h.trans a b a hab hba)
  refine ⟨List.mergeSort_perm _ _, ?_⟩
  -- a step down from `c` to `a` would be one from `b` to `a` or from `c` to `b`
  have htrans : ∀ a b c, (!lt b a) = true → (!lt c b) = true → (!lt c a) = true := by
    intro a b c hab hbc
    simp only [Bool.not_eq_true'] at hab hbc ⊢
    by_contra hca
    rw [Bool.not_eq_false] at hca
    by_cases hab' : lt a b = true
    · have hcb := h.trans c a b hca hab'
      rw [hbc] at hcb
      cases hcb
    · by_cases hbc' : lt b c = true
      · have hba := h.trans b c a hbc' hca
        rw [hab] at hba
        cases hba
      · have hac := h.incomp_trans a b c ⟨hab', by rw [hab]; decide⟩ ⟨hbc', by rw [hbc]; decide⟩
        exact hac.2 hca
  have htotal : ∀ a b, (!lt b a || !lt a b) = true := by
    intro a b
    cases hba : lt b a with
    | false => rfl
    | true => simp [hasymm b a hba]
  exact (List.pairwise_mergeSort htrans htotal l).imp fun h => by simpa using h

/-! ### The best of a list -/

variable {better : α → α → Bool}

/-- The loop that keeps the best so far. -/
def best (better : α → α → Bool) (start : α) (l : List α) : α :=
  l.foldl (fun m v => if better v m then v else m) start

/-- **The result is the start or better than it, and nothing of the list is better.** -/
theorem best_spec (hirrefl : ∀ a, better a a = false)
    (htrans : ∀ a b c, better a b = true → better b c = true → better a c = true)
    (start : α) (l : List α) :
    (best better start l = start ∨
      best better start l ∈ l ∧ better (best better start l) start = true) ∧
    ∀ u ∈ l, better u (best better start l) = false := by
  induction l using List.reverseRecOn with
  | nil => exact ⟨.inl rfl, fun u hu => absurd hu List.not_mem_nil⟩
  | append_singleton l v ih =>
    obtain ⟨hstart, hbest⟩ := ih
    have hstep : best better start (l ++ [v]) =
        if better v (best better start l) then v else best better start l := by
      unfold best
      rw [List.foldl_append]
      rfl
    rw [hstep]
    by_cases hv : better v (best better start l) = true
    · rw [if_pos hv]
      refine ⟨.inr ⟨List.mem_append_right _ List.mem_cons_self, ?_⟩, fun u hu => ?_⟩
      · rcases hstart with heq | ⟨-, hgt⟩
        · rwa [heq] at hv
        · exact htrans _ _ _ hv hgt
      · rcases List.mem_append.mp hu with hu | hu
        · -- what is better than the new one is better than the old one
          by_contra hbetter
          rw [Bool.not_eq_false] at hbetter
          have hold := htrans _ _ _ hbetter hv
          rw [hbest u hu] at hold
          cases hold
        · rw [List.mem_singleton.mp hu]
          exact hirrefl v
    · rw [if_neg hv]
      rw [Bool.not_eq_true] at hv
      refine ⟨hstart.imp id fun h => ⟨List.mem_append_left _ h.1, h.2⟩, fun u hu => ?_⟩
      rcases List.mem_append.mp hu with hu | hu
      · exact hbest u hu
      · rw [List.mem_singleton.mp hu]
        exact hv

end Rmdb.Lib
