import Mathlib.Data.Multiset.Bind

namespace Rmdb.Lib

/-!
# Rows as partial assignments

A row over keys `κ` and values `ν` gives a value to some of the keys.  Rows of different tables are
merged, tables are multiplied, and a list of tables has a product:

* `Assignment.merge` — the keys of both rows; the left one decides;
* `product` — every row of one table with every row of the other;
* `cross`, `cross_append`, `cross_perm` — the product of a list of tables, and that neither its
  grouping nor its order matters where the tables have no key in common;
* `filter_product` — a filter on the product that looks at one factor only is a filter on that factor.
-/

variable {κ ν ι : Type*}

/-- A row: a value for some of the keys. -/
def Assignment (κ ν : Type*) := κ → Option ν

namespace Assignment

/-- The row without a key. -/
def empty : Assignment κ ν := fun _ => none

/-- The keys of both rows. -/
def merge (a b : Assignment κ ν) : Assignment κ ν := fun k => (a k).or (b k)

/-- The row has values for keys in `S` only. -/
def Within (a : Assignment κ ν) (S : κ → Prop) : Prop := ∀ k, a k ≠ none → S k

/-- Nothing on the left. -/
theorem empty_merge (a : Assignment κ ν) : merge empty a = a := by
  funext k
  simp [merge, empty]

/-- Nothing on the right. -/
theorem merge_empty (a : Assignment κ ν) : merge a empty = a := by
  funext k
  simp [merge, empty]

/-- The left one wins in any grouping. -/
theorem merge_assoc (a b c : Assignment κ ν) : merge (merge a b) c = merge a (merge b c) := by
  funext k
  simp [merge, Option.or_assoc]

/-- Rows without a common key may be merged in either order. -/
theorem merge_comm {a b : Assignment κ ν} {S T : κ → Prop} (ha : a.Within S) (hb : b.Within T)
    (hST : ∀ k, S k → ¬ T k) : merge a b = merge b a := by
  funext k
  show (a k).or (b k) = (b k).or (a k)
  cases hak : a k with
  | none => simp
  | some x =>
    have hbk : b k = none := by
      by_contra hne
      exact hST k (ha k (by simp [hak])) (hb k hne)
    simp [hbk]

/-- The merge of two assignments to the same keys. -/
theorem Within.merge {a b : Assignment κ ν} {S : κ → Prop} (ha : a.Within S) (hb : b.Within S) :
    (merge a b).Within S := by
  intro k hk
  by_cases hak : a k = none
  · refine hb k fun hbk => hk ?_
    simp [Assignment.merge, hak, hbk]
  · exact ha k hak

/-- An assignment to more keys. -/
theorem Within.mono {a : Assignment κ ν} {S T : κ → Prop} (ha : a.Within S) (h : ∀ k, S k → T k) :
    a.Within T := fun k hk => h k (ha k hk)

/-- Outside the keys of the right row, the left row is what the merged one shows. -/
theorem merge_left {a b : Assignment κ ν} {T : κ → Prop} (hb : b.Within T) {k : κ} (hk : ¬ T k) :
    merge a b k = a k := by
  have hbk : b k = none := by
    by_contra hne
    exact hk (hb k hne)
  simp [merge, hbk]

/-- Outside the keys of the left row, the right row is. -/
theorem merge_right {a b : Assignment κ ν} {S : κ → Prop} (ha : a.Within S) {k : κ} (hk : ¬ S k) :
    merge a b k = b k := by
  have hak : a k = none := by
    by_contra hne
    exact hk (ha k hne)
  simp [merge, hak]

end Assignment

open Assignment

/-- Every row of one table merged with every row of the other. -/
def product (A B : Multiset (Assignment κ ν)) : Multiset (Assignment κ ν) :=
  A.bind fun a => B.map (merge a)

/-- The pairs of a product. -/
theorem mem_product {A B : Multiset (Assignment κ ν)} {r : Assignment κ ν} :
    r ∈ product A B ↔ ∃ a ∈ A, ∃ b ∈ B, merge a b = r := by
  simp [product]

/-- Products of products. -/
theorem product_assoc (A B C : Multiset (Assignment κ ν)) :
    product (product A B) C = product A (product B C) := by
  unfold product
  rw [Multiset.bind_assoc]
  refine Multiset.bind_congr fun a _ => ?_
  rw [Multiset.map_bind, Multiset.bind_map]
  refine Multiset.bind_congr fun b _ => ?_
  rw [Multiset.map_map]
  exact Multiset.map_congr rfl fun c _ => merge_assoc a b c

/-- The unit on the left. -/
theorem empty_product (A : Multiset (Assignment κ ν)) : product {empty} A = A := by
  unfold product
  rw [Multiset.singleton_bind]
  have hid : (fun a : Assignment κ ν => merge empty a) = id := funext empty_merge
  rw [show merge (empty : Assignment κ ν) = id from hid, Multiset.map_id]

/-- The unit on the right. -/
theorem product_empty (A : Multiset (Assignment κ ν)) : product A {empty} = A := by
  unfold product
  simp only [Multiset.map_singleton, merge_empty]
  exact Multiset.bind_singleton A id |>.trans (Multiset.map_id A)

/-- Tables without a common key may be multiplied in either order. -/
theorem product_comm {A B : Multiset (Assignment κ ν)} {S T : κ → Prop}
    (hA : ∀ a ∈ A, a.Within S) (hB : ∀ b ∈ B, b.Within T) (hST : ∀ k, S k → ¬ T k) :
    product A B = product B A := by
  have hswap : product A B = A.bind fun a => B.map fun b => merge b a := by
    refine Multiset.bind_congr fun a ha => Multiset.map_congr rfl fun b hb => ?_
    exact merge_comm (hA a ha) (hB b hb) hST
  rw [hswap, Multiset.bind_map_comm]
  rfl

/-- **Filters move into the factors.** -/
theorem filter_product {A B : Multiset (Assignment κ ν)} {p pa pb : Assignment κ ν → Bool}
    (h : ∀ a ∈ A, ∀ b ∈ B, p (merge a b) = (pa a && pb b)) :
    (product A B).filter (fun r => p r) =
      product (A.filter fun a => pa a) (B.filter fun b => pb b) := by
  unfold product
  rw [Multiset.filter_bind, Multiset.bind_filter]
  refine Multiset.bind_congr fun a ha => ?_
  rw [Multiset.filter_map]
  by_cases hpa : pa a = true
  · rw [if_pos hpa]
    refine congrArg _ (Multiset.filter_congr fun b hb => ?_)
    simp [h a ha b hb, hpa]
  · rw [if_neg hpa]
    have hnone : B.filter ((fun r => p r = true) ∘ merge a) = 0 := by
      refine Multiset.filter_eq_nil.mpr fun b hb => ?_
      simp [h a ha b hb, hpa]
    rw [hnone, Multiset.map_zero]

/-! ### The product of a list of tables -/

variable (M : ι → Multiset (Assignment κ ν))

/-- The product of the tables `ts`. -/
def cross (ts : List ι) : Multiset (Assignment κ ν) := ts.foldr (fun t A => product (M t) A) {empty}

/-- The first table, then the rest. -/
theorem cross_cons (t : ι) (ts : List ι) : cross M (t :: ts) = product (M t) (cross M ts) := rfl

/-- One table. -/
theorem cross_singleton (t : ι) : cross M [t] = M t := product_empty (M t)

/-- Two lists of tables. -/
theorem cross_append (ts us : List ι) :
    cross M (ts ++ us) = product (cross M ts) (cross M us) := by
  induction ts with
  | nil => exact (empty_product _).symm
  | cons t ts ih => rw [List.cons_append, cross_cons, cross_cons, ih, product_assoc]

variable {M} {region : κ → ι} (hM : ∀ t, ∀ a ∈ M t, a.Within (region · = t))

include hM in
/-- The keys of the product are those of the tables. -/
theorem within_cross {ts : List ι} {a : Assignment κ ν} (ha : a ∈ cross M ts) :
    a.Within (region · ∈ ts) := by
  induction ts generalizing a with
  | nil =>
    rw [Multiset.mem_singleton.mp ha]
    intro k hk
    exact absurd rfl hk
  | cons t ts ih =>
    obtain ⟨x, hx, y, hy, rfl⟩ := mem_product.mp ha
    refine Within.merge ((hM t x hx).mono fun k hk => ?_) ((ih hy).mono fun k hk => ?_)
    · rw [hk]
      exact List.mem_cons_self
    · exact List.mem_cons_of_mem _ hk

include hM in
/-- **The order of the tables does not matter.** -/
theorem cross_perm {ts us : List ι} (h : ts.Perm us) (hd : ts.Nodup) :
    cross M ts = cross M us := by
  induction h with
  | nil => rfl
  | cons t _ ih => rw [cross_cons, cross_cons, ih hd.of_cons]
  | swap t u l =>
    have hne : u ≠ t := by
      intro heq
      simp [heq] at hd
    rw [cross_cons, cross_cons, cross_cons, cross_cons, ← product_assoc, ← product_assoc]
    rw [product_comm (hM u) (hM t) fun k hk hk' => hne (hk.symm.trans hk')]
  | trans h₁ _ ih₁ ih₂ => exact (ih₁ hd).trans (ih₂ (h₁.nodup_iff.mp hd))

end Rmdb.Lib
