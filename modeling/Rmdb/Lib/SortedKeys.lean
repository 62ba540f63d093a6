import Mathlib.Data.List.Basic
import Mathlib.Data.List.Pairwise

namespace Rmdb.Lib

open Std

/-!
# Association lists with increasing keys

Lists of pairs over an arbitrary key type with a comparison.  Keys that compare equal count as one.

* `Increasing` — every key is below the later ones;
* `lookup` — the value under a key, the first one if there are several;
* `lowerIdx` — where a key is or should go;
* `lookup_insert` — lookups after a new pair at that place;
* `Increasing.mem_erase` — what is left without the pair of a key;
* `upperIdx` — where the keys above a key begin.
-/

variable {K V : Type*} [Ord K]

/-- Every key is below the later ones. -/
def Increasing (l : List (K × V)) : Prop := l.Pairwise fun a b => compare a.1 b.1 = .lt

/-- The value under a key: the first pair counts. -/
def lookup (k : K) (l : List (K × V)) : Option V := (l.find? fun e => compare k e.1 == .eq).map Prod.snd

/-- The place of the first pair whose key is not below `k`. -/
def lowerIdx (k : K) (l : List (K × V)) : Nat := l.findIdx fun e => (compare k e.1).isLE

/-- The place of the first pair whose key is above `k`. -/
def upperIdx (k : K) (l : List (K × V)) : Nat := l.findIdx fun e => (compare k e.1).isLT

/-- The index is not beyond the end. -/
theorem lowerIdx_le (k : K) (l : List (K × V)) : lowerIdx k l ≤ l.length := List.findIdx_le_length

/-! ### Lookups -/

@[simp] theorem lookup_nil (k : K) : lookup k ([] : List (K × V)) = none := rfl

/-- The first pair or one of the rest. -/
theorem lookup_cons (k : K) (e : K × V) (l : List (K × V)) :
    lookup k (e :: l) = if compare k e.1 = .eq then some e.2 else lookup k l := by
  unfold lookup
  rw [List.find?_cons]
  cases h : compare k e.1 with
  | eq => rfl
  | lt => rfl
  | gt => rfl

/-- A pair of the first list or of the second. -/
theorem lookup_append (k : K) (l l' : List (K × V)) :
    lookup k (l ++ l') = (lookup k l).or (lookup k l') := by
  unfold lookup
  rw [List.find?_append]
  cases List.find? (fun e => compare k e.1 == .eq) l <;> rfl

/-- A key that is not there. -/
theorem lookup_eq_none {k : K} {l : List (K × V)} :
    lookup k l = none ↔ ∀ e ∈ l, compare k e.1 ≠ .eq := by
  unfold lookup
  rw [Option.map_eq_none_iff, List.find?_eq_none]
  refine forall_congr' fun e => imp_congr_right fun _ => ?_
  rw [beq_iff_eq]

/-- A key is in the list or its lookup fails. -/
theorem lookup_isSome {k : K} {l : List (K × V)} :
    (lookup k l).isSome = true ↔ ∃ e ∈ l, compare k e.1 = .eq := by
  rw [← Option.ne_none_iff_isSome, ne_eq, lookup_eq_none]
  push Not
  rfl

/-- Greater keys behind do not matter. -/
theorem upperIdx_append_of_gt {k : K} {X Y : List (K × V)} (hY : ∀ e ∈ Y.head?, compare k e.1 = .lt) :
    upperIdx k (X ++ Y) = upperIdx k X := by
  unfold upperIdx
  rw [List.findIdx_append]
  split
  · rfl
  · rename_i h
    have hX : X.findIdx (fun e => (compare k e.1).isLT) = X.length :=
      Nat.le_antisymm List.findIdx_le_length (Nat.le_of_not_lt h)
    rw [hX]
    cases Y with
    | nil =>
      rw [List.findIdx_nil]
      exact Nat.zero_add _
    | cons e Y =>
      rw [List.findIdx_cons, hY e rfl]
      exact Nat.zero_add _

/-- Two lists in order, one below the other. -/
theorem increasing_append {l l' : List (K × V)} : Increasing (l ++ l') ↔
    Increasing l ∧ Increasing l' ∧ ∀ a ∈ l, ∀ b ∈ l', compare a.1 b.1 = .lt := List.pairwise_append

/-- A part of a list in order. -/
theorem Increasing.sublist {l l' : List (K × V)} (h : Increasing l') (hs : l.Sublist l') :
    Increasing l := List.Pairwise.sublist hs h

/-- A new pair in its place. -/
theorem increasing_insert {k : K} {v : V} {X Y : List (K × V)} (h : Increasing (X ++ Y))
    (hX : ∀ e ∈ X, compare e.1 k = .lt) (hY : ∀ e ∈ Y, compare k e.1 = .lt) :
    Increasing (X ++ (k, v) :: Y) := by
  obtain ⟨h₁, h₂, h₃⟩ := increasing_append.mp h
  refine increasing_append.mpr ⟨h₁, List.pairwise_cons.mpr ⟨hY, h₂⟩, fun a ha b hb => ?_⟩
  cases hb with
  | head => exact hX a ha
  | tail _ hb => exact h₃ a ha b hb

variable [TransOrd K]

/-- Keys that compare equal have the same lookups. -/
theorem lookup_congr {k k' : K} (h : compare k k' = .eq) (l : List (K × V)) :
    lookup k l = lookup k' l := by
  unfold lookup
  congr 2
  funext e
  rw [TransCmp.congr_left h]

/-! ### The place of a key -/

/-- Keys that compare equal have the same place. -/
theorem lowerIdx_congr {k k' : K} (h : compare k k' = .eq) (l : List (K × V)) :
    lowerIdx k l = lowerIdx k' l := by
  unfold lowerIdx
  congr 1
  funext e
  rw [TransCmp.congr_left h]

/-- Behind the smaller keys, before the others. -/
theorem lowerIdx_append {k : K} {X Y : List (K × V)} (hX : ∀ e ∈ X, compare e.1 k = .lt)
    (hY : ∀ e ∈ Y.head?, (compare k e.1).isLE) : lowerIdx k (X ++ Y) = X.length := by
  unfold lowerIdx
  induction X with
  | nil =>
    cases Y with
    | nil => rfl
    | cons e Y =>
      rw [List.nil_append, List.findIdx_cons, hY e rfl]
      rfl
  | cons e X ih =>
    have he : (compare k e.1).isLE = false := by
      rw [Ordering.isLE_eq_false]
      exact OrientedCmp.gt_of_lt (hX e List.mem_cons_self)
    rw [List.cons_append, List.findIdx_cons, he, ih fun e he => hX e (List.mem_cons_of_mem _ he)]
    rfl

/-- The pairs below `k` come before its place, the pair at the place is not below `k`. -/
theorem exists_split (k : K) (l : List (K × V)) : ∃ X Y, l = X ++ Y ∧ lowerIdx k l = X.length ∧
    (∀ e ∈ X, compare e.1 k = .lt) ∧ ∀ e ∈ Y.head?, (compare k e.1).isLE := by
  induction l with
  | nil => exact ⟨[], [], rfl, rfl, fun _ h => absurd h List.not_mem_nil, fun _ h => nomatch h⟩
  | cons a l ih =>
    cases ha : (compare k a.1).isLE with
    | true =>
      have hY : ∀ e ∈ (a :: l).head?, (compare k e.1).isLE := by
        intro e he
        cases he
        exact ha
      have hX : ∀ e ∈ ([] : List (K × V)), compare e.1 k = .lt := fun _ h => absurd h List.not_mem_nil
      exact ⟨[], a :: l, rfl, lowerIdx_append hX hY, hX, hY⟩
    | false =>
      obtain ⟨X, Y, rfl, -, hX, hY⟩ := ih
      have hX' : ∀ e ∈ a :: X, compare e.1 k = .lt := by
        intro e he
        cases he with
        | head => exact OrientedCmp.lt_of_gt (Ordering.isLE_eq_false.mp ha)
        | tail _ he => exact hX e he
      exact ⟨a :: X, Y, rfl, lowerIdx_append hX' hY, hX', hY⟩

/-- In an increasing list no pair from the place of `k` on is below `k`. -/
theorem Increasing.le_of_mem {k : K} {Y : List (K × V)} (h : Increasing Y)
    (hY : ∀ e ∈ Y.head?, (compare k e.1).isLE) : ∀ e ∈ Y, (compare k e.1).isLE := by
  intro e he
  cases Y with
  | nil => cases he
  | cons a Y =>
    cases he with
    | head => exact hY e rfl
    | tail _ he =>
      have hlt := TransCmp.lt_of_isLE_of_lt (hY a rfl) ((List.pairwise_cons.mp h).1 e he)
      rw [hlt]
      rfl

/-- The same with strict comparisons. -/
theorem Increasing.lt_of_mem {k : K} {Y : List (K × V)} (h : Increasing Y)
    (hY : ∀ e ∈ Y.head?, compare k e.1 = .lt) : ∀ e ∈ Y, compare k e.1 = .lt := by
  intro e he
  cases Y with
  | nil => cases he
  | cons a Y =>
    cases he with
    | head => exact hY e rfl
    | tail _ he => exact TransCmp.lt_trans (hY a rfl) ((List.pairwise_cons.mp h).1 e he)

/-- Before the place of `k` the keys are below `k`, from there on they are not. -/
theorem Increasing.lowerIdx_le_iff {k : K} {l : List (K × V)} (h : Increasing l) {g : Nat}
    {e : K × V} (he : l[g]? = some e) : lowerIdx k l ≤ g ↔ (compare k e.1).isLE := by
  obtain ⟨X, Y, rfl, hidx, hX, hY⟩ := exists_split k l
  rw [hidx]
  rcases Nat.lt_or_ge g X.length with hg | hg
  · rw [List.getElem?_append_left hg] at he
    have hlt := hX e (List.mem_of_getElem? he)
    rw [OrientedCmp.gt_of_lt hlt]
    exact ⟨fun hle => by omega, fun hle => by cases hle⟩
  · rw [List.getElem?_append_right hg] at he
    exact ⟨fun _ => (increasing_append.mp h).2.1.le_of_mem hY e (List.mem_of_getElem? he),
      fun _ => hg⟩

/-- The place of a key of the list. -/
theorem Increasing.lowerIdx_eq {l : List (K × V)} (h : Increasing l) {g : Nat} {e : K × V}
    (he : l[g]? = some e) : lowerIdx e.1 l = g := by
  refine Nat.le_antisymm ((h.lowerIdx_le_iff he).mpr ReflCmp.isLE_rfl) (Nat.le_of_not_lt fun hlt => ?_)
  obtain ⟨hlen, hget⟩ := List.getElem?_eq_some_iff.mp he
  have hle := (h.lowerIdx_le_iff (k := e.1) (List.getElem?_eq_getElem (Nat.lt_trans hlt hlen))).mp
    (Nat.le_refl _)
  have hbelow := List.pairwise_iff_getElem.mp h _ _ (Nat.lt_trans hlt hlen) hlen hlt
  rw [hget] at hbelow
  rw [OrientedCmp.gt_of_lt hbelow] at hle
  cases hle

/-- Keys that are not greater are passed. -/
theorem upperIdx_append {k : K} {X Y : List (K × V)} (hX : ∀ e ∈ X, (compare e.1 k).isLE) :
    upperIdx k (X ++ Y) = X.length + upperIdx k Y := by
  unfold upperIdx
  have hfind : X.findIdx (fun e => (compare k e.1).isLT) = X.length := by
    refine List.findIdx_eq_length_of_false fun e he => ?_
    have hge : (compare k e.1).isGE := OrientedCmp.isGE_iff_isLE.mpr (hX e he)
    revert hge
    cases compare k e.1 <;> simp
  rw [List.findIdx_append, hfind, if_neg (Nat.lt_irrefl _), Nat.add_comm]

/-- Before the place where the keys above `k` begin, the keys are not above `k`. -/
theorem Increasing.lt_upperIdx_iff {k : K} {l : List (K × V)} (h : Increasing l) {g : Nat}
    {e : K × V} (he : l[g]? = some e) : g < upperIdx k l ↔ (compare e.1 k).isLE := by
  induction l generalizing g with
  | nil => cases he
  | cons a l ih =>
    unfold upperIdx at ih ⊢
    rw [List.findIdx_cons]
    obtain ⟨hhead, htail⟩ := List.pairwise_cons.mp h
    by_cases hlt : compare k a.1 = .lt
    · -- `k` is below the first key, and so below all of them
      rw [hlt]
      have hke : compare k e.1 = .lt := by
        cases g with
        | zero =>
          cases he
          exact hlt
        | succ g => exact TransCmp.lt_trans hlt (hhead e (List.mem_of_getElem? he))
      rw [OrientedCmp.gt_of_lt hke]
      exact ⟨fun hg => absurd hg (Nat.not_lt_zero g), fun hle => by cases hle⟩
    · have hisLT : (compare k a.1).isLT = false := by
        revert hlt
        cases compare k a.1 <;> simp
      rw [hisLT]
      cases g with
      | zero =>
        cases he
        refine ⟨fun _ => ?_, fun _ => Nat.succ_pos _⟩
        rw [← OrientedCmp.isGE_iff_isLE]
        revert hlt
        cases compare k e.1 <;> simp
      | succ g =>
        rw [cond_false, Nat.succ_lt_succ_iff]
        exact ih htail he

/-- Lookups after a new pair. -/
theorem lookup_insert {k k' : K} {v : V} {X Y : List (K × V)}
    (hX : ∀ e ∈ X, compare e.1 k = .lt) :
    lookup k' (X ++ (k, v) :: Y) =
      if compare k' k = .eq then some v else lookup k' (X ++ Y) := by
  rw [lookup_append, lookup_cons, lookup_append]
  split
  · rename_i h
    have hnone : lookup k' X = none := by
      rw [lookup_congr h, lookup_eq_none]
      intro e he heq
      rw [OrientedCmp.eq_comm, hX e he] at heq
      cases heq
    rw [hnone]
    rfl
  · rfl

/-- What is left when the pair of a key is taken out. -/
theorem Increasing.mem_erase {k : K} {X Y : List (K × V)} {e a : K × V} (h : Increasing (X ++ e :: Y))
    (hk : compare k e.1 = .eq) : a ∈ X ++ Y ↔ a ∈ X ++ e :: Y ∧ compare k a.1 ≠ .eq := by
  obtain ⟨-, heY, hXe⟩ := increasing_append.mp h
  have hne : a ∈ X ++ Y → compare k a.1 ≠ .eq := by
    intro ha hc
    rw [TransCmp.congr_left hk] at hc
    rcases List.mem_append.mp ha with ha | ha
    · rw [OrientedCmp.eq_comm, hXe a ha e List.mem_cons_self] at hc
      cases hc
    · rw [(List.pairwise_cons.mp heY).1 a ha] at hc
      cases hc
  refine ⟨fun ha => ⟨?_, hne ha⟩, fun ⟨ha, hc⟩ => ?_⟩
  · simp only [List.mem_append, List.mem_cons] at ha ⊢
    tauto
  · simp only [List.mem_append, List.mem_cons] at ha ⊢
    rcases ha with ha | rfl | ha
    · exact Or.inl ha
    · exact absurd hk hc
    · exact Or.inr ha

end Rmdb.Lib
