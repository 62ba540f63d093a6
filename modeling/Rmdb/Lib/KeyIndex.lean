import Mathlib.Logic.Function.Basic

namespace Rmdb.Lib

/-!
# An index over stored values

Values are stored under ids; an index leads from the key of a value to its id.

* `Indexes` — the index holds the keys of the stored values, and nothing else;
* `Indexes.insert`, `Indexes.delete`, `Indexes.replace`, `Indexes.same_key` — the index follows the
  store when a value comes, goes, or changes with or without its key.
-/

variable {κ ι ν : Type*} {index : κ → Option ι} {store : ι → Option ν} {key : ν → κ} {i : ι} {v w : ν}

/-- **The index holds the keys of the stored values, and nothing else.** -/
def Indexes (index : κ → Option ι) (store : ι → Option ν) (key : ν → κ) : Prop :=
  ∀ k i, index k = some i ↔ ∃ v, store i = some v ∧ key v = k

namespace Indexes

/-- The key of a stored value leads to it. -/
theorem at_key (h : Indexes index store key) (hv : store i = some v) : index (key v) = some i :=
  (h (key v) i).mpr ⟨v, hv, rfl⟩

/-- A value changes, its key does not. -/
theorem same_key [DecidableEq ι] (h : Indexes index store key) (hv : store i = some v)
    (hkey : key w = key v) : Indexes index (Function.update store i (some w)) key := by
  intro k j
  rw [h k j]
  by_cases hj : j = i
  · subst hj
    rw [Function.update_self, hv]
    simp [hkey]
  · rw [Function.update_of_ne hj]

variable [DecidableEq κ] [DecidableEq ι]

/-- A value with a new key comes under a new id. -/
theorem insert (h : Indexes index store key) (hi : store i = none) (hk : index (key v) = none) :
    Indexes (Function.update index (key v) (some i)) (Function.update store i (some v)) key := by
  intro k j
  by_cases hj : j = i
  · subst hj
    have hno : index k ≠ some j := by
      intro he
      obtain ⟨u, hu, -⟩ := (h k j).mp he
      rw [hi] at hu
      cases hu
    by_cases hkv : k = key v
    · subst hkv
      simp
    · simp [hkv, hno, Ne.symm hkv]
  · rw [Function.update_of_ne hj, ← h k j]
    by_cases hkv : k = key v
    · subst hkv
      simp [hk, Ne.symm hj]
    · rw [Function.update_of_ne hkv]

/-- A value goes, and its key with it. -/
theorem delete (h : Indexes index store key) (hv : store i = some v) :
    Indexes (Function.update index (key v) none) (Function.update store i none) key := by
  intro k j
  by_cases hj : j = i
  · subst hj
    by_cases hkv : k = key v
    · simp [hkv]
    · -- the id has the key of its value only
      have hno : index k ≠ some j := by
        intro he
        obtain ⟨u, hu, hku⟩ := (h k j).mp he
        rw [hv] at hu
        cases hu
        exact hkv hku.symm
      simp [hkv, hno]
  · rw [Function.update_of_ne hj, ← h k j]
    by_cases hkv : k = key v
    · subst hkv
      simp [h.at_key hv, Ne.symm hj]
    · rw [Function.update_of_ne hkv]

/-- A value gets a new key: the old one goes, the new one comes. -/
theorem replace (h : Indexes index store key) (hv : store i = some v) (hk : index (key w) = none) :
    Indexes (Function.update (Function.update index (key v) none) (key w) (some i))
      (Function.update store i (some w)) key := by
  have hfree : Function.update index (key v) none (key w) = none := by
    rw [Function.update_apply, hk]
    exact ite_self none
  have h' := (h.delete hv).insert (Function.update_self i none store) hfree
  rwa [Function.update_idem] at h'

end Indexes

end Rmdb.Lib
