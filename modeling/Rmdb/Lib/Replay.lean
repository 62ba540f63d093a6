import Mathlib.Data.List.TakeWhile
import Mathlib.Logic.Function.Basic

namespace Rmdb.Lib

/-!
# Replaying operations on numbered slots

A store of slots, with the number of its values, and a list of operations that is replayed on it.  Where
the operations up to the next insertion or removal have been replayed before, in part, they can be replayed
again: an overwriting makes good what a later one has left.

* `Slots`, `SlotOp`, `replay` — a store and its operations;
* `Near` — two stores that agree up to the values that the next operations overwrite;
* `Near.step` — replaying an operation keeps this;
* `Near.overwritten`, `Near.again` — an overwriting that is replayed early, or once more.
-/

variable {κ ν : Type*}

/-- The values in the slots, and how many there should be. -/
structure Slots (κ ν : Type*) where
  count : Int
  value : κ → Option ν

/-- An operation on a slot. -/
inductive SlotOp (κ ν : Type*) where
  | insert (key : κ) (value : ν)
  | remove (key : κ)
  /-- Nothing happens if there is no value. -/
  | overwrite (key : κ) (value : ν)

namespace SlotOp

/-- The slot. -/
def key : SlotOp κ ν → κ
  | insert k _ | remove k | overwrite k _ => k

/-- The slot keeps having a value, or having none. -/
def overwrites : SlotOp κ ν → Bool
  | overwrite _ _ => true
  | insert _ _ | remove _ => false

/-- What becomes of the slot. -/
def result (current : Option ν) : SlotOp κ ν → Option ν
  | insert _ v => some v
  | remove _ => none
  | overwrite _ v => current.map fun _ => v

variable [DecidableEq κ]

def apply (s : Slots κ ν) : SlotOp κ ν → Slots κ ν
  | insert k v => ⟨s.count + 1, Function.update s.value k (some v)⟩
  | remove k => ⟨s.count - 1, Function.update s.value k none⟩
  | overwrite k v => ⟨s.count, Function.update s.value k ((s.value k).map fun _ => v)⟩

theorem apply_value (s : Slots κ ν) (o : SlotOp κ ν) :
    (o.apply s).value = Function.update s.value o.key (o.result (s.value o.key)) := by
  cases o <;> rfl

end SlotOp

/-- The slots that are overwritten before the next insertion or removal. -/
def overwrittenNext (ops : List (SlotOp κ ν)) : List κ := (ops.takeWhile (·.overwrites)).map (·.key)

/-- **Two stores agree up to what is overwritten next.** -/
structure Near (ops : List (SlotOp κ ν)) (s t : Slots κ ν) : Prop where
  count : s.count = t.count
  present : ∀ k, (s.value k).isSome = (t.value k).isSome
  value : ∀ k, k ∉ overwrittenNext ops → s.value k = t.value k

variable {ops done : List (SlotOp κ ν)} {s t : Slots κ ν} {o : SlotOp κ ν}

theorem Near.refl (ops : List (SlotOp κ ν)) (s : Slots κ ν) : Near ops s s := ⟨rfl, fun _ => rfl, fun _ _ => rfl⟩

/-- If nothing is overwritten next, the stores are the same. -/
theorem Near.eq (h : Near ops s t) (hnext : overwrittenNext ops = []) : s = t := by
  obtain ⟨n, f⟩ := s
  obtain ⟨m, g⟩ := t
  obtain rfl : n = m := h.count
  obtain rfl : f = g := funext fun k => h.value k (by rw [hnext]; exact List.not_mem_nil)
  rfl

/-- If all these operations overwrite, each of them is on a slot that is overwritten next. -/
theorem mem_overwrittenNext (hdone : ∀ o ∈ done, o.overwrites = true) (ops : List (SlotOp κ ν)) (ho : o ∈ done) :
    o.key ∈ overwrittenNext (done ++ ops) := by
  unfold overwrittenNext
  rw [List.takeWhile_append_of_pos hdone, List.map_append]
  exact List.mem_append_left _ (List.mem_map_of_mem ho)

theorem map_const_eq {a b : Option ν} (h : a.isSome = b.isSome) (v : ν) :
    a.map (fun _ => v) = b.map fun _ => v := by
  cases a <;> cases b
  · rfl
  · cases h
  · cases h
  · rfl

variable [DecidableEq κ]

/-- The operations one after the other. -/
def replay (s : Slots κ ν) (ops : List (SlotOp κ ν)) : Slots κ ν := ops.foldl SlotOp.apply s

theorem replay_append (s : Slots κ ν) (ops ops' : List (SlotOp κ ν)) :
    replay s (ops ++ ops') = replay (replay s ops) ops' := List.foldl_append

/-- An overwriting changes no more than one value. -/
theorem SlotOp.overwrite_apply {s : Slots κ ν} {k : κ} {v : ν} (j : κ) :
    (((SlotOp.overwrite k v).apply s).value j).isSome = (s.value j).isSome ∧
      (j ≠ k → ((SlotOp.overwrite k v).apply s).value j = s.value j) := by
  show (Function.update s.value k _ j).isSome = _ ∧ (_ → Function.update s.value k _ j = _)
  by_cases hj : j = k
  · subst hj
    rw [Function.update_self, Option.isSome_map]
    exact ⟨rfl, fun hne => absurd rfl hne⟩
  · rw [Function.update_of_ne hj]
    exact ⟨rfl, fun _ => rfl⟩

/-- **The next operation, on both stores.** -/
theorem Near.step (h : Near (o :: ops) s t) : Near ops (o.apply s) (o.apply t) := by
  cases o with
  | insert k v =>
    rw [h.eq rfl]
    exact .refl _ _
  | remove k =>
    rw [h.eq rfl]
    exact .refl _ _
  | overwrite k v =>
    have hnext : overwrittenNext (SlotOp.overwrite k v :: ops) = k :: overwrittenNext ops := rfl
    refine ⟨h.count, fun j => ?_, fun j hj => ?_⟩
    · rw [(SlotOp.overwrite_apply j).1, (SlotOp.overwrite_apply j).1, h.present]
    · by_cases hk : j = k
      · -- both stores have the value that is written, or none
        subst hk
        show Function.update _ _ _ _ = Function.update _ _ _ _
        rw [Function.update_self, Function.update_self, map_const_eq (h.present j)]
      · rw [(SlotOp.overwrite_apply j).2 hk, (SlotOp.overwrite_apply j).2 hk]
        refine h.value j ?_
        rw [hnext, List.mem_cons]
        exact fun hor => hor.elim hk hj

/-- A slot that is overwritten next is overwritten. -/
theorem Near.overwritten (h : Near ops s t) (hover : o.overwrites = true)
    (hmem : o.key ∈ overwrittenNext ops) : Near ops (o.apply s) t := by
  cases o with
  | insert k v => cases hover
  | remove k => cases hover
  | overwrite k v =>
    refine ⟨h.count, fun j => ?_, fun j hj => ?_⟩
    · rw [(SlotOp.overwrite_apply j).1, h.present]
    · have hne : j ≠ k := fun hjk => hj (hjk ▸ hmem)
      rw [(SlotOp.overwrite_apply j).2 hne, h.value j hj]

/-- A value that the other store has is written again. -/
theorem Near.again (h : Near ops s t) {k : κ} {v : ν} (hv : ∀ w ∈ t.value k, w = v) :
    Near ops ((SlotOp.overwrite k v).apply s) t := by
  refine ⟨h.count, fun j => ?_, fun j hj => ?_⟩
  · rw [(SlotOp.overwrite_apply j).1, h.present]
  · by_cases hk : j = k
    · subst hk
      show Function.update _ _ _ _ = _
      rw [Function.update_self, map_const_eq (h.present j)]
      cases ht : t.value j with
      | none => rfl
      | some w => rw [hv w ht, Option.map_some]
    · rw [(SlotOp.overwrite_apply j).2 hk, h.value j hj]

end Rmdb.Lib
