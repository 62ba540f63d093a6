import Mathlib.Data.List.Basic
import Mathlib.Data.List.Nodup

namespace Rmdb.Lib

/-!
# A queue by age

Elements enter, leave on request, or leave because they have waited longest.  What has happened so far
says who waits, and since when:

* `waitingSince` — the number of the event by which an element began to wait;
* `QueueOf` — a list of the waiting elements, the latest one first;
* `QueueOf.enter`, `QueueOf.leave`, `QueueOf.dequeue` — the list after one more event;
* `QueueOf.longest` — the last one of the list has waited longest.
-/

variable {α : Type*}

/-- An event of the queue. -/
inductive QueueEvent (α : Type*) where
  | enter (a : α)
  | leave (a : α)
  /-- The queue is asked for the element that has waited longest. -/
  | dequeue (result : Option α)
  deriving DecidableEq, Repr

section Since

variable [DecidableEq α]

/-- Since when an element waits.  The events are listed newest first, and numbered from the oldest one
    on; an element that waits already does not begin again. -/
def waitingSince : List (QueueEvent α) → α → Option Nat
  | [], _ => none
  | .enter b :: h, a => if b = a then some ((waitingSince h a).getD h.length) else waitingSince h a
  | .leave b :: h, a => if b = a then none else waitingSince h a
  | .dequeue (some b) :: h, a => if b = a then none else waitingSince h a
  | .dequeue none :: h, a => waitingSince h a

/-- An element has begun to wait by an event that has happened. -/
theorem waitingSince_lt {h : List (QueueEvent α)} {a : α} {t : Nat} (ht : waitingSince h a = some t) :
    t < h.length := by
  induction h with
  | nil => cases ht
  | cons e h ih =>
    have hold : waitingSince h a = some t → t < (e :: h).length := fun hs =>
      Nat.lt_succ_of_lt (ih hs)
    cases e with
    | enter b =>
      rw [waitingSince] at ht
      split at ht
      · cases hs : waitingSince h a with
        | some s =>
          rw [hs] at ht
          exact hold (hs.trans ht)
        | none =>
          rw [hs] at ht
          obtain rfl := Option.some.inj ht
          simp
      · exact hold ht
    | leave b =>
      rw [waitingSince] at ht
      split at ht
      · cases ht
      · exact hold ht
    | dequeue r =>
      cases r with
      | none => exact hold ht
      | some b =>
        rw [waitingSince] at ht
        split at ht
        · cases ht
        · exact hold ht

/-- Somebody else's arrival. -/
@[simp] theorem waitingSince_enter_of_ne (h : List (QueueEvent α)) {a b : α} (hb : b ≠ a) :
    waitingSince (.enter b :: h) a = waitingSince h a := if_neg hb

@[simp] theorem waitingSince_leave_of_ne (h : List (QueueEvent α)) {a b : α} (hb : b ≠ a) :
    waitingSince (.leave b :: h) a = waitingSince h a := if_neg hb

@[simp] theorem waitingSince_leave_self (h : List (QueueEvent α)) (a : α) :
    waitingSince (.leave a :: h) a = none := if_pos rfl

@[simp] theorem waitingSince_dequeue_of_ne (h : List (QueueEvent α)) {a b : α} (hb : b ≠ a) :
    waitingSince (.dequeue (some b) :: h) a = waitingSince h a := if_neg hb

@[simp] theorem waitingSince_dequeue_self (h : List (QueueEvent α)) (a : α) :
    waitingSince (.dequeue (some a) :: h) a = none := if_pos rfl

/-- `a` waits since a later event than `b`. -/
def Later (h : List (QueueEvent α)) (a b : α) : Prop :=
  ∃ s t, waitingSince h a = some s ∧ waitingSince h b = some t ∧ t < s

/-- **The queue of a history**: a list of the waiting elements, the latest one first. -/
structure QueueOf (h : List (QueueEvent α)) (l : List α) : Prop where
  mem : ∀ a, a ∈ l ↔ waitingSince h a ≠ none
  order : l.Pairwise (Later h)

end Since

namespace QueueOf

variable [DecidableEq α] {h : List (QueueEvent α)} {l : List α} {a b : α}

theorem nil : QueueOf ([] : List (QueueEvent α)) [] where
  mem a := by simp [waitingSince]
  order := .nil

/-- Nobody waits twice. -/
theorem nodup (hq : QueueOf h l) : l.Nodup := by
  refine hq.order.imp fun {a b} hlater hab => ?_
  obtain ⟨s, t, hs, ht, hlt⟩ := hlater
  rw [hab, ht] at hs
  obtain rfl := Option.some.inj hs
  exact absurd hlt (Nat.lt_irrefl _)

/-- The order of elements that an event does not concern. -/
theorem order_congr (hq : QueueOf h l) {e : QueueEvent α} {l' : List α} (hsub : l'.Sublist l)
    (hsame : ∀ b ∈ l', waitingSince (e :: h) b = waitingSince h b) : l'.Pairwise (Later (e :: h)) := by
  refine (hq.order.sublist hsub).imp_of_mem fun {a b} ha hb hlater => ?_
  obtain ⟨s, t, hs, ht, hlt⟩ := hlater
  exact ⟨s, t, (hsame a ha).trans hs, (hsame b hb).trans ht, hlt⟩

/-- Who waits already does not enter again. -/
theorem enter_of_mem (hq : QueueOf h l) (ha : a ∈ l) : QueueOf (.enter a :: h) l := by
  have hsame : ∀ b, waitingSince (.enter a :: h) b = waitingSince h b := by
    intro b
    by_cases hb : a = b
    · subst hb
      obtain ⟨t, ht⟩ := Option.ne_none_iff_exists'.mp ((hq.mem a).mp ha)
      rw [waitingSince, if_pos rfl, ht, Option.getD_some]
    · exact waitingSince_enter_of_ne h hb
  refine ⟨fun b => ?_, hq.order_congr (.refl l) fun b _ => hsame b⟩
  rw [hsame]
  exact hq.mem b

/-- **Entering**: at the front. -/
theorem enter (hq : QueueOf h l) (ha : a ∉ l) : QueueOf (.enter a :: h) (a :: l) := by
  have hnone : waitingSince h a = none := by
    by_contra hne
    exact ha ((hq.mem a).mpr hne)
  have hnew : waitingSince (.enter a :: h) a = some h.length := by
    rw [waitingSince, if_pos rfl, hnone, Option.getD_none]
  have hother : ∀ b ∈ l, waitingSince (.enter a :: h) b = waitingSince h b := by
    intro b hb
    apply waitingSince_enter_of_ne
    rintro rfl
    exact ha hb
  refine ⟨fun b => ?_, List.pairwise_cons.mpr ⟨fun b hb => ?_, hq.order_congr (.refl l) hother⟩⟩
  · by_cases hb : a = b
    · subst hb
      simp [hnew]
    · rw [waitingSince_enter_of_ne h hb, ← hq.mem b, List.mem_cons]
      simp [Ne.symm hb]
  · obtain ⟨t, ht⟩ := Option.ne_none_iff_exists'.mp ((hq.mem b).mp hb)
    exact ⟨h.length, t, hnew, (hother b hb).trans ht, waitingSince_lt ht⟩

/-- **Leaving.** -/
theorem leave (hq : QueueOf h l) (a : α) : QueueOf (.leave a :: h) (l.erase a) := by
  refine ⟨fun b => ?_, hq.order_congr List.erase_sublist fun b hb => ?_⟩
  · rw [hq.nodup.mem_erase_iff]
    by_cases hb : a = b
    · subst hb
      simp
    · rw [waitingSince_leave_of_ne h hb, ← hq.mem b]
      simp [Ne.symm hb]
  · apply waitingSince_leave_of_ne
    rintro rfl
    exact (hq.nodup.mem_erase_iff.mp hb).1 rfl

/-- An empty queue has nobody to give. -/
theorem dequeue_none (hq : QueueOf h l) : QueueOf (.dequeue none :: h) l :=
  ⟨hq.mem, hq.order⟩

/-- **Dequeuing**: from the back. -/
theorem dequeue (hq : QueueOf h (l ++ [a])) : QueueOf (.dequeue (some a) :: h) l := by
  have hnot : a ∉ l := fun ha =>
    List.disjoint_of_nodup_append hq.nodup ha (List.mem_singleton_self a)
  refine ⟨fun b => ?_, hq.order_congr (List.sublist_append_left l [a]) fun b hb => ?_⟩
  · by_cases hb : a = b
    · subst hb
      simp [hnot]
    · rw [waitingSince_dequeue_of_ne h hb, ← hq.mem b, List.mem_append]
      simp [Ne.symm hb]
  · apply waitingSince_dequeue_of_ne
    rintro rfl
    exact hnot hb

/-- **The last one has waited longest.** -/
theorem longest (hq : QueueOf h (l ++ [a])) :
    ∃ t, waitingSince h a = some t ∧ ∀ b s, waitingSince h b = some s → t ≤ s := by
  obtain ⟨t, ht⟩ := Option.ne_none_iff_exists'.mp ((hq.mem a).mp (by simp))
  refine ⟨t, ht, fun b s hs => ?_⟩
  have hb : b ∈ l ++ [a] := (hq.mem b).mpr (by rw [hs]; exact Option.some_ne_none s)
  rcases List.mem_append.mp hb with hb | hb
  · obtain ⟨s', t', hs', ht', hlt⟩ :=
      (List.pairwise_append.mp hq.order).2.2 b hb a (List.mem_singleton_self a)
    rw [hs] at hs'
    rw [ht] at ht'
    obtain rfl := Option.some.inj hs'
    obtain rfl := Option.some.inj ht'
    exact Nat.le_of_lt hlt
  · rw [List.mem_singleton.mp hb, ht] at hs
    exact Nat.le_of_eq (Option.some.inj hs)

end QueueOf

end Rmdb.Lib
