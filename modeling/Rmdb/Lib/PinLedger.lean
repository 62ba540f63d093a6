import Mathlib.Data.List.Count
import Mathlib.Data.List.Perm.Basic
import Mathlib.Logic.Function.Basic

namespace Rmdb.Lib

/-!
# Pins and the events that change them

A pool keeps a pin count for each page.  Its users fetch pages, use their bytes and unpin them; the pool
does not let a count fall below zero.

* `pinsAfter` — the pin counts after a list of events;
* `gain` — how many pins they add to a page;
* `Kept` — the events leave all pin counts as they were, whatever they were; such events unpin what they
  have pinned themselves (`Kept.covered`);
* `Covered` — bytes are used only under a pin of one's own;
* `Nested` — each unpin is for the page fetched last; such events keep the counts (`Nested.kept`) and
  use bytes under own pins only (`Nested.covered`);
* `Uses` — the use of one page, between its fetch and its unpin;
* `Kept.interleaved` — what keeps the counts alone keeps them while others work, too;
* `excess` — how many more pages have been fetched than unpinned; it is zero where each page has been
  unpinned as often as fetched (`excess_eq_zero`).
-/

variable {P : Type*}

/-- What the user of a pool does with a page. -/
inductive PinEvent (P : Type*) where
  | fetch (page : P)
  | unpin (page : P) (dirty : Bool)
  | read (page : P)
  | write (page : P)
  deriving DecidableEq, Repr

namespace PinEvent

/-- The page that an event pins. -/
def fetched : PinEvent P → Option P
  | .fetch p => some p
  | _ => none

/-- The page that an event unpins. -/
def unpinned : PinEvent P → Option P
  | .unpin p _ => some p
  | _ => none

/-- The page whose bytes an event uses. -/
def used : PinEvent P → Option P
  | .read p => some p
  | .write p => some p
  | _ => none

/-- The page whose bytes an event changes. -/
def changed : PinEvent P → Option P
  | .write p => some p
  | _ => none

@[simp] theorem fetched_fetch (p : P) : (fetch p).fetched = some p := rfl
@[simp] theorem fetched_unpin (p : P) (d : Bool) : (unpin p d).fetched = none := rfl
@[simp] theorem fetched_read (p : P) : (read p).fetched = none := rfl
@[simp] theorem fetched_write (p : P) : (write p).fetched = none := rfl
@[simp] theorem unpinned_fetch (p : P) : (fetch p).unpinned = none := rfl
@[simp] theorem unpinned_unpin (p : P) (d : Bool) : (unpin p d).unpinned = some p := rfl
@[simp] theorem unpinned_read (p : P) : (read p).unpinned = none := rfl
@[simp] theorem unpinned_write (p : P) : (write p).unpinned = none := rfl
@[simp] theorem used_fetch (p : P) : (fetch p).used = none := rfl
@[simp] theorem used_unpin (p : P) (d : Bool) : (unpin p d).used = none := rfl
@[simp] theorem used_read (p : P) : (read p).used = some p := rfl
@[simp] theorem used_write (p : P) : (write p).used = some p := rfl
@[simp] theorem changed_fetch (p : P) : (fetch p).changed = none := rfl
@[simp] theorem changed_unpin (p : P) (d : Bool) : (unpin p d).changed = none := rfl
@[simp] theorem changed_read (p : P) : (read p).changed = none := rfl
@[simp] theorem changed_write (p : P) : (write p).changed = some p := rfl

end PinEvent

/-! ### How often -/

/-- How many more pages are fetched than unpinned. -/
def excess (t : List (PinEvent P)) : Int :=
  (t.filterMap PinEvent.fetched).length - (t.filterMap PinEvent.unpinned).length

/-- No event, no excess. -/
@[simp] theorem excess_nil : excess ([] : List (PinEvent P)) = 0 := rfl

/-- The excess of two traces is the sum of theirs. -/
theorem excess_append (t u : List (PinEvent P)) : excess (t ++ u) = excess t + excess u := by
  unfold excess
  simp only [List.filterMap_append, List.length_append]
  omega

/-- A fetch adds one. -/
@[simp] theorem excess_fetch (p : P) (t : List (PinEvent P)) : excess (.fetch p :: t) = excess t + 1 := by
  unfold excess
  simp only [List.filterMap_cons, PinEvent.fetched_fetch, PinEvent.unpinned_fetch, List.length_cons]
  omega

/-- An unpin takes one away. -/
@[simp] theorem excess_unpin (p : P) (d : Bool) (t : List (PinEvent P)) :
    excess (.unpin p d :: t) = excess t - 1 := by
  unfold excess
  simp only [List.filterMap_cons, PinEvent.fetched_unpin, PinEvent.unpinned_unpin, List.length_cons]
  omega

/-- A read counts nothing. -/
@[simp] theorem excess_read (p : P) (t : List (PinEvent P)) : excess (.read p :: t) = excess t := rfl

/-- A write counts nothing. -/
@[simp] theorem excess_write (p : P) (t : List (PinEvent P)) : excess (.write p :: t) = excess t := rfl

/-- Unpinning a list of pages. -/
theorem excess_unpins (l : List P) (d : Bool) : excess (l.map fun p => .unpin p d) = -(l.length : Int) := by
  induction l with
  | nil => rfl
  | cons p l ih =>
    rw [List.map_cons, excess_unpin, ih, List.length_cons]
    omega

variable [DecidableEq P]

/-- Each page is unpinned as often as it is fetched. -/
def Balanced (t : List (PinEvent P)) : Prop :=
  ∀ p, (t.filterMap PinEvent.unpinned).count p = (t.filterMap PinEvent.fetched).count p

/-- In a balanced trace fetches and unpins are equally many. -/
theorem excess_eq_zero {t : List (PinEvent P)} (h : Balanced t) : excess t = 0 := by
  have hperm := (List.perm_iff_count.mpr h).length_eq
  unfold excess
  omega

/-! ### Pin counts -/

/-- The pin counts after an event.  A count of zero stays zero. -/
def PinEvent.apply (c : P → Nat) : PinEvent P → P → Nat
  | .fetch p => Function.update c p (c p + 1)
  | .unpin p _ => Function.update c p (c p - 1)
  | _ => c

/-- The pin counts after these events. -/
def pinsAfter (c : P → Nat) (t : List (PinEvent P)) : P → Nat := t.foldl PinEvent.apply c

@[simp] theorem pinsAfter_nil (c : P → Nat) : pinsAfter c [] = c := rfl

/-- The first event acts first. -/
@[simp] theorem pinsAfter_cons (c : P → Nat) (e : PinEvent P) (t : List (PinEvent P)) :
    pinsAfter c (e :: t) = pinsAfter (e.apply c) t := rfl

/-- The events leave all pin counts as they were. -/
def Kept (t : List (PinEvent P)) : Prop := ∀ c, pinsAfter c t = c

/-- While no count falls below zero, they count. -/
theorem pinsAfter_add (c : P → Nat) (t : List (PinEvent P)) (p : P)
    (h : (t.filterMap PinEvent.unpinned).count p ≤ c p) :
    pinsAfter c t p + (t.filterMap PinEvent.unpinned).count p =
      c p + (t.filterMap PinEvent.fetched).count p := by
  induction t generalizing c with
  | nil => rfl
  | cons e t ih =>
    cases e with
    | fetch q =>
      simp only [List.filterMap_cons, PinEvent.fetched_fetch, PinEvent.unpinned_fetch,
        pinsAfter_cons] at h ⊢
      by_cases hqp : q = p
      · subst hqp
        have hc : (PinEvent.fetch q).apply c q = c q + 1 := Function.update_self ..
        have := ih ((PinEvent.fetch q).apply c) (by omega)
        rw [List.count_cons_self]
        omega
      · have hc : (PinEvent.fetch q).apply c p = c p := Function.update_of_ne (Ne.symm hqp) ..
        have := ih ((PinEvent.fetch q).apply c) (by omega)
        rw [List.count_cons_of_ne hqp]
        omega
    | unpin q d =>
      simp only [List.filterMap_cons, PinEvent.fetched_unpin, PinEvent.unpinned_unpin,
        pinsAfter_cons] at h ⊢
      by_cases hqp : q = p
      · subst hqp
        rw [List.count_cons_self] at h ⊢
        have hc : (PinEvent.unpin q d).apply c q = c q - 1 := Function.update_self ..
        have := ih ((PinEvent.unpin q d).apply c) (by omega)
        omega
      · rw [List.count_cons_of_ne hqp] at h ⊢
        have hc : (PinEvent.unpin q d).apply c p = c p := Function.update_of_ne (Ne.symm hqp) ..
        have := ih ((PinEvent.unpin q d).apply c) (by omega)
        omega
    | read q => exact ih c h
    | write q => exact ih c h

/-- If the counts are kept, whatever they are, each page is unpinned as often as it is fetched. -/
theorem Kept.balanced {t : List (PinEvent P)} (h : Kept t) : Balanced t := by
  intro p
  have hcount := pinsAfter_add (fun _ => (t.filterMap PinEvent.unpinned).count p) t p (Nat.le_refl _)
  rw [h] at hcount
  omega

/-- How many pins the events add to a page. -/
def gain (t : List (PinEvent P)) (p : P) : Int :=
  (t.filterMap PinEvent.fetched).count p - (t.filterMap PinEvent.unpinned).count p

@[simp] theorem gain_nil (p : P) : gain [] p = 0 := rfl

/-- The gain of two traces is the sum of theirs. -/
theorem gain_append (t u : List (PinEvent P)) (p : P) : gain (t ++ u) p = gain t p + gain u p := by
  unfold gain
  simp only [List.filterMap_append, List.count_append]
  omega

/-- A fetch gives its own page a pin. -/
@[simp] theorem gain_fetch (q : P) (t : List (PinEvent P)) (p : P) :
    gain (.fetch q :: t) p = gain t p + if q = p then 1 else 0 := by
  unfold gain
  simp only [List.filterMap_cons, PinEvent.fetched_fetch, PinEvent.unpinned_fetch, List.count_cons,
    beq_iff_eq]
  split <;> omega

/-- An unpin takes a pin from its own page. -/
@[simp] theorem gain_unpin (q : P) (d : Bool) (t : List (PinEvent P)) (p : P) :
    gain (.unpin q d :: t) p = gain t p - if q = p then 1 else 0 := by
  unfold gain
  simp only [List.filterMap_cons, PinEvent.fetched_unpin, PinEvent.unpinned_unpin, List.count_cons,
    beq_iff_eq]
  split <;> omega

/-- A read gives no page a pin. -/
@[simp] theorem gain_read (q : P) (t : List (PinEvent P)) : gain (.read q :: t) = gain t := rfl

/-- A write gives no page a pin. -/
@[simp] theorem gain_write (q : P) (t : List (PinEvent P)) : gain (.write q :: t) = gain t := rfl

/-- Events that keep the counts add no pin. -/
theorem Kept.gain {t : List (PinEvent P)} (h : Kept t) (p : P) : gain t p = 0 := by
  unfold Lib.gain
  rw [h.balanced p, Int.sub_self]

/-- The first event's gain, then the rest's. -/
theorem gain_cons (e : PinEvent P) (t : List (PinEvent P)) (p : P) :
    gain (e :: t) p = gain [e] p + gain t p := gain_append [e] t p

/-- One event: a count follows the gain but where it would fall below zero. -/
theorem apply_eq_add_gain (c : P → Nat) (e : PinEvent P) (p : P) :
    (e.apply c p : Int) = c p + gain [e] p + if e.unpinned = some p ∧ c p = 0 then 1 else 0 := by
  cases e with
  | fetch q =>
    show ((Function.update c q (c q + 1) p : Nat) : Int) = _
    rw [Function.update_apply]
    by_cases hqp : q = p
    · simp [hqp]
    · simp [hqp, Ne.symm hqp]
  | unpin q d =>
    show ((Function.update c q (c q - 1) p : Nat) : Int) = _
    rw [Function.update_apply]
    by_cases hqp : q = p
    · subst hqp
      simp only [if_true, gain_unpin, gain_nil, PinEvent.unpinned_unpin, true_and]
      split <;> omega
    · simp [hqp, Ne.symm hqp]
  | read q => simp [PinEvent.apply]
  | write q => simp [PinEvent.apply]

/-- A count that would fall below zero stays too high. -/
theorem le_pinsAfter (c : P → Nat) (t : List (PinEvent P)) (p : P) :
    (c p : Int) + gain t p ≤ pinsAfter c t p := by
  induction t generalizing c with
  | nil => simp
  | cons e t ih =>
    have hrest := ih (e.apply c)
    have hfirst := apply_eq_add_gain c e p
    rw [pinsAfter_cons, gain_cons]
    split at hfirst <;> omega

/-! ### Use under a pin -/

/-- **Bytes are used only under a pin of one's own**: `h` are the own pins before, and `use` says which
    events use which page. -/
def Covered (use : PinEvent P → Option P) : (P → Nat) → List (PinEvent P) → Prop
  | _, [] => True
  | h, e :: t => (∀ p, use e = some p → 0 < h p) ∧ Covered use (e.apply h) t

variable {use : PinEvent P → Option P} {h : P → Nat} {t u : List (PinEvent P)} {p : P}

/-- A trace is covered if its parts are, the second one from the pins the first leaves. -/
theorem covered_append : Covered use h (t ++ u) ↔
    Covered use h t ∧ Covered use (pinsAfter h t) u := by
  induction t generalizing h with
  | nil => simp [Covered]
  | cons e t ih => simp only [List.cons_append, Covered, ih, pinsAfter_cons, and_assoc]

/-- While each unpin is for an own pin, the counts follow the gain. -/
theorem Covered.pinsAfter_eq (ht : Covered PinEvent.unpinned h t) (p : P) :
    (pinsAfter h t p : Int) = h p + gain t p := by
  induction t generalizing h with
  | nil => simp
  | cons e t ih =>
    have hpos : ¬ (e.unpinned = some p ∧ h p = 0) := fun ⟨hp, h0⟩ => Nat.ne_of_gt (ht.1 p hp) h0
    rw [pinsAfter_cons, ih ht.2, apply_eq_add_gain, if_neg hpos, gain_cons e t]
    omega

/-- Conversely the counts follow the gain only if each unpin is for an own pin. -/
theorem covered_of_pinsAfter_eq (ht : ∀ p, (pinsAfter h t p : Int) = h p + gain t p) :
    Covered PinEvent.unpinned h t := by
  induction t generalizing h with
  | nil => trivial
  | cons e t ih =>
    -- the rest cannot make good what the first event has left too high
    have hfirst : ∀ p, (e.apply h p : Int) = h p + gain [e] p := fun p => by
      have hrest := le_pinsAfter (e.apply h) t p
      have hall := ht p
      have hone := apply_eq_add_gain h e p
      rw [pinsAfter_cons, gain_cons] at hall
      split at hone <;> omega
    refine ⟨fun p hp => Nat.pos_of_ne_zero fun h0 => ?_, ih fun p => ?_⟩
    · have hone := apply_eq_add_gain h e p
      rw [if_pos ⟨hp, h0⟩, hfirst p] at hone
      omega
    · rw [hfirst p, Int.add_assoc, ← gain_cons]
      exact ht p

/-- **Events that keep the counts**, whatever these are, unpin only what they have pinned. -/
theorem Kept.covered (hkept : Kept t) : Covered PinEvent.unpinned (fun _ => 0) t :=
  covered_of_pinsAfter_eq fun p => by
    rw [hkept, hkept.gain]
    rfl

/-- A page that is changed is later unpinned as dirty. -/
def DirtyReleased : List (PinEvent P) → Prop
  | [] => True
  | .write p :: t => .unpin p true ∈ t ∧ DirtyReleased t
  | _ :: t => DirtyReleased t

omit [DecidableEq P] in
/-- One list of events after another. -/
theorem DirtyReleased.append (ht : DirtyReleased t) (hu : DirtyReleased u) : DirtyReleased (t ++ u) := by
  induction t with
  | nil => exact hu
  | cons e t ih =>
    cases e with
    | write p => exact ⟨List.mem_append_left u ht.1, ih ht.2⟩
    | fetch p | unpin p d | read p => exact ih ht

/-- These events use the page `p` and do nothing else. -/
def Uses (p : P) (t : List (PinEvent P)) : Prop := ∀ e ∈ t, e = .read p ∨ e = .write p

/-! ### Nested events -/

/-- **Nested events**: the pages of `stack` are pinned, an unpin is for the last one of them, and all
    other events use pinned pages. -/
def Nested : List P → List (PinEvent P) → Prop
  | stack, [] => stack = []
  | stack, .fetch p :: t => Nested (p :: stack) t
  | [], .unpin _ _ :: _ => False
  | p :: stack, .unpin q _ :: t => q = p ∧ Nested stack t
  | stack, .read p :: t => p ∈ stack ∧ Nested stack t
  | stack, .write p :: t => p ∈ stack ∧ Nested stack t

/-- The pins of a stack on top of those of others. -/
def stacked (c : P → Nat) (stack : List P) (p : P) : Nat := c p + stack.count p

/-- A fetch puts its page on the stack. -/
theorem apply_fetch_stacked (c : P → Nat) (stack : List P) (p : P) :
    (PinEvent.fetch p).apply (stacked c stack) = stacked c (p :: stack) := by
  funext q
  show Function.update (stacked c stack) p (stacked c stack p + 1) q = stacked c (p :: stack) q
  unfold stacked
  rw [Function.update_apply, List.count_cons]
  by_cases hqp : q = p
  · simp [hqp, Nat.add_assoc]
  · simp [hqp, Ne.symm hqp]

/-- An unpin of the top page takes it off the stack. -/
theorem apply_unpin_stacked (c : P → Nat) (stack : List P) (p : P) (d : Bool) :
    (PinEvent.unpin p d).apply (stacked c (p :: stack)) = stacked c stack := by
  funext q
  show Function.update (stacked c (p :: stack)) p (stacked c (p :: stack) p - 1) q = stacked c stack q
  unfold stacked
  rw [Function.update_apply, List.count_cons, List.count_cons]
  by_cases hqp : q = p
  · simp [hqp, ← Nat.add_assoc]
  · simp [hqp, Ne.symm hqp]

/-- **Nested events** unpin what they pin. -/
theorem Nested.pinsAfter {stack : List P} (ht : Nested stack t) (c : P → Nat) :
    pinsAfter (stacked c stack) t = c := by
  induction t generalizing stack with
  | nil =>
    rw [show stack = [] from ht]
    funext p
    simp [stacked]
  | cons e t ih =>
    rw [pinsAfter_cons]
    cases e with
    | fetch p =>
      rw [apply_fetch_stacked]
      exact ih ht
    | unpin p d =>
      cases stack with
      | nil => exact ht.elim
      | cons q stack =>
        obtain ⟨rfl, ht⟩ := ht
        rw [apply_unpin_stacked]
        exact ih ht
    | read p => exact ih ht.2
    | write p => exact ih ht.2

/-- They keep the pin counts. -/
theorem Nested.kept (ht : Nested [] t) : Kept t := by
  intro c
  have hc : stacked c [] = c := by
    funext p
    simp [stacked]
  rw [← hc]
  simpa [hc] using ht.pinsAfter c

/-- They use and unpin what they have pinned themselves. -/
theorem Nested.covered (huse : ∀ e q, use e = some q → e.used = some q ∨ e.unpinned = some q)
    {stack : List P} (ht : Nested stack t) (c : P → Nat) : Covered use (stacked c stack) t := by
  have hpos : ∀ {stack : List P} {q : P}, q ∈ stack → 0 < stacked c stack q := fun hq =>
    Nat.lt_of_lt_of_le (List.count_pos_iff.mpr hq) (Nat.le_add_left _ _)
  induction t generalizing stack with
  | nil => trivial
  | cons e t ih =>
    cases e with
    | fetch p =>
      refine ⟨fun q hq => ?_, ?_⟩
      · rcases huse _ q hq with h | h <;> cases h
      · rw [apply_fetch_stacked]
        exact ih ht
    | unpin p d =>
      cases stack with
      | nil => exact ht.elim
      | cons p' stack =>
        obtain ⟨rfl, ht⟩ := ht
        refine ⟨fun q hq => ?_, ?_⟩
        · rcases huse _ q hq with h | h <;> cases h
          exact hpos List.mem_cons_self
        · rw [apply_unpin_stacked]
          exact ih ht
    | read p =>
      refine ⟨fun q hq => ?_, ih ht.2⟩
      rcases huse _ q hq with h | h <;> cases h
      exact hpos ht.1
    | write p =>
      refine ⟨fun q hq => ?_, ih ht.2⟩
      rcases huse _ q hq with h | h <;> cases h
      exact hpos ht.1

/-- A nested trace covers its uses by its own fetches. -/
theorem Nested.covered_zero (huse : ∀ e q, use e = some q → e.used = some q ∨ e.unpinned = some q)
    (ht : Nested [] t) : Covered use (fun _ => 0) t := by
  have hzero : (fun _ => 0 : P → Nat) = stacked (fun _ => 0) [] := by
    funext p
    rfl
  rw [hzero]
  exact ht.covered huse _

omit [DecidableEq P] in
/-- Nested events one after the other. -/
theorem Nested.append {stack : List P} (ht : Nested stack t) (hu : Nested [] u) : Nested stack (t ++ u) := by
  induction t generalizing stack with
  | nil =>
    rw [show stack = [] from ht]
    exact hu
  | cons e t ih =>
    cases e with
    | fetch p => exact ih ht
    | unpin p d =>
      cases stack with
      | nil => exact ht.elim
      | cons q stack => exact ⟨ht.1, ih ht.2⟩
    | read p => exact ⟨ht.1, ih ht.2⟩
    | write p => exact ⟨ht.1, ih ht.2⟩

omit [DecidableEq P] in
/-- **A page is fetched, used and unpinned.** -/
theorem Uses.nested (ht : Uses p t) (d : Bool) : Nested [] (.fetch p :: (t ++ [.unpin p d])) := by
  show Nested [p] (t ++ [.unpin p d])
  induction t with
  | nil => exact ⟨rfl, rfl⟩
  | cons e t ih =>
    have hrest := ih fun x hx => ht x (List.mem_cons_of_mem e hx)
    rcases ht e List.mem_cons_self with rfl | rfl
    · exact ⟨List.mem_singleton_self p, hrest⟩
    · exact ⟨List.mem_singleton_self p, hrest⟩

omit [DecidableEq P] in
/-- One use of a page, released dirty. -/
theorem Uses.dirtyReleased (ht : Uses p t) : DirtyReleased (t ++ [.unpin p true]) := by
  induction t with
  | nil => trivial
  | cons e t ih =>
    have hrest := ih fun x hx => ht x (List.mem_cons_of_mem e hx)
    rcases ht e List.mem_cons_self with rfl | rfl
    · exact hrest
    · exact ⟨by simp, hrest⟩

/-- Using a page is not unpinning. -/
theorem Uses.covered_unpinned (ht : Uses p t) : Covered PinEvent.unpinned h t := by
  induction t generalizing h with
  | nil => trivial
  | cons e t ih =>
    have hrest := ih (h := e.apply h) fun x hx => ht x (List.mem_cons_of_mem e hx)
    rcases ht e List.mem_cons_self with rfl | rfl
    · exact ⟨by simp, hrest⟩
    · exact ⟨by simp, hrest⟩

/-- It is not pinning either. -/
theorem Uses.pinsAfter (ht : Uses p t) (c : P → Nat) : pinsAfter c t = c := by
  induction t with
  | nil => rfl
  | cons e t ih =>
    have hrest := ih fun x hx => ht x (List.mem_cons_of_mem e hx)
    rcases ht e List.mem_cons_self with rfl | rfl
    · exact hrest
    · exact hrest

/-- **A page is fetched, used and unpinned** just if the unpin is for the frame that was fetched. -/
theorem Uses.covered_bracket (ht : Uses p t) {q : P} {d : Bool} :
    Covered PinEvent.unpinned (fun _ => 0) (.fetch p :: (t ++ .unpin q d :: u)) ↔
      q = p ∧ Covered PinEvent.unpinned (fun _ => 0) u := by
  have hfetch : (PinEvent.fetch p).apply (fun _ => 0) = stacked (fun _ => 0) [p] :=
    apply_fetch_stacked (fun _ => 0) [] p
  have hback : (PinEvent.unpin p d).apply (stacked (fun _ => 0) [p]) = fun _ => 0 :=
    apply_unpin_stacked (fun _ => 0) [] p d
  simp only [Covered, covered_append, hfetch, ht.pinsAfter, ht.covered_unpinned, PinEvent.unpinned_fetch,
    PinEvent.unpinned_unpin, reduceCtorEq, false_imp_iff, implies_true, true_and, Option.some.injEq]
  constructor
  · rintro ⟨hpos, hu⟩
    obtain rfl : q = p := by
      have hq := hpos q rfl
      by_contra hne
      simp [stacked, Ne.symm hne] at hq
    exact ⟨rfl, hback ▸ hu⟩
  · rintro ⟨rfl, hu⟩
    refine ⟨?_, hback.symm ▸ hu⟩
    rintro x rfl
    simp [stacked]

omit [DecidableEq P] in
/-- Using a page keeps the number of pins. -/
theorem Uses.excess (ht : Uses p t) : excess t = 0 := by
  induction t with
  | nil => rfl
  | cons e t ih =>
    have hrest := ih fun x hx => ht x (List.mem_cons_of_mem e hx)
    rcases ht e List.mem_cons_self with rfl | rfl
    · exact hrest
    · exact hrest

/-! ### Two users at once -/

/-- The events of one user, marked, and of the others. -/
abbrev Interleaving (P : Type*) := List (Bool × PinEvent P)

/-- The events of the user. -/
def Interleaving.own (T : Interleaving P) : List (PinEvent P) := (T.filter fun e => e.1).map Prod.snd

/-- The events of the others. -/
def Interleaving.others (T : Interleaving P) : List (PinEvent P) := (T.filter fun e => !e.1).map Prod.snd

/-- All events. -/
def Interleaving.events (T : Interleaving P) : List (PinEvent P) := T.map Prod.snd

/-- An event on the pins of its user and those of others. -/
theorem apply_add (e : PinEvent P) (c h : P → Nat) (hpos : ∀ p, e.unpinned = some p → 0 < h p) :
    e.apply (fun p => c p + h p) = fun p => c p + e.apply h p := by
  funext p
  cases e with
  | fetch q =>
    show Function.update (fun p => c p + h p) q (c q + h q + 1) p = c p + Function.update h q (h q + 1) p
    rw [Function.update_apply, Function.update_apply]
    split
    · rename_i hpq
      rw [hpq, Nat.add_assoc]
    · rfl
  | unpin q d =>
    have := hpos q rfl
    show Function.update (fun p => c p + h p) q (c q + h q - 1) p = c p + Function.update h q (h q - 1) p
    rw [Function.update_apply, Function.update_apply]
    split
    · rename_i hpq
      rw [hpq]
      omega
    · rfl
  | read q => rfl
  | write q => rfl

/-- What a user does that unpins what it has pinned adds to the pins of others. -/
theorem Covered.pinsAfter_add {c : P → Nat} (ht : Covered PinEvent.unpinned h t) :
    pinsAfter (fun p => c p + h p) t = fun p => c p + pinsAfter h t p := by
  induction t generalizing h with
  | nil => rfl
  | cons e t ih =>
    rw [pinsAfter_cons, apply_add e c h ht.1]
    exact ih ht.2

/-- So the pins of two such users add up. -/
theorem pinsAfter_interleaved (T : Interleaving P) (c h₁ h₂ : P → Nat)
    (hown : Covered PinEvent.unpinned h₁ T.own) (hothers : Covered PinEvent.unpinned h₂ T.others) :
    pinsAfter (fun p => c p + h₂ p + h₁ p) T.events =
      fun p => c p + pinsAfter h₂ T.others p + pinsAfter h₁ T.own p := by
  induction T generalizing h₁ h₂ with
  | nil => rfl
  | cons x T ih =>
    obtain ⟨b, e⟩ := x
    cases b with
    | true =>
      show pinsAfter (e.apply fun p => (c p + h₂ p) + h₁ p) (Interleaving.events T) = _
      rw [apply_add e _ h₁ hown.1]
      exact ih (e.apply h₁) h₂ hown.2 hothers
    | false =>
      have hswap : ∀ h : P → Nat, (fun p => c p + h p + h₁ p) = fun p => (c p + h₁ p) + h p := fun h => by
        funext p
        omega
      show pinsAfter (e.apply fun p => c p + h₂ p + h₁ p) (Interleaving.events T) = _
      rw [hswap, apply_add e _ h₂ hothers.1, ← hswap]
      exact ih h₁ (e.apply h₂) hown hothers.2

/-- **A user that keeps the counts** does so while others work: in the end the counts are what the others
    alone make of them. -/
theorem Kept.interleaved {T : Interleaving P} (hkept : Kept T.own)
    (hown : Covered PinEvent.unpinned (fun _ => 0) T.own)
    (hothers : Covered PinEvent.unpinned (fun _ => 0) T.others) (c : P → Nat) :
    pinsAfter c T.events = pinsAfter c T.others := by
  have hall := pinsAfter_interleaved T c _ _ hown hothers
  have hself := hothers.pinsAfter_add (c := c)
  rw [hkept] at hall
  simpa only [Nat.add_zero] using hall.trans hself.symm

end Rmdb.Lib
