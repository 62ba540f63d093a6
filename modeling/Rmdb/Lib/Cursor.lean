import Mathlib.Data.List.Basic
import Rmdb.Lib.Transition

namespace Rmdb.Lib

/-!
# Cursors

A cursor points at an item of some collection, or is at its end.  Reading the item and going on may
fail.  A scan goes through the items and keeps those that pass a test.

* `Cursor.seek` — the loop to the next item that passes; `Cursor.scan` — all such items;
* `Cursor.Visits` — the cursor goes through these items and reaches the end;
* `Visits.scan_eq` — then the scan is a filter; `exists_visits` — a scan that ends well has visited
  items up to the end.
-/

/-- A cursor with states `σ` over items `α`.  `stuck` is what a loop reports that does not end within
    its fuel. -/
structure Cursor (σ α ε : Type) where
  isEnd : σ → Bool
  item : σ → Except ε α
  next : σ → Except ε σ
  stuck : ε

namespace Cursor

variable {σ α ε : Type} (c : Cursor σ α ε) (check : α → Except ε Bool)

/-- Go on to the next item that passes the test, or to the end. -/
def seek : Nat → σ → Except ε σ
  | 0, _ => .error c.stuck
  | fuel + 1, st =>
    if c.isEnd st then .ok st
    else do
      let a ← c.item st
      if ← check a then return st
      let st ← c.next st
      seek fuel st

/-- The items from one that passes the test to the end. -/
def collect : Nat → σ → Except ε (List α)
  | 0, _ => .error c.stuck
  | fuel + 1, st =>
    if c.isEnd st then .ok []
    else do
      let a ← c.item st
      let st ← c.next st
      let st ← c.seek check fuel st
      let rest ← collect fuel st
      return a :: rest

/-- All items that pass the test. -/
def scan (fuel : Nat) (st : σ) : Except ε (List α) := do
  let st ← c.seek check fuel st
  c.collect check fuel st

/-- The cursor goes through these items and reaches the end. -/
inductive Visits : σ → List α → Prop
  | done {st : σ} (hend : c.isEnd st = true) : Visits st []
  | item {st st' : σ} {a : α} {l : List α} (hend : c.isEnd st = false) (hitem : c.item st = .ok a)
      (hnext : c.next st = .ok st') (hrest : Visits st' l) : Visits st (a :: l)

variable {c check} {st st' : σ} {l : List α} {p : α → Bool}

/-- An item that fails the test is passed over. -/
theorem seek_skip {a : α} (hend : c.isEnd st = false) (hitem : c.item st = .ok a)
    (hnext : c.next st = .ok st') (hcheck : check a = .ok false) (fuel : Nat) :
    c.seek check (fuel + 1) st = c.seek check fuel st' := by
  rw [seek, hend, if_neg Bool.false_ne_true, hitem]
  show (check a >>= _) = _
  rw [hcheck]
  show (c.next st >>= _) = _
  rw [hnext]
  rfl

/-- The loop stops at an item that passes. -/
theorem seek_stop {a : α} (hend : c.isEnd st = false) (hitem : c.item st = .ok a)
    (hcheck : check a = .ok true) (fuel : Nat) : c.seek check (fuel + 1) st = .ok st := by
  rw [seek, hend, if_neg Bool.false_ne_true, hitem]
  show (check a >>= _) = _
  rw [hcheck]
  rfl

/-- Where the loop stops: the end, or the first item that passes. -/
theorem Visits.seek (h : c.Visits st l) (hcheck : ∀ a ∈ l, check a = .ok (p a)) {fuel : Nat}
    (hfuel : l.length < fuel) : ∃ st' l', c.seek check fuel st = .ok st' ∧ c.Visits st' l' ∧
      l'.length ≤ l.length ∧ l' ⊆ l ∧ l'.filter p = l.filter p ∧ ∀ a ∈ l'.head?, p a = true := by
  induction h generalizing fuel with
  | @done st hend =>
    obtain ⟨fuel, rfl⟩ : ∃ n, fuel = n + 1 := ⟨fuel - 1, by omega⟩
    refine ⟨st, [], ?_, .done hend, Nat.le_refl _, List.Subset.refl _, rfl, fun _ h => nomatch h⟩
    rw [Cursor.seek, hend]
    rfl
  | @item st st' a l hend hitem hnext hrest ih =>
    obtain ⟨fuel, rfl⟩ : ∃ n, fuel = n + 1 := ⟨fuel - 1, by omega⟩
    have ha := hcheck a List.mem_cons_self
    cases hp : p a with
    | true =>
      rw [hp] at ha
      refine ⟨st, a :: l, seek_stop hend hitem ha fuel, .item hend hitem hnext hrest, Nat.le_refl _,
        List.Subset.refl _, rfl, fun x hx => ?_⟩
      cases hx
      exact hp
    | false =>
      rw [hp] at ha
      have hlen : l.length < fuel := by
        rw [List.length_cons] at hfuel
        omega
      obtain ⟨st₁, l₁, hseek, hv, hle, hsub, hfilter, hhead⟩ :=
        ih (fun x hx => hcheck x (List.mem_cons_of_mem _ hx)) hlen
      refine ⟨st₁, l₁, ?_, hv, ?_, fun x hx => List.mem_cons_of_mem _ (hsub hx), ?_, hhead⟩
      · rw [seek_skip hend hitem hnext ha, hseek]
      · rw [List.length_cons]
        omega
      · rw [hfilter, List.filter_cons, hp, if_neg Bool.false_ne_true]

/-- From an item that passes on, the driver's loop collects what passes. -/
theorem Visits.collect (h : c.Visits st l) (hcheck : ∀ a ∈ l, check a = .ok (p a))
    (hhead : ∀ a ∈ l.head?, p a = true) {fuel : Nat} (hfuel : l.length < fuel) :
    c.collect check fuel st = .ok (l.filter p) := by
  induction fuel generalizing st l with
  | zero => omega
  | succ fuel ih =>
    cases h with
    | done hend =>
      rw [Cursor.collect, hend]
      rfl
    | @item _ st' a l hend hitem hnext hrest =>
      rw [List.length_cons] at hfuel
      obtain ⟨st₁, l₁, hseek, hv, hle, hsub, hfilter, hhead₁⟩ :=
        hrest.seek (fun x hx => hcheck x (List.mem_cons_of_mem _ hx)) (Nat.lt_of_succ_lt_succ hfuel)
      have hrec := ih hv (fun x hx => hcheck x (List.mem_cons_of_mem _ (hsub hx))) hhead₁ (by omega)
      rw [Cursor.collect, hend, if_neg Bool.false_ne_true, hitem]
      show (c.next st >>= _) = _
      rw [hnext]
      show (c.seek check fuel st' >>= _) = _
      rw [hseek]
      show (c.collect check fuel st₁ >>= _) = _
      rw [hrec, hfilter, List.filter_cons, hhead a rfl]
      rfl

/-- **A scan is a filter** of the items its cursor visits. -/
theorem Visits.scan_eq (h : c.Visits st l) (hcheck : ∀ a ∈ l, check a = .ok (p a)) {fuel : Nat}
    (hfuel : l.length < fuel) : c.scan check fuel st = .ok (l.filter p) := by
  obtain ⟨st₁, l₁, hseek, hv, hle, hsub, hfilter, hhead⟩ := h.seek hcheck hfuel
  unfold scan
  rw [hseek, ← hfilter]
  exact hv.collect (fun x hx => hcheck x (hsub hx)) hhead (by omega)

theorem visits_of_seek {fuel : Nat} (h : c.seek check fuel st = .ok st') (hv : c.Visits st' l) :
    ∃ l', c.Visits st l' := by
  induction fuel generalizing st with
  | zero => cases h
  | succ fuel ih =>
    rw [seek] at h
    cases hend : c.isEnd st with
    | true => exact ⟨[], .done hend⟩
    | false =>
      rw [hend, if_neg Bool.false_ne_true] at h
      obtain ⟨a, hitem, h⟩ := bind_eq_ok.mp h
      obtain ⟨b, hcheck, h⟩ := bind_eq_ok.mp h
      cases b with
      | true =>
        cases h
        exact ⟨l, hv⟩
      | false =>
        obtain ⟨st₁, hnext, h⟩ := bind_eq_ok.mp h
        obtain ⟨l', hl'⟩ := ih h
        exact ⟨a :: l', .item hend hitem hnext hl'⟩

theorem visits_of_collect {fuel : Nat} {r : List α} (h : c.collect check fuel st = .ok r) :
    ∃ l, c.Visits st l := by
  induction fuel generalizing st r with
  | zero => cases h
  | succ fuel ih =>
    rw [collect] at h
    cases hend : c.isEnd st with
    | true => exact ⟨[], .done hend⟩
    | false =>
      rw [hend, if_neg Bool.false_ne_true] at h
      obtain ⟨a, hitem, h⟩ := bind_eq_ok.mp h
      obtain ⟨st₁, hnext, h⟩ := bind_eq_ok.mp h
      obtain ⟨st₂, hseek, h⟩ := bind_eq_ok.mp h
      obtain ⟨rest, hrest, h⟩ := bind_eq_ok.mp h
      obtain ⟨l, hl⟩ := ih hrest
      obtain ⟨l', hl'⟩ := visits_of_seek hseek hl
      exact ⟨a :: l', .item hend hitem hnext hl'⟩

/-- A scan that ends well has taken its cursor to the end. -/
theorem exists_visits {fuel : Nat} {r : List α} (h : c.scan check fuel st = .ok r) :
    ∃ l, c.Visits st l := by
  obtain ⟨st₁, hseek, hcollect⟩ := bind_eq_ok.mp h
  obtain ⟨l, hl⟩ := visits_of_collect hcollect
  exact visits_of_seek hseek hl

/-- More fuel does not change where the loop stops. -/
theorem seek_mono {fuel fuel' : Nat} (h : c.seek check fuel st = .ok st') (hle : fuel ≤ fuel') :
    c.seek check fuel' st = .ok st' := by
  induction fuel generalizing fuel' st with
  | zero => cases h
  | succ fuel ih =>
    obtain ⟨n, rfl⟩ : ∃ n, fuel' = n + 1 := ⟨fuel' - 1, by omega⟩
    rw [seek] at h ⊢
    cases hend : c.isEnd st with
    | true =>
      rw [hend] at h
      exact h
    | false =>
      rw [hend, if_neg Bool.false_ne_true] at h
      obtain ⟨a, hitem, h⟩ := bind_eq_ok.mp h
      obtain ⟨b, hcheck, h⟩ := bind_eq_ok.mp h
      rw [if_neg Bool.false_ne_true]
      refine bind_eq_ok.mpr ⟨a, hitem, bind_eq_ok.mpr ⟨b, hcheck, ?_⟩⟩
      cases b with
      | true => exact h
      | false =>
        obtain ⟨st₁, hnext, h⟩ := bind_eq_ok.mp h
        exact bind_eq_ok.mpr ⟨st₁, hnext, ih h (Nat.le_of_succ_le_succ hle)⟩

theorem collect_mono {fuel fuel' : Nat} {r : List α} (h : c.collect check fuel st = .ok r)
    (hle : fuel ≤ fuel') : c.collect check fuel' st = .ok r := by
  induction fuel generalizing fuel' st r with
  | zero => cases h
  | succ fuel ih =>
    obtain ⟨n, rfl⟩ : ∃ n, fuel' = n + 1 := ⟨fuel' - 1, by omega⟩
    have hle' := Nat.le_of_succ_le_succ hle
    rw [collect] at h ⊢
    cases hend : c.isEnd st with
    | true =>
      rw [hend] at h
      exact h
    | false =>
      rw [hend, if_neg Bool.false_ne_true] at h
      obtain ⟨a, hitem, h⟩ := bind_eq_ok.mp h
      obtain ⟨st₁, hnext, h⟩ := bind_eq_ok.mp h
      obtain ⟨st₂, hseek, h⟩ := bind_eq_ok.mp h
      obtain ⟨rest, hrest, h⟩ := bind_eq_ok.mp h
      rw [if_neg Bool.false_ne_true]
      exact bind_eq_ok.mpr ⟨a, hitem, bind_eq_ok.mpr ⟨st₁, hnext, bind_eq_ok.mpr
        ⟨st₂, seek_mono hseek hle', bind_eq_ok.mpr ⟨rest, ih hrest hle', h⟩⟩⟩⟩

/-- More fuel does not change the result. -/
theorem scan_mono {fuel fuel' : Nat} {r : List α} (h : c.scan check fuel st = .ok r)
    (hle : fuel ≤ fuel') : c.scan check fuel' st = .ok r := by
  obtain ⟨st₁, hseek, hcollect⟩ := bind_eq_ok.mp h
  exact bind_eq_ok.mpr ⟨st₁, seek_mono hseek hle, collect_mono hcollect hle⟩

/-- A cursor visits one list of items. -/
theorem Visits.unique {l' : List α} (h : c.Visits st l) (h' : c.Visits st l') : l = l' := by
  induction h generalizing l' with
  | done hend =>
    cases h' with
    | done => rfl
    | item hend' =>
      rw [hend] at hend'
      cases hend'
  | item hend hitem hnext hrest ih =>
    cases h' with
    | done hend' =>
      rw [hend] at hend'
      cases hend'
    | item hend' hitem' hnext' hrest' =>
      cases hitem.symm.trans hitem'
      cases hnext.symm.trans hnext'
      rw [ih hrest']

/-- **A scan ends well just if its cursor reaches the end**, and its result is then a filter. -/
theorem exists_scan_iff (hcheck : ∀ l, c.Visits st l → ∀ a ∈ l, check a = .ok (p a)) {r : List α} :
    (∃ fuel, c.scan check fuel st = .ok r) ↔ ∃ l, c.Visits st l ∧ r = l.filter p := by
  constructor
  · rintro ⟨fuel, hscan⟩
    obtain ⟨l, hl⟩ := exists_visits hscan
    have hmore := hl.scan_eq (hcheck l hl) (show l.length < max fuel (l.length + 1) by omega)
    have hsame := scan_mono hscan (Nat.le_max_left fuel (l.length + 1))
    exact ⟨l, hl, Except.ok.inj (hsame.symm.trans hmore)⟩
  · rintro ⟨l, hl, rfl⟩
    exact ⟨l.length + 1, hl.scan_eq (hcheck l hl) (Nat.lt_succ_self _)⟩

/-- The same cursor, with its errors seen as others. -/
def mapError {ε' : Type} (f : ε → ε') (c : Cursor σ α ε) : Cursor σ α ε' where
  isEnd := c.isEnd
  item st := (c.item st).mapError f
  next st := (c.next st).mapError f
  stuck := f c.stuck

theorem visits_mapError {ε' : Type} {f : ε → ε'} : (c.mapError f).Visits st l ↔ c.Visits st l := by
  constructor
  · intro h
    induction h with
    | done hend => exact .done hend
    | item hend hitem hnext _ ih =>
      exact .item hend (mapError_eq_ok.mp hitem) (mapError_eq_ok.mp hnext) ih
  · intro h
    induction h with
    | done hend => exact .done hend
    | item hend hitem hnext _ ih =>
      exact .item hend (mapError_eq_ok.mpr hitem) (mapError_eq_ok.mpr hnext) ih

end Cursor

end Rmdb.Lib
