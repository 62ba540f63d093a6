import Mathlib.Data.List.Basic
import Mathlib.Algebra.Order.Ring.Int

namespace Rmdb.Lib

/-!
# Formatted text streams

Text that is written with spaces or line ends between the items, and read back item by item, as with
`operator<<` and `operator>>`.  A reader skips the white space before its item and stops after it.

* `Reader` — readers; `none` stands for a stream that fails;
* `readToken`, `readNat`, `readInt`, `readMany` — a word, a number, a number of items;
* `Reads` — the reader gets the item from the text, whatever white space is before it;
* `Reads.bind`, `Reads.many` — readers of composed texts.
-/

/-- White space, as `isspace` has it. -/
def isSpace (c : Char) : Bool :=
  c = ' ' || c = '\n' || c = '\t' || c = '\r' || c = Char.ofNat 11 || c = Char.ofNat 12

/-- A reader takes an item from the front of the text. -/
abbrev Reader (α : Type) := StateT (List Char) Option α

/-- The longest prefix of characters in `p`, after white space; it may not be empty. -/
def readWhile (p : Char → Bool) : Reader (List Char) := fun cs =>
  let cs := cs.dropWhile isSpace
  if cs.takeWhile p = [] then none else some (cs.takeWhile p, cs.dropWhile p)

/-- `is >> s` for a string. -/
def readToken : Reader String := do
  let cs ← readWhile fun c => !isSpace c
  return String.ofList cs

/-- `is >> n` for a number that is not negative. -/
def readNat : Reader Nat := do
  let cs ← readWhile Char.isDigit
  return Nat.ofDigitChars 10 cs 0

/-- Digits, without white space before them. -/
def readDigits : Reader Nat := fun cs =>
  if cs.takeWhile Char.isDigit = [] then none
  else some (Nat.ofDigitChars 10 (cs.takeWhile Char.isDigit) 0, cs.dropWhile Char.isDigit)

/-- A number after its sign. -/
def readSigned (sign : Int) : Reader Int := do
  let n ← readDigits
  return sign * n

/-- `is >> n` for a number with or without a sign. -/
def readInt : Reader Int := fun cs =>
  match cs.dropWhile isSpace with
  | '-' :: cs => readSigned (-1) cs
  | '+' :: cs => readSigned 1 cs
  | cs => readSigned 1 cs

/-- `n` items. -/
def readMany {α : Type} (r : Reader α) : Nat → Reader (List α)
  | 0 => return []
  | n + 1 => do
    let x ← r
    let xs ← readMany r n
    return x :: xs

/-- `os << n`. -/
def writeNat (n : Nat) : List Char := Nat.toDigits 10 n

/-- `os << n` with a sign where it is negative. -/
def writeInt : Int → List Char
  | .ofNat n => writeNat n
  | .negSucc n => '-' :: writeNat (n + 1)

variable {α β : Type} {P : List Char → Prop} {r : Reader α} {t t' : List Char} {a : α} {b : β}

/-- The text begins with white space, or is empty. -/
def Ends : List Char → Prop
  | [] => True
  | c :: _ => isSpace c = true

/-- **The reader gets `a` from the text `t`**, whatever white space is before it, if the rest is in
    `P`.  White space may be left. -/
def Reads (P : List Char → Prop) (r : Reader α) (t : List Char) (a : α) : Prop :=
  ∀ ws rest, ws.all isSpace = true → P rest →
    ∃ ws', ws'.all isSpace = true ∧ r (ws ++ (t ++ rest)) = some (a, ws' ++ rest)

/-- The rest is anything. -/
abbrev Anything : List Char → Prop := fun _ => True

/-! ### Single items -/

theorem dropWhile_spaces {ws : List Char} (h : ws.all isSpace = true) (cs : List Char) :
    (ws ++ cs).dropWhile isSpace = cs.dropWhile isSpace := by
  induction ws with
  | nil => rfl
  | cons c ws ih =>
    rw [List.all_cons, Bool.and_eq_true] at h
    rw [List.cons_append, List.dropWhile_cons_of_pos h.1, ih h.2]

/-- A word in `p`, and no space, is read up to its end. -/
theorem readWhile_reads {p : Char → Bool} (hp : ∀ c, isSpace c = true → p c = false)
    (hne : t ≠ []) (ht : ∀ c ∈ t, p c = true) : Reads Ends (readWhile p) t t := by
  intro ws rest hws hrest
  refine ⟨[], rfl, ?_⟩
  have hstart : (ws ++ (t ++ rest)).dropWhile isSpace = t ++ rest := by
    rw [dropWhile_spaces hws]
    obtain ⟨c, cs, rfl⟩ := List.exists_cons_of_ne_nil hne
    have hc : isSpace c ≠ true := fun hs => by
      have hpc := ht c List.mem_cons_self
      rw [hp c hs] at hpc
      cases hpc
    exact List.dropWhile_cons_of_neg hc
  have hstop : rest.takeWhile p = [] ∧ rest.dropWhile p = rest := by
    cases rest with
    | nil => exact ⟨rfl, rfl⟩
    | cons c cs =>
      have hc := hp c hrest
      exact ⟨List.takeWhile_cons_of_neg (by simp [hc]), List.dropWhile_cons_of_neg (by simp [hc])⟩
  have htake : (t ++ rest).takeWhile p = t := by
    rw [List.takeWhile_append_of_pos ht, hstop.1, List.append_nil]
  have hdrop : (t ++ rest).dropWhile p = rest := by
    rw [List.dropWhile_append_of_pos ht, hstop.2]
  unfold readWhile
  simp only [hstart, htake, hdrop, if_neg hne, List.nil_append]

/-- A result is computed from what was read. -/
theorem Reads.result (h : Reads P r t a) {k : α → Reader β} (hk : k a = pure b) :
    Reads P (r >>= k) t b := by
  intro ws rest hws hrest
  obtain ⟨ws', hws', hr⟩ := h ws rest hws hrest
  refine ⟨ws', hws', ?_⟩
  show (r (ws ++ (t ++ rest)) >>= fun x => k x.1 x.2) = _
  rw [hr]
  show k a (ws' ++ rest) = _
  rw [hk]
  rfl

/-- A string that is one word. -/
def IsToken (s : String) : Prop := s ≠ "" ∧ ∀ c ∈ s.toList, isSpace c = false

theorem readToken_reads {s : String} (hs : IsToken s) : Reads Ends readToken s.toList s := by
  have hne : s.toList ≠ [] := fun hnil => hs.1 (String.toList_eq_nil_iff.mp hnil)
  have hread := readWhile_reads (p := fun c => !isSpace c) (by simp) hne fun c hc => by
    simp [hs.2 c hc]
  exact hread.result (by rw [String.ofList_toList])

theorem isDigit_of_isSpace {c : Char} (hc : isSpace c = true) : c.isDigit = false := by
  simp only [isSpace, Bool.or_eq_true, decide_eq_true_eq] at hc
  rcases hc with ((((rfl | rfl) | rfl) | rfl) | rfl) | rfl <;> rfl

theorem isDigit_of_mem_writeNat {n : Nat} {c : Char} (hc : c ∈ writeNat n) : c.isDigit = true :=
  Nat.isDigit_of_mem_toDigits (by decide) (by decide) hc

theorem readNat_reads (n : Nat) : Reads Ends readNat (writeNat n) n := by
  have hne : writeNat n ≠ [] := Nat.toDigits_ne_nil
  have hread := readWhile_reads (fun _ => isDigit_of_isSpace) hne fun c => isDigit_of_mem_writeNat
  exact hread.result (congrArg pure Nat.ofDigitChars_ten_toDigits)

/-- The digits of a number are read up to their end. -/
theorem readDigits_eq (n : Nat) {rest : List Char} (hrest : Ends rest) :
    readDigits (writeNat n ++ rest) = some (n, rest) := by
  have hne : writeNat n ≠ [] := Nat.toDigits_ne_nil
  have hdigits : ∀ c ∈ writeNat n, c.isDigit = true := fun c => isDigit_of_mem_writeNat
  have hstop : rest.takeWhile Char.isDigit = [] ∧ rest.dropWhile Char.isDigit = rest := by
    cases rest with
    | nil => exact ⟨rfl, rfl⟩
    | cons c cs =>
      have hc := isDigit_of_isSpace hrest
      exact ⟨List.takeWhile_cons_of_neg (by simp [hc]), List.dropWhile_cons_of_neg (by simp [hc])⟩
  unfold readDigits
  rw [List.takeWhile_append_of_pos hdigits, List.dropWhile_append_of_pos hdigits, hstop.1, hstop.2,
    List.append_nil, if_neg hne]
  exact congrArg (fun k => some (k, rest)) Nat.ofDigitChars_ten_toDigits

theorem readSigned_eq (sign : Int) (n : Nat) {rest : List Char} (hrest : Ends rest) :
    readSigned sign (writeNat n ++ rest) = some (sign * n, rest) := by
  unfold readSigned
  show (readDigits (writeNat n ++ rest) >>= fun x => some (sign * (x.1 : Int), x.2)) = _
  rw [readDigits_eq n hrest]
  rfl

theorem readInt_reads (n : Int) : Reads Ends readInt (writeInt n) n := by
  intro ws rest hws hrest
  refine ⟨[], rfl, ?_⟩
  unfold readInt
  rw [dropWhile_spaces hws, List.nil_append]
  cases n with
  | negSucc n =>
    refine (readSigned_eq (-1) (n + 1) hrest).trans ?_
    rw [Int.negSucc_eq, Int.neg_one_mul, Nat.cast_succ]
  | ofNat n =>
    -- the number begins with a digit, so there is neither space nor a sign before it
    have hne : writeNat n ≠ [] := Nat.toDigits_ne_nil
    obtain ⟨d, ds, hds⟩ := List.exists_cons_of_ne_nil hne
    have hd : d.isDigit = true := isDigit_of_mem_writeNat (hds ▸ List.mem_cons_self)
    have hspace : ¬ isSpace d = true := fun hs => by
      rw [isDigit_of_isSpace hs] at hd
      cases hd
    have hstart : (writeNat n ++ rest).dropWhile isSpace = d :: (ds ++ rest) := by
      rw [hds]
      exact List.dropWhile_cons_of_neg hspace
    have hread := readSigned_eq 1 n hrest
    rw [one_mul, hds] at hread
    show (match (writeNat n ++ rest).dropWhile isSpace with
      | '-' :: cs => readSigned (-1) cs
      | '+' :: cs => readSigned 1 cs
      | cs => readSigned 1 cs) = _
    rw [hstart]
    split
    · rename_i heq
      obtain ⟨rfl, -⟩ := List.cons.inj heq
      cases hd
    · rename_i heq
      obtain ⟨rfl, -⟩ := List.cons.inj heq
      cases hd
    · exact hread

/-! ### Composed texts -/

/-- A space after the item ends it. -/
theorem Reads.closed (h : Reads Ends r t a) {c : Char} (hc : isSpace c = true) :
    Reads Anything r (t ++ [c]) a := by
  intro ws rest hws _
  obtain ⟨ws', hws', hr⟩ := h ws (c :: rest) hws hc
  refine ⟨ws' ++ [c], by simp [hws', hc], ?_⟩
  rw [List.append_assoc, List.singleton_append, hr, List.append_assoc, List.singleton_append]

/-- More space after an item that has ended. -/
theorem Reads.space (h : Reads Anything r t a) {c : Char} (hc : isSpace c = true) :
    Reads Anything r (t ++ [c]) a := by
  refine Reads.closed (fun ws rest hws _ => ?_) hc
  exact h ws rest hws trivial

/-- **One item after another.** What follows the first item is what its reader allows. -/
theorem Reads.bind {Q : List Char → Prop} {k : α → Reader β} (h : Reads Q r t a)
    (hk : Reads P (k a) t' b) (hQ : ∀ rest, P rest → Q (t' ++ rest)) :
    Reads P (r >>= k) (t ++ t') b := by
  intro ws rest hws hrest
  obtain ⟨ws₁, hws₁, hr⟩ := h ws (t' ++ rest) hws (hQ rest hrest)
  obtain ⟨ws₂, hws₂, hk⟩ := hk ws₁ rest hws₁ hrest
  refine ⟨ws₂, hws₂, ?_⟩
  show (r (ws ++ (t ++ t' ++ rest)) >>= fun x => k x.1 x.2) = _
  rw [List.append_assoc, hr]
  exact hk

/-- The same after an item that has ended. -/
theorem Reads.then {k : α → Reader β} (h : Reads Anything r t a) (hk : Reads P (k a) t' b) :
    Reads P (r >>= k) (t ++ t') b :=
  h.bind hk fun _ _ => trivial

/-- The end of a reader. -/
theorem reads_pure (b : β) : Reads P (pure b) [] b := fun ws _ hws _ => ⟨ws, hws, rfl⟩

/-- A list whose items have each ended. -/
theorem Reads.many {w : α → List Char} {xs : List α} (h : ∀ x ∈ xs, Reads Anything r (w x) x) :
    Reads Anything (readMany r xs.length) (xs.flatMap w) xs := by
  induction xs with
  | nil => exact reads_pure []
  | cons x xs ih =>
    have hx := h x List.mem_cons_self
    have hxs := ih fun y hy => h y (List.mem_cons_of_mem _ hy)
    rw [List.flatMap_cons]
    exact hx.then (hxs.result rfl)

/-- A list whose items each begin with a space. -/
theorem Reads.many_spaced {w : α → List Char} {c : Char} (hc : isSpace c = true) {xs : List α}
    (h : ∀ x ∈ xs, Reads Ends r (w x) x) :
    Reads Ends (readMany r xs.length) (xs.flatMap fun x => c :: w x) xs := by
  induction xs with
  | nil => exact reads_pure []
  | cons x xs ih =>
    have hx : Reads Ends r (c :: w x) x := by
      intro ws rest hws hrest
      obtain ⟨ws', hws', hr⟩ := h x List.mem_cons_self (ws ++ [c]) rest (by simp [hws, hc]) hrest
      refine ⟨ws', hws', ?_⟩
      simpa using hr
    have hxs := ih fun y hy => h y (List.mem_cons_of_mem _ hy)
    rw [List.flatMap_cons]
    refine hx.bind (hxs.result rfl) fun rest hrest => ?_
    cases xs with
    | nil => exact hrest
    | cons y ys => exact hc

end Rmdb.Lib
