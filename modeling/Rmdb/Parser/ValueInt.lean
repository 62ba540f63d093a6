import Rmdb.Execution.KeyRange
import Rmdb.Lib.Decimal

namespace Rmdb

open Lib Std IndexScan

/-!
# Integer literals (`parser/lex.l`)

The action of `value_int` decides by the length of the text whether a literal is an INT or a BIGINT, and by
`strcmp` where the length does not decide.  It compares the length with `sizeof` of a literal of ten
digits, which is 11: texts of ten digits are all taken for an INT, and `strcmp` sees texts of eleven.

* `IsValueInt` — the texts of the pattern;
* `Lexer.valueInt` — the action;
* `Lexer.Right` — the token that the text stands for;
* `Lexer.valueInt_right_iff` — the texts that get it.
-/

/-- `value_int`: an optional sign, then digits. -/
def IsValueInt (text : List UInt8) : Prop :=
  ∃ sign ds, text = sign ++ ds ∧ sign ∈ [[], textBytes "+", textBytes "-"] ∧ ds ≠ [] ∧ AllDigits ds

/-- The token, with the member of `yylval` that goes with it. -/
inductive Token where
  | valueInt (svInt : Int)
  | valueBigint (svBigint : Int)
  deriving DecidableEq, Repr

/-- `std::out_of_range`. -/
inductive LexError where
  | outOfRange
  deriving DecidableEq, Repr

namespace Lexer

/-- The text begins with this sign. -/
def startsWith (yytext : List UInt8) (sign : String) : Bool := yytext.take 1 = textBytes sign

/-- The text without its sign. -/
def unsigned (yytext : List UInt8) : List UInt8 :=
  if startsWith yytext "-" || startsWith yytext "+" then yytext.drop 1 else yytext

/-- The number that the text stands for; all of it, as nothing comes behind the digits. -/
def number (yytext : List UInt8) : Int :=
  if startsWith yytext "-" then -digitsVal (unsigned yytext) else digitsVal (unsigned yytext)

/-- The number fits into an `int`. -/
def Fits32 (n : Int) : Prop := -2 ^ 31 ≤ n ∧ n < 2 ^ 31

/-- The number fits into an `int64_t`. -/
def Fits64 (n : Int) : Prop := -2 ^ 63 ≤ n ∧ n < 2 ^ 63

instance (n : Int) : Decidable (Fits32 n) := inferInstanceAs (Decidable (_ ∧ _))

instance (n : Int) : Decidable (Fits64 n) := inferInstanceAs (Decidable (_ ∧ _))

/-- `atoi`: `strtol`, which stops at the ends of a `long`, cast to an `int`. -/
def atoi (yytext : List UInt8) : Int :=
  Int.bmod (max (-2 ^ 63) (min (number yytext) (2 ^ 63 - 1))) (2 ^ 32)

/-- `std::stoll`. -/
def stoll (yytext : List UInt8) : Except LexError Int :=
  if Fits64 (number yytext) then .ok (number yytext) else .error .outOfRange

/-- `int_max`. -/
def intMax : List UInt8 := textBytes "2147483647"

/-- `int_min`, without its sign. -/
def intMin : List UInt8 := textBytes "2147483648"

/-- A branch of the action: the length of the digits, and `strcmp` where it is `sizeof` of the bound, that
    is one more than the bound has digits. -/
def classify {α : Type} (ds bound : List UInt8) (isInt isBigint : α) : α :=
  if ds.length < bound.length + 1 then isInt
  else if bound.length + 1 < ds.length then isBigint
  else if (strcmp ds bound).isLE then isInt
  else isBigint

/-- The action of `value_int`. -/
def valueInt (yytext : List UInt8) : Except LexError Token :=
  let isInt := .ok (.valueInt (atoi yytext))
  let isBigint := (stoll yytext).map .valueBigint
  if startsWith yytext "-" then classify (yytext.drop 1) intMin isInt isBigint
  else if startsWith yytext "+" then classify (yytext.drop 1) intMax isInt isBigint
  else classify yytext intMax isInt isBigint

/-- What the text stands for: an INT if the number fits into 32 bits, a BIGINT if it fits into 64. -/
def Right (yytext : List UInt8) (r : Except LexError Token) : Prop :=
  if Fits32 (number yytext) then r = .ok (.valueInt (number yytext))
  else if Fits64 (number yytext) then r = .ok (.valueBigint (number yytext))
  else ∃ e, r = .error e

/-- The bound that goes with the sign. -/
def bound (yytext : List UInt8) : List UInt8 := if startsWith yytext "-" then intMin else intMax

/-- The branches differ in the sign and the bound only. -/
theorem valueInt_eq (yytext : List UInt8) : valueInt yytext =
    classify (unsigned yytext) (bound yytext) (.ok (.valueInt (atoi yytext)))
      ((stoll yytext).map .valueBigint) := by
  unfold valueInt unsigned bound
  cases startsWith yytext "-" with
  | true => rfl
  | false => cases startsWith yytext "+" <;> rfl

/-- The text of the pattern: its digits. -/
theorem unsigned_spec {yytext : List UInt8} (h : IsValueInt yytext) :
    unsigned yytext ≠ [] ∧ AllDigits (unsigned yytext) := by
  obtain ⟨sign, ds, rfl, hsign, hne, hds⟩ := h
  simp only [List.mem_cons, List.not_mem_nil, or_false] at hsign
  have hdrop : unsigned (sign ++ ds) = ds := by
    rcases hsign with rfl | rfl | rfl
    · obtain ⟨b, ds, rfl⟩ := List.exists_cons_of_ne_nil hne
      have hb := (isDigit_iff.mp (hds b List.mem_cons_self)).1
      -- a digit is no sign
      have hsign : ∀ c : UInt8, c.toNat < 48 → [b] ≠ [c] := fun c hc heq => by
        rw [(List.cons.inj heq).1] at hb
        omega
      have hminus : startsWith (b :: ds) "-" = false := decide_eq_false (hsign 45 (by decide))
      have hplus : startsWith (b :: ds) "+" = false := decide_eq_false (hsign 43 (by decide))
      rw [List.nil_append, unsigned, hminus, hplus]
      rfl
    · rfl
    · rfl
  rw [hdrop]
  exact ⟨hne, hds⟩

/-! ### The two bounds -/

/-- A bound has ten digits, and is the largest number of its sign that fits. -/
theorem bound_spec (yytext : List UInt8) : (bound yytext).length = 10 ∧ AllDigits (bound yytext) ∧
    (Fits32 (number yytext) ↔ digitsVal (unsigned yytext) ≤ digitsVal (bound yytext)) ∧
    (2147483647 : Nat) ≤ digitsVal (bound yytext) := by
  have hmin : digitsVal intMin = 2147483648 := by decide
  have hmax : digitsVal intMax = 2147483647 := by decide
  unfold bound number Fits32
  cases startsWith yytext "-" with
  | true =>
    simp only [if_true, hmin]
    exact ⟨rfl, by decide, by omega, by omega⟩
  | false =>
    simp only [Bool.false_eq_true, if_false, hmax]
    exact ⟨rfl, by decide, by omega, by omega⟩

/-- Digits hold no NUL. -/
theorem cStr_digits {ds : List UInt8} (h : AllDigits ds) : cStr ds = ds := by
  refine List.takeWhile_eq_self_iff.mpr fun b hb => ?_
  have hdigit := (isDigit_iff.mp (h b hb)).1
  refine decide_eq_true fun hzero => ?_
  rw [hzero] at hdigit
  exact absurd hdigit (by decide)

/-- Eleven digits are below the bound in `strcmp` just if the first ten are. -/
theorem strcmp_eleven {ds b : List UInt8} (hds : AllDigits ds) (hb : AllDigits b) (hlen : b.length = 10)
    (h : ds.length = 11) : (strcmp ds b).isLE = true ↔ digitsVal ds / 10 < digitsVal b := by
  obtain ⟨front, last, rfl⟩ : ∃ front last, ds = front ++ [last] :=
    ⟨ds.dropLast, ds.getLast (List.ne_nil_of_length_pos (by omega)), (List.dropLast_append_getLast _).symm⟩
  obtain ⟨hfront, hlast⟩ := hds.of_append
  have hdigit := isDigit_iff.mp (hlast last List.mem_cons_self)
  have hlenf : front.length = b.length := by
    rw [List.length_append, List.length_singleton] at h
    omega
  have hdiv : digitsVal (front ++ [last]) / 10 = digitsVal front := by
    rw [digitsVal_concat]
    omega
  have hcmp : strcmp (front ++ [last]) b = (compare front b).then .gt := by
    unfold strcmp
    rw [cStr_digits hds, cStr_digits hb]
    have happ := compare_append hlenf [last] []
    rwa [List.append_nil] at happ
  rw [hcmp, hdiv, compare_digits hfront hb hlenf, ← Nat.compare_eq_lt]
  cases compare (digitsVal front) (digitsVal b) <;> simp [Ordering.then]

/-- When the action takes a text for an INT. -/
def TakenForInt (yytext : List UInt8) : Prop :=
  (unsigned yytext).length ≤ 10 ∨
    (unsigned yytext).length = 11 ∧ digitsVal (unsigned yytext) / 10 < digitsVal (bound yytext)

instance (yytext : List UInt8) : Decidable (TakenForInt yytext) := inferInstanceAs (Decidable (_ ∨ _))

theorem valueInt_taken {yytext : List UInt8} (h : IsValueInt yytext) : valueInt yytext =
    if TakenForInt yytext then .ok (.valueInt (atoi yytext)) else (stoll yytext).map .valueBigint := by
  obtain ⟨-, hds⟩ := unsigned_spec h
  obtain ⟨hlen, hbound, -, -⟩ := bound_spec yytext
  rw [valueInt_eq]
  unfold classify
  rw [hlen]
  rcases Nat.lt_trichotomy (unsigned yytext).length 11 with hlt | heq | hgt
  · have htaken : TakenForInt yytext := .inl (by omega)
    rw [if_pos hlt, if_pos htaken]
  · rw [if_neg (by omega), if_neg (by omega)]
    have hiff := strcmp_eleven hds hbound hlen heq
    by_cases hle : (strcmp (unsigned yytext) (bound yytext)).isLE = true
    · have htaken : TakenForInt yytext := .inr ⟨heq, hiff.mp hle⟩
      rw [if_pos hle, if_pos htaken]
    · have htaken : ¬ TakenForInt yytext := fun hor => hle (hiff.mpr (hor.resolve_left (by omega)).2)
      rw [if_neg hle, if_neg htaken]
  · have htaken : ¬ TakenForInt yytext := fun hor => hor.elim (by omega) (by omega)
    rw [if_neg (by omega), if_pos hgt, if_neg htaken]

/-- An INT is right just if the number fits. -/
theorem right_int_iff {yytext : List UInt8} (hfit : Fits64 (number yytext)) :
    Right yytext (.ok (.valueInt (atoi yytext))) ↔ Fits32 (number yytext) := by
  obtain ⟨hlo, hhi⟩ := hfit
  have hatoi : atoi yytext = Int.bmod (number yytext) (2 ^ 32) := by
    have hclamp : max (-2 ^ 63) (min (number yytext) (2 ^ 63 - 1)) = number yytext := by omega
    unfold atoi
    rw [hclamp]
  unfold Right
  by_cases h32 : Fits32 (number yytext)
  · have hbmod : Int.bmod (number yytext) (2 ^ 32) = number yytext := by
      obtain ⟨h1, h2⟩ := h32
      exact Int.bmod_eq_of_le (by omega) (by omega)
    rw [if_pos h32, hatoi, hbmod]
    exact iff_of_true rfl h32
  · rw [if_neg h32, if_pos ⟨hlo, hhi⟩]
    exact iff_of_false (by simp) h32

/-- A BIGINT, or the error, is right just if the number does not fit into 32 bits. -/
theorem right_bigint_iff (yytext : List UInt8) :
    Right yytext ((stoll yytext).map .valueBigint) ↔ ¬ Fits32 (number yytext) := by
  unfold Right stoll
  by_cases h32 : Fits32 (number yytext)
  · have h64 : Fits64 (number yytext) := by
      obtain ⟨h1, h2⟩ := h32
      exact ⟨by omega, by omega⟩
    rw [if_pos h32, if_pos h64]
    exact iff_of_false (by simp [Except.map]) (not_not.mpr h32)
  · rw [if_neg h32]
    refine iff_of_true ?_ h32
    by_cases h64 : Fits64 (number yytext)
    · rw [if_pos h64, if_pos h64]
      rfl
    · rw [if_neg h64, if_neg h64]
      exact ⟨.outOfRange, rfl⟩

/-- The texts that the action gets right: up to ten digits the number has to fit into 32 bits, from twelve
    on it must not, and of eleven digits it fits, or the first ten do not. -/
def Exact (yytext : List UInt8) : Prop :=
  let n := (unsigned yytext).length
  (n ≤ 10 → Fits32 (number yytext)) ∧
  (n = 11 → Fits32 (number yytext) ∨ digitsVal (bound yytext) ≤ digitsVal (unsigned yytext) / 10) ∧
  (12 ≤ n → ¬ Fits32 (number yytext))

/-- **The action of `value_int`** returns what the text stands for just on these texts. -/
theorem valueInt_right_iff {yytext : List UInt8} (h : IsValueInt yytext) :
    Right yytext (valueInt yytext) ↔ Exact yytext := by
  obtain ⟨-, hds⟩ := unsigned_spec h
  obtain ⟨hlen, hbound, h32, hbig⟩ := bound_spec yytext
  have hlt := digitsVal_lt hds
  rw [valueInt_taken h]
  by_cases htaken : TakenForInt yytext
  · -- at most eleven digits fit into 64 bits
    have hsmall : digitsVal (unsigned yytext) < 10 ^ 11 :=
      Nat.lt_of_lt_of_le hlt (Nat.pow_le_pow_right (by decide) (htaken.elim (by omega) (by omega)))
    have h64 : Fits64 (number yytext) := by
      unfold Fits64 number
      split <;> omega
    rw [if_pos htaken, right_int_iff h64]
    unfold Exact TakenForInt at *
    dsimp only
    rw [h32]
    omega
  · rw [if_neg htaken, right_bigint_iff]
    unfold Exact TakenForInt at *
    dsimp only
    rw [h32]
    omega

/-- The numbers at the ends of both types. -/
theorem valueInt_right_ends :
    valueInt (textBytes "-2147483648") = .ok (.valueInt (-2147483648)) ∧
      Right (textBytes "-2147483648") (valueInt (textBytes "-2147483648")) := by
  refine ⟨by decide, (valueInt_right_iff ⟨textBytes "-", textBytes "2147483648", rfl, by decide, by decide,
    by decide⟩).mpr ?_⟩
  unfold Exact
  decide

/-- 2147483648 is taken for an INT, and wraps; with zeros in front 7 is a BIGINT. -/
theorem valueInt_wraps :
    (IsValueInt (textBytes "2147483648") ∧
      valueInt (textBytes "2147483648") = .ok (.valueInt (-2147483648)) ∧
      ¬ Right (textBytes "2147483648") (valueInt (textBytes "2147483648"))) ∧
    IsValueInt (textBytes "000000000007") ∧
      valueInt (textBytes "000000000007") = .ok (.valueBigint 7) ∧
      ¬ Right (textBytes "000000000007") (valueInt (textBytes "000000000007")) := by
  have hwrap : valueInt (textBytes "2147483648") = .ok (.valueInt (-2147483648)) := by decide
  have hzeros : valueInt (textBytes "000000000007") = .ok (.valueBigint 7) := by decide
  refine ⟨⟨⟨[], textBytes "2147483648", rfl, by decide, by decide, by decide⟩, hwrap, ?_⟩,
    ⟨[], textBytes "000000000007", rfl, by decide, by decide, by decide⟩, hzeros, ?_⟩
  · rw [hwrap, Right, if_neg (by decide), if_pos (by decide)]
    decide
  · rw [hzeros, Right, if_pos (by decide)]
    decide

end Lexer

end Rmdb
