import Rmdb.Execution.KeyRange
import Rmdb.Lib.Decimal

namespace Rmdb

open Lib Std IndexScan

/-!
# Dates (`common/datetime_utils.hpp`)

`to_bcd` reads six numbers at fixed places of a text, checks them, and returns the text as it is.  It reads
them with `std::stoull`, that skips white space, takes a sign and stops at the first byte that is no digit,
and it looks neither at what is between the numbers nor at what comes behind them.

* `Datetime.toBcd` — the function, for any bytes;
* `Datetime.Fields.Exists` — the dates of the calendar;
* `toBcd_eq_ok`, `fields_text` — the texts that are accepted, and how the standard form is read;
* `toBcd_right_iff` — `to_bcd` is right but for the leap years.
-/

/-- What `to_bcd` can throw. -/
inductive DatetimeError where
  | invalidArgument
  | outOfRange
  | internalError (msg : String)
  deriving DecidableEq, Repr

/-- `isspace`. -/
def isSpaceByte (b : UInt8) : Bool := b.toNat = 32 || (9 ≤ b.toNat && b.toNat ≤ 13)

namespace Datetime

/-- `std::string::substr`. -/
def substr (s : List UInt8) (pos n : Nat) : Except DatetimeError (List UInt8) :=
  if s.length < pos then .error .outOfRange else .ok ((s.drop pos).take n)

/-- `std::stoull`.  A number with a minus sign is negated in 64 bits. -/
def stoull (s : List UInt8) : Except DatetimeError Nat :=
  let t := s.dropWhile isSpaceByte
  let minus := t.take 1 = textBytes "-"
  let ds := (if minus ∨ t.take 1 = textBytes "+" then t.drop 1 else t).takeWhile isDigit
  if ds = [] then .error .invalidArgument
  else if 2 ^ 64 ≤ digitsVal ds then .error .outOfRange
  else .ok (if minus then (2 ^ 64 - digitsVal ds) % 2 ^ 64 else digitsVal ds)

/-- The six numbers. -/
structure Fields where
  year : Nat
  month : Nat
  day : Nat
  hour : Nat
  min : Nat
  sec : Nat
  deriving DecidableEq, Repr

/-- A number of the text. -/
def field (s : List UInt8) (pos n : Nat) : Except DatetimeError Nat := (substr s pos n).bind stoull

/-- The numbers of a text. -/
def fields (s : List UInt8) : Except DatetimeError Fields := do
  let year ← field s 0 4
  let month ← field s 5 2
  let day ← field s 8 2
  let hour ← field s 11 2
  let min ← field s 14 2
  let sec ← field s 17 2
  return ⟨year, month, day, hour, min, sec⟩

/-- The first check. -/
def outOfBounds (f : Fields) : Bool :=
  f.year < 1000 || 9999 < f.year || f.month < 1 || 12 < f.month || f.day < 1 || 31 < f.day ||
    f.hour < 0 || 23 < f.hour || f.min < 0 || 59 < f.min || f.sec < 0 || 59 < f.sec

/-- `is_valid_day`. -/
def isValidDay (f : Fields) : Bool :=
  if f.month = 4 ∨ f.month = 6 ∨ f.month = 9 ∨ f.month = 11 then
    if 30 < f.day then false else true
  else if f.month = 2 then
    if f.year % 4 = 0 ∧ f.year % 100 = 0 ∨ f.year % 400 = 0 then
      if 29 < f.day then false else true
    else
      if 28 < f.day then false else true
  else true

/-- `to_bcd`. -/
def toBcd (s : List UInt8) : Except DatetimeError (List UInt8) := do
  let f ← fields s
  if outOfBounds f then throw (.internalError "Illegal datatime.")
  if !isValidDay f then throw (.internalError "Illegal datatime.")
  return s

/-- The text is accepted, with these numbers. -/
structure Accepts (s : List UInt8) (f : Fields) : Prop where
  fields : fields s = .ok f
  bounds : outOfBounds f = false
  day : isValidDay f = true

theorem toBcd_eq_ok {s r : List UInt8} : toBcd s = .ok r ↔ r = s ∧ ∃ f, Accepts s f := by
  unfold toBcd
  cases hf : fields s with
  | error e =>
    refine iff_of_false (by simp [Bind.bind, Except.bind]) ?_
    rintro ⟨-, f, hf', -, -⟩
    rw [hf] at hf'
    cases hf'
  | ok f =>
    have haccepts : (∃ f, Accepts s f) ↔ outOfBounds f = false ∧ isValidDay f = true := by
      constructor
      · rintro ⟨f', hf', hbounds, hday⟩
        rw [hf] at hf'
        cases hf'
        exact ⟨hbounds, hday⟩
      · exact fun h => ⟨f, hf, h.1, h.2⟩
    rw [haccepts]
    cases hbounds : outOfBounds f with
    | true => simp [Bind.bind, Except.bind, hbounds, throw, throwThe, MonadExceptOf.throw]
    | false =>
      cases hday : isValidDay f with
      | true => simp [Bind.bind, Except.bind, hbounds, hday, pure, Except.pure, eq_comm]
      | false => simp [Bind.bind, Except.bind, hbounds, hday, throw, throwThe, MonadExceptOf.throw]

/-! ### The standard form -/

/-- The numbers have as many digits as there are places. -/
structure Fields.Written (f : Fields) : Prop where
  year : f.year < 10 ^ 4
  month : f.month < 10 ^ 2
  day : f.day < 10 ^ 2
  hour : f.hour < 10 ^ 2
  min : f.min < 10 ^ 2
  sec : f.sec < 10 ^ 2

/-- The date. -/
def date (f : Fields) : List UInt8 :=
  digits 4 f.year ++ (textBytes "-" ++ (digits 2 f.month ++ (textBytes "-" ++ digits 2 f.day)))

/-- The time of the day. -/
def time (f : Fields) : List UInt8 :=
  digits 2 f.hour ++ (textBytes ":" ++ (digits 2 f.min ++ (textBytes ":" ++ digits 2 f.sec)))

/-- `YYYY-MM-DD hh:mm:ss`. -/
def text (f : Fields) : List UInt8 := date f ++ (textBytes " " ++ time f)

@[simp] theorem length_text (f : Fields) : (text f).length = 19 := by
  simp only [text, date, time, List.length_append, length_digits]
  rfl

/-- Digits are read as their number. -/
theorem stoull_digits {w n : Nat} (hw : 0 < w) (hn : n < 10 ^ w) (hlt : n < 2 ^ 64) :
    stoull (digits w n) = .ok n := by
  have hall := allDigits_digits w n
  have hne : digits w n ≠ [] := List.ne_nil_of_length_pos (by rw [length_digits]; exact hw)
  obtain ⟨b, ds, hcons⟩ := List.exists_cons_of_ne_nil hne
  obtain ⟨hb, hds⟩ := (hcons ▸ hall).tail
  obtain ⟨h48, h57⟩ := isDigit_iff.mp hb
  -- a digit is no space and no sign
  have hspace : isSpaceByte b = false := by
    simp only [isSpaceByte, Bool.or_eq_false_iff, Bool.and_eq_false_iff, decide_eq_false_iff_not]
    omega
  have hsign : ∀ c : UInt8, c.toNat < 48 → [b] ≠ [c] := fun c hc heq => by
    rw [(List.cons.inj heq).1] at h48
    omega
  have hdrop : (digits w n).dropWhile isSpaceByte = digits w n := by
    rw [hcons]
    exact List.dropWhile_cons_of_neg (by rw [hspace]; decide)
  have htake : (digits w n).take 1 = [b] := by
    rw [hcons]
    rfl
  have hwhile : (digits w n).takeWhile isDigit = digits w n := List.takeWhile_eq_self_iff.mpr hall
  have hminus : ¬ [b] = textBytes "-" := hsign 45 (by decide)
  have hplus : ¬ [b] = textBytes "+" := hsign 43 (by decide)
  unfold stoull
  simp only [hdrop, htake, hminus, hplus, or_self, if_false, hwhile, hne, digitsVal_digits hn]
  rw [if_neg (by omega)]

/-- A part of a text, after a front of known length. -/
theorem field_append {front part : List UInt8} {pos n : Nat} (hpos : front.length = pos)
    (hn : part.length = n) (rest : List UInt8) : field (front ++ (part ++ rest)) pos n = stoull part := by
  unfold field substr
  rw [if_neg (by rw [List.length_append]; omega), ← hpos, List.drop_left, ← hn, List.take_left]
  rfl

variable {f g : Fields}

/-- **The standard form** is read as it was written, whatever comes behind. -/
theorem fields_text (h : f.Written) (rest : List UInt8) : fields (text f ++ rest) = .ok f := by
  have htwo : ∀ {n}, n < 10 ^ 2 → stoull (digits 2 n) = .ok n := fun hn =>
    stoull_digits (by decide) hn (by omega)
  have hyear : ∀ r, field ([] ++ (digits 4 f.year ++ r)) 0 4 = .ok f.year :=
    fun r => (field_append rfl (length_digits _ _) r).trans
      (stoull_digits (by decide) h.year (by have := h.year; omega))
  have hmonth : ∀ r, field (digits 4 f.year ++ textBytes "-" ++ (digits 2 f.month ++ r)) 5 2 = .ok f.month :=
    fun r => (field_append (by simp only [List.length_append, length_digits]; rfl) (length_digits _ _) r).trans
      (htwo h.month)
  have hday : ∀ r, field (digits 4 f.year ++ textBytes "-" ++ digits 2 f.month ++ textBytes "-" ++
      (digits 2 f.day ++ r)) 8 2 = .ok f.day :=
    fun r => (field_append (by simp only [List.length_append, length_digits]; rfl) (length_digits _ _) r).trans
      (htwo h.day)
  have hhour : ∀ r, field (digits 4 f.year ++ textBytes "-" ++ digits 2 f.month ++ textBytes "-" ++
      digits 2 f.day ++ textBytes " " ++ (digits 2 f.hour ++ r)) 11 2 = .ok f.hour :=
    fun r => (field_append (by simp only [List.length_append, length_digits]; rfl) (length_digits _ _) r).trans
      (htwo h.hour)
  have hmin : ∀ r, field (digits 4 f.year ++ textBytes "-" ++ digits 2 f.month ++ textBytes "-" ++
      digits 2 f.day ++ textBytes " " ++ digits 2 f.hour ++ textBytes ":" ++ (digits 2 f.min ++ r)) 14 2 =
      .ok f.min :=
    fun r => (field_append (by simp only [List.length_append, length_digits]; rfl) (length_digits _ _) r).trans
      (htwo h.min)
  have hsec : ∀ r, field (digits 4 f.year ++ textBytes "-" ++ digits 2 f.month ++ textBytes "-" ++
      digits 2 f.day ++ textBytes " " ++ digits 2 f.hour ++ textBytes ":" ++ digits 2 f.min ++
      textBytes ":" ++ (digits 2 f.sec ++ r)) 17 2 = .ok f.sec :=
    fun r => (field_append (by simp only [List.length_append, length_digits]; rfl) (length_digits _ _) r).trans
      (htwo h.sec)
  simp only [List.append_assoc, List.nil_append] at hyear hmonth hday hhour hmin hsec
  unfold fields
  simp only [text, date, time, List.append_assoc, hyear, hmonth, hday, hhour, hmin, hsec]
  rfl

/-! ### The calendar -/

/-- A leap year: divisible by 4 and not by 100, or divisible by 400. -/
def IsLeap (year : Nat) : Prop := 4 ∣ year ∧ ¬ 100 ∣ year ∨ 400 ∣ year

instance (year : Nat) : Decidable (IsLeap year) := inferInstanceAs (Decidable (_ ∨ _))

/-- The days of a month. -/
def daysIn (year month : Nat) : Nat :=
  if month = 2 then if IsLeap year then 29 else 28
  else if month = 4 ∨ month = 6 ∨ month = 9 ∨ month = 11 then 30
  else 31

/-- The date and the time exist. -/
structure Fields.Exists (f : Fields) : Prop where
  year : 1000 ≤ f.year ∧ f.year ≤ 9999
  month : 1 ≤ f.month ∧ f.month ≤ 12
  day : 1 ≤ f.day ∧ f.day ≤ daysIn f.year f.month
  hour : f.hour ≤ 23
  min : f.min ≤ 59
  sec : f.sec ≤ 59

/-- `to_bcd` does with a text of the form what it should: it accepts the existing dates and times, and
    returns the text. -/
def Right (f : Fields) : Prop :=
  ((∃ r, toBcd (text f) = .ok r) ↔ f.Exists) ∧ ∀ r, toBcd (text f) = .ok r → r = text f

/-- A time on the 29th of February of a year that is divisible by 4, but not by 400. -/
def LeapSlip (f : Fields) : Prop :=
  f.month = 2 ∧ f.day = 29 ∧ f.year % 4 = 0 ∧ f.year % 400 ≠ 0 ∧ 1000 ≤ f.year ∧ f.hour ≤ 23 ∧ f.min ≤ 59 ∧
    f.sec ≤ 59

theorem outOfBounds_eq_false : outOfBounds f = false ↔ (1000 ≤ f.year ∧ f.year ≤ 9999) ∧
    (1 ≤ f.month ∧ f.month ≤ 12) ∧ (1 ≤ f.day ∧ f.day ≤ 31) ∧ f.hour ≤ 23 ∧ f.min ≤ 59 ∧ f.sec ≤ 59 := by
  simp only [outOfBounds, Bool.or_eq_false_iff, decide_eq_false_iff_not]
  omega

theorem isValidDay_eq_true : isValidDay f = true ↔
    ((f.month = 4 ∨ f.month = 6 ∨ f.month = 9 ∨ f.month = 11) → f.day ≤ 30) ∧
      (f.month = 2 → f.day ≤ if f.year % 100 = 0 then 29 else 28) := by
  -- a year divisible by 100 is divisible by 4
  have hleap : f.year % 4 = 0 ∧ f.year % 100 = 0 ∨ f.year % 400 = 0 ↔ f.year % 100 = 0 := by omega
  unfold isValidDay
  simp only [hleap]
  split_ifs <;> simp <;> omega

theorem daysIn_le (year month : Nat) : daysIn year month ≤ 31 := by
  unfold daysIn
  split_ifs <;> decide

/-- A date and a time exist if the numbers are in their bounds and the month has the day. -/
theorem Fields.exists_iff : f.Exists ↔ outOfBounds f = false ∧ f.day ≤ daysIn f.year f.month := by
  have hle := daysIn_le f.year f.month
  rw [outOfBounds_eq_false]
  constructor
  · rintro ⟨hyear, hmonth, hday, hhour, hmin, hsec⟩
    exact ⟨⟨hyear, hmonth, ⟨hday.1, hday.2.trans hle⟩, hhour, hmin, hsec⟩, hday.2⟩
  · rintro ⟨⟨hyear, hmonth, hday, hhour, hmin, hsec⟩, hin⟩
    exact ⟨hyear, hmonth, ⟨hday.1, hin⟩, hhour, hmin, hsec⟩

theorem leapSlip_iff (hyear : f.year ≤ 9999) : LeapSlip f ↔
    outOfBounds f = false ∧ f.month = 2 ∧ f.day = 29 ∧ f.year % 4 = 0 ∧ f.year % 400 ≠ 0 := by
  rw [outOfBounds_eq_false]
  constructor
  · rintro ⟨hmonth, hday, h4, h400, hlow, hhour, hmin, hsec⟩
    exact ⟨⟨⟨hlow, hyear⟩, by omega, by omega, hhour, hmin, hsec⟩, hmonth, hday, h4, h400⟩
  · rintro ⟨⟨⟨hlow, -⟩, -, -, hhour, hmin, hsec⟩, hmonth, hday, h4, h400⟩
    exact ⟨hmonth, hday, h4, h400, hlow, hhour, hmin, hsec⟩

/-- **`is_valid_day`** is right on the days up to 31 but for the 29th of February. -/
theorem isValidDay_right_iff (hday : f.day ≤ 31) : (isValidDay f = true ↔ f.day ≤ daysIn f.year f.month) ↔
    ¬ (f.month = 2 ∧ f.day = 29 ∧ f.year % 4 = 0 ∧ f.year % 400 ≠ 0) := by
  rw [isValidDay_eq_true]
  unfold daysIn
  by_cases hfeb : f.month = 2
  · -- the code takes the years divisible by 100 for the leap years
    have hleap : IsLeap f.year ↔ f.year % 4 = 0 ∧ (f.year % 100 = 0 → f.year % 400 = 0) := by
      unfold IsLeap
      simp only [Nat.dvd_iff_mod_eq_zero]
      omega
    have h4 : f.year % 100 = 0 → f.year % 4 = 0 := by omega
    have h100 : f.year % 400 = 0 → f.year % 100 = 0 := by omega
    simp only [hfeb, hleap, if_true, true_imp_iff, true_and]
    generalize f.year % 4 = y4, f.year % 100 = y100, f.year % 400 = y400 at h4 h100 ⊢
    split_ifs <;> omega
  · rw [if_neg hfeb]
    simp only [hfeb, false_and, false_imp_iff, and_true, not_false_iff, iff_true]
    split_ifs <;> omega

/-- **`to_bcd`** is right on every text of the form but those. -/
theorem toBcd_right_iff (h : f.Written) : Right f ↔ ¬ LeapSlip f := by
  have hfields : fields (text f) = .ok f := by
    have heq := fields_text h []
    rwa [List.append_nil] at heq
  have haccepts : (∃ r, toBcd (text f) = .ok r) ↔ outOfBounds f = false ∧ isValidDay f = true := by
    constructor
    · rintro ⟨r, hr⟩
      obtain ⟨-, g, hg, hbounds, hday⟩ := toBcd_eq_ok.mp hr
      rw [hfields] at hg
      cases hg
      exact ⟨hbounds, hday⟩
    · exact fun hok => ⟨text f, toBcd_eq_ok.mpr ⟨rfl, f, hfields, hok.1, hok.2⟩⟩
  have hreturns : ∀ r, toBcd (text f) = .ok r → r = text f := fun r hr => (toBcd_eq_ok.mp hr).1
  have hyear : f.year ≤ 9999 := Nat.le_of_lt_succ h.year
  unfold Right
  rw [and_iff_left hreturns, haccepts, Fields.exists_iff, leapSlip_iff hyear, and_congr_right_iff, not_and]
  -- out of bounds both are false
  exact imp_congr_right fun hbounds => isValidDay_right_iff (outOfBounds_eq_false.mp hbounds).2.2.1.2

/-- 2000 is divisible by 400. -/
theorem toBcd_right_2000 : (⟨2000, 2, 29, 12, 30, 0⟩ : Fields).Written ∧ Right ⟨2000, 2, 29, 12, 30, 0⟩ := by
  have hwritten : (⟨2000, 2, 29, 12, 30, 0⟩ : Fields).Written :=
    ⟨by decide, by decide, by decide, by decide, by decide, by decide⟩
  refine ⟨hwritten, (toBcd_right_iff hwritten).mpr ?_⟩
  unfold LeapSlip
  decide

/-- The 29th of February of 2024 is rejected, that of 1900 accepted. -/
theorem toBcd_leapSlip :
    (toBcd (textBytes "2024-02-29 12:00:00") = .error (.internalError "Illegal datatime.") ∧
      (⟨2024, 2, 29, 12, 0, 0⟩ : Fields).Written ∧
      text ⟨2024, 2, 29, 12, 0, 0⟩ = textBytes "2024-02-29 12:00:00" ∧
      (⟨2024, 2, 29, 12, 0, 0⟩ : Fields).Exists ∧ ¬ Right ⟨2024, 2, 29, 12, 0, 0⟩) ∧
    toBcd (textBytes "1900-02-29 12:00:00") = .ok (textBytes "1900-02-29 12:00:00") ∧
      ¬ (⟨1900, 2, 29, 12, 0, 0⟩ : Fields).Exists := by
  have hrejected : toBcd (textBytes "2024-02-29 12:00:00") = .error (.internalError "Illegal datatime.") := by
    decide
  have htext : text ⟨2024, 2, 29, 12, 0, 0⟩ = textBytes "2024-02-29 12:00:00" := by decide
  have hexists : (⟨2024, 2, 29, 12, 0, 0⟩ : Fields).Exists :=
    ⟨by decide, by decide, by decide, by decide, by decide, by decide⟩
  refine ⟨⟨hrejected, ⟨by decide, by decide, by decide, by decide, by decide, by decide⟩, htext, hexists,
    fun hright => ?_⟩, by decide, fun hex => absurd hex.day.2 (by decide)⟩
  obtain ⟨r, hr⟩ := hright.1.mpr hexists
  rw [htext, hrejected] at hr
  cases hr

end Datetime

end Rmdb
