import Rmdb.Execution.Literals
import Rmdb.Parser.Datetime

namespace Rmdb

open Lib Std IndexScan

/-!
# The order of dates (`common/common.h`, `index/ix_index_handle.h`)

A date is stored as its text, with zeros behind it up to the 20 bytes of the column.  `binop` compares texts
with `strcmp`, `ix_compare` the stored bytes.

* `Datetime.Fields.order` — the order of the times;
* `Datetime.Standard` — the standard form of a time;
* `Datetime.Agrees` — both comparisons are that of the times;
* `datetime_order_iff` — the texts in the standard form are those that agree with all of them;
* `literal_one_space` — a literal that is accepted has one space or one tab in the middle.
-/

namespace Datetime

variable {f g : Fields} {s t : List UInt8}

/-- The earlier of two times: the first of the six numbers that differs decides. -/
def Fields.order (f g : Fields) : Ordering :=
  (compare f.year g.year).then ((compare f.month g.month).then ((compare f.day g.day).then
    ((compare f.hour g.hour).then ((compare f.min g.min).then (compare f.sec g.sec)))))

/-- No instant is before itself. -/
@[simp] theorem Fields.order_self (f : Fields) : f.order f = .eq := by
  simp [Fields.order, Ordering.then]

/-- The text is the standard form of these numbers; a NUL behind it is not seen. -/
def Standard (s : List UInt8) (f : Fields) : Prop := f.Written ∧ (s = text f ∨ s = text f ++ [0])

/-- What a record gives for a text that was stored in the column. -/
def stored (s : List UInt8) : Value :=
  { type := .datetime, bits := 0, datetimeVal := padBytes s 20, strVal := [] }

/-- What is stored of a literal. -/
theorem stored_eq (s : List UInt8) :
    ((Literal.datetime s).value.initRaw 20).bind (Value.loadRaw .datetime 20) = .ok (stored s) := by
  have htake : (padBytes s 20).take 20 = padBytes s 20 := List.take_of_length_le (List.length_take_le _ _)
  show Value.loadRaw .datetime 20 (padBytes s 20) = _
  simp only [Value.loadRaw, htake]
  rfl

/-- `init_raw` writes into the column only. -/
def Fits (s : List UInt8) : Prop := (Literal.datetime s).value.rawExtent TypeLen.datetime.len.toNat ≤ 20

/-- It fits if it has at most 20 bytes. -/
theorem fits_iff : Fits s ↔ s.length ≤ 20 := by
  show max 20 s.length ≤ 20 ↔ _
  omega

/-- Two texts with these numbers compare as the times: in two records, in a record and a literal, and in the
    keys of an index. -/
structure Agrees (s t : List UInt8) (f g : Fields) : Prop where
  records : ∀ op, binop op (stored s) (stored t) = .ok (op.holds (some (f.order g)))
  literal : ∀ op, binop op (stored s) (Literal.datetime t).value = .ok (op.holds (some (f.order g)))
  keys : ixCompareCol (.datetime, 20) (padBytes s 20) (padBytes t 20) = f.order g

/-! ### The standard form -/

/-- Numbers of one width are compared by their digits. -/
theorem compare_digits_eq {w n m : Nat} (hn : n < 10 ^ w) (hm : m < 10 ^ w) :
    compare (digits w n) (digits w m) = compare n m := by
  rw [compare_digits (allDigits_digits w n) (allDigits_digits w m) (by simp), digitsVal_digits hn,
    digitsVal_digits hm]

/-- **Standard texts** are in the order of the times. -/
theorem compare_text (hf : f.Written) (hg : g.Written) : compare (text f) (text g) = f.order g := by
  have hlen : ∀ w n m, (digits w n).length = (digits w m).length := fun w n m => by simp
  simp only [text, date, time, List.append_assoc]
  rw [compare_append (hlen _ _ _), compare_same_append, compare_append (hlen _ _ _), compare_same_append,
    compare_append (hlen _ _ _), compare_same_append, compare_append (hlen _ _ _), compare_same_append,
    compare_append (hlen _ _ _), compare_same_append]
  rw [compare_digits_eq hf.year hg.year, compare_digits_eq hf.month hg.month, compare_digits_eq hf.day hg.day,
    compare_digits_eq hf.hour hg.hour, compare_digits_eq hf.min hg.min, compare_digits_eq hf.sec hg.sec]
  rfl

/-- The text has no zero byte. -/
theorem zero_not_mem_text (f : Fields) : (0 : UInt8) ∉ text f := by
  have hdigits : ∀ w n, (0 : UInt8) ∉ digits w n := fun w n hz =>
    absurd (isDigit_iff.mp (allDigits_digits w n 0 hz)).1 (by decide)
  have hsep : (0 : UInt8) ∉ textBytes "-" ∧ (0 : UInt8) ∉ textBytes " " ∧ (0 : UInt8) ∉ textBytes ":" := by
    decide
  simp only [text, date, time, List.mem_append, hdigits, hsep, or_self, not_false_eq_true]

namespace Standard

/-- A standard text fits. -/
theorem length_le (h : Standard s f) : s.length ≤ 20 := by
  rcases h.2 with rfl | rfl <;> simp

/-- What is stored, and what `strcmp` sees. -/
theorem bytes (h : Standard s f) : padBytes s 20 = text f ++ [0] := by
  rw [padBytes_eq h.length_le]
  rcases h.2 with rfl | rfl <;> simp

/-- It is read back whole. -/
theorem cStr_eq (h : Standard s f) : cStr s = text f := by
  rcases h.2 with rfl | rfl
  · have hzero := cStr_append_zeros (zero_not_mem_text f) 0
    rwa [List.replicate_zero, List.append_nil] at hzero
  · exact cStr_append_zeros (zero_not_mem_text f) 1

/-- It has the fields that are written. -/
theorem fields (h : Standard s f) : Datetime.fields s = .ok f := by
  rcases h.2 with rfl | rfl
  · have heq := fields_text h.1 []
    rwa [List.append_nil] at heq
  · exact fields_text h.1 [0]

/-- **Both comparisons** are that of the times. -/
theorem agrees (hs : Standard s f) (ht : Standard t g) : Agrees s t f g := by
  have hcmp := compare_text hs.1 ht.1
  have hpad : ∀ {s f}, Standard s f → cStr (padBytes s 20) = text f := fun h => by
    rw [h.bytes]
    exact cStr_append_zeros (zero_not_mem_text _) 1
  refine ⟨fun op => ?_, fun op => ?_, ?_⟩
  · show Except.ok (op.holds (some (compare (cStr (padBytes s 20)) (cStr (padBytes t 20))))) = _
    rw [hpad hs, hpad ht, hcmp]
  · show Except.ok (op.holds (some (compare (cStr (padBytes s 20)) (cStr t)))) = _
    rw [hpad hs, ht.cStr_eq, hcmp]
  · show compare ((padBytes s 20).take 20) ((padBytes t 20).take 20) = _
    rw [hs.bytes, ht.bytes, List.take_of_length_le (by simp), List.take_of_length_le (by simp),
      compare_append (by simp), hcmp]
    cases f.order g <;> rfl

end Standard

/-! ### Other texts -/

/-- Numbers that `to_bcd` lets pass can be written in the standard form. -/
theorem Accepts.written (h : Accepts s f) : f.Written := by
  obtain ⟨h1, h2, h3, h4, h5, h6⟩ := outOfBounds_eq_false.mp h.bounds
  exact ⟨by omega, by omega, by omega, by omega, by omega, by omega⟩

/-- What is stored as a standard text is one. -/
theorem standard_of_padBytes (hf : f.Written) (hlen : s.length ≤ 20) (h : padBytes s 20 = text f ++ [0]) :
    Standard s f := by
  rw [padBytes_eq hlen] at h
  refine ⟨hf, ?_⟩
  rcases Nat.lt_trichotomy s.length 19 with hlt | heq | hgt
  · -- the text would end in a NUL
    have hdrop := congrArg (List.drop s.length) h
    rw [List.drop_left, List.drop_append_of_le_length (by rw [length_text]; omega)] at hdrop
    have hne : (text f).drop s.length ≠ [] :=
      List.ne_nil_of_length_pos (by rw [List.length_drop, length_text]; omega)
    obtain ⟨b, rest, hb⟩ := List.exists_cons_of_ne_nil hne
    have hzero : b = 0 := by
      have hmem : b ∈ List.replicate (20 - s.length) (0 : UInt8) := by
        rw [hdrop, hb]
        exact List.mem_cons_self
      exact List.eq_of_mem_replicate hmem
    have hmem : b ∈ text f := List.mem_of_mem_drop (hb ▸ List.mem_cons_self)
    exact absurd (hzero ▸ hmem) (zero_not_mem_text f)
  · exact .inl (List.append_inj_left h (by rw [length_text, heq]))
  · have hnone : 20 - s.length = 0 := by omega
    rw [hnone, List.replicate_zero, List.append_nil] at h
    exact .inr h

/-- **The texts that compare as their times** with all standard texts, and fit into the column, are the
    standard ones. -/
theorem datetime_order_iff (h : Accepts s f) :
    (Fits s ∧ ∀ t g, Accepts t g → Standard t g → Agrees s t f g) ↔ Standard s f := by
  refine ⟨fun ⟨hfits, hagrees⟩ => ?_, fun hs => ⟨fits_iff.mpr hs.length_le, fun t g _ ht => hs.agrees ht⟩⟩
  have hlen := fits_iff.mp hfits
  have hself : Standard (text f) f := ⟨h.written, .inl rfl⟩
  -- the same time in the standard form has to be stored as the same bytes
  have hkeys := (hagrees _ f ⟨hself.fields, h.bounds, h.day⟩ hself).keys
  have hcmp : compare ((padBytes s 20).take 20) ((padBytes (text f) 20).take 20) = .eq := by
    rw [Fields.order_self] at hkeys
    exact hkeys
  have htake : ∀ s, (padBytes s 20).take 20 = padBytes s 20 := fun s =>
    List.take_of_length_le (List.length_take_le _ _)
  rw [htake, htake] at hcmp
  have heq : padBytes s 20 = padBytes (text f) 20 := LawfulEqCmp.eq_of_compare hcmp
  exact standard_of_padBytes h.written hlen (heq.trans hself.bytes)

/-- The first second of a year. -/
theorem datetime_order_new_year : Fits (textBytes "2024-01-01 00:00:00") ∧
    ∀ t g, Accepts t g → Standard t g →
      Agrees (textBytes "2024-01-01 00:00:00") t ⟨2024, 1, 1, 0, 0, 0⟩ g := by
  refine (datetime_order_iff ⟨by decide, by decide, by decide⟩).mpr ⟨?_, .inl (by decide)⟩
  exact ⟨by decide, by decide, by decide, by decide, by decide, by decide⟩

/-- The same time with a tab in the middle is another text, and a field of a file may be too long for the
    column. -/
theorem datetime_order_tab :
    Accepts (textBytes "2024-01-01\t00:00:00") ⟨2024, 1, 1, 0, 0, 0⟩ ∧
    Accepts (textBytes "2024-01-01 00:00:00") ⟨2024, 1, 1, 0, 0, 0⟩ ∧
    binop .eq (stored (textBytes "2024-01-01\t00:00:00")) (stored (textBytes "2024-01-01 00:00:00")) =
      .ok false ∧
    ¬ Agrees (textBytes "2024-01-01\t00:00:00") (textBytes "2024-01-01 00:00:00") ⟨2024, 1, 1, 0, 0, 0⟩
      ⟨2024, 1, 1, 0, 0, 0⟩ ∧
    Accepts (textBytes "2024-01-01 00:00:00.000000") ⟨2024, 1, 1, 0, 0, 0⟩ ∧
    ¬ Fits (textBytes "2024-01-01 00:00:00.000000") := by
  have hbinop : binop .eq (stored (textBytes "2024-01-01\t00:00:00")) (stored (textBytes "2024-01-01 00:00:00")) =
      .ok false := by decide
  refine ⟨⟨by decide, by decide, by decide⟩, ⟨by decide, by decide, by decide⟩, hbinop, fun hagrees => ?_,
    ⟨by decide, by decide, by decide⟩, fun hfits => absurd (fits_iff.mp hfits) (by decide)⟩
  have hrecords := hagrees.records .eq
  rw [hbinop, Fields.order_self] at hrecords
  exact absurd hrecords (by decide)

/-! ### Literals -/

/-- `value_datetime` without its quotes: white space of any length between the date and the time. -/
def literal (f : Fields) (ws : List UInt8) : List UInt8 := date f ++ (ws ++ time f)

/-- A colon is no number, and neither are two spaces. -/
theorem stoull_error {b c : UInt8} (h : b = 58 ∨ isSpaceByte b = true ∧ isSpaceByte c = true) :
    stoull [b, c] = .error .invalidArgument := by
  rcases h with rfl | ⟨hb, hc⟩
  · rfl
  · have hdrop : [b, c].dropWhile isSpaceByte = [] := by
      rw [List.dropWhile_cons_of_pos hb, List.dropWhile_cons_of_pos hc]
      rfl
    unfold stoull
    rw [hdrop]
    rfl

/-- Each of the numbers is read. -/
theorem field_of_fields (h : fields s = .ok f) : field s 11 2 = .ok f.hour ∧ field s 14 2 = .ok f.min := by
  unfold fields at h
  obtain ⟨year, -, h⟩ := bind_eq_ok.mp h
  obtain ⟨month, -, h⟩ := bind_eq_ok.mp h
  obtain ⟨day, -, h⟩ := bind_eq_ok.mp h
  obtain ⟨hour, hhour, h⟩ := bind_eq_ok.mp h
  obtain ⟨min, hmin, h⟩ := bind_eq_ok.mp h
  obtain ⟨sec, -, h⟩ := bind_eq_ok.mp h
  cases h
  exact ⟨hhour, hmin⟩

/-- **A literal that is accepted** has one space or one tab in the middle. -/
theorem literal_one_space {ws : List UInt8} (hne : ws ≠ []) (hws : ∀ b ∈ ws, b = 32 ∨ b = 9)
    (h : Accepts (literal f ws) g) : ws = textBytes " " ∨ ws = textBytes "\t" := by
  have hspace : ∀ b ∈ ws, isSpaceByte b = true := fun b hb => by
    rcases hws b hb with rfl | rfl <;> rfl
  have hdate : (date f).length = 10 := by
    simp only [date, List.length_append, length_digits]
    rfl
  obtain ⟨hhour, hmin⟩ := field_of_fields h.fields
  obtain ⟨w, ws, rfl⟩ := List.exists_cons_of_ne_nil hne
  rcases ws with _ | ⟨w', _ | ⟨w'', ws⟩⟩
  · rcases hws w List.mem_cons_self with rfl | rfl
    · exact .inl rfl
    · exact .inr rfl
  · -- the minutes would begin with the colon
    obtain ⟨m, m', hm⟩ : ∃ m m', digits 2 f.min = [m, m'] := ⟨_, _, rfl⟩
    have hcolon : textBytes ":" = [58] := by decide
    have hsplit : literal f [w, w'] = (date f ++ ([w, w'] ++ digits 2 f.hour)) ++
        ([58, m] ++ (m' :: (textBytes ":" ++ digits 2 f.sec))) := by
      simp only [literal, time, hm, hcolon, List.append_assoc, List.cons_append, List.nil_append]
    have hread : field ((date f ++ ([w, w'] ++ digits 2 f.hour)) ++
        ([58, m] ++ (m' :: (textBytes ":" ++ digits 2 f.sec)))) 14 2 = stoull [58, m] :=
      field_append (by simp [hdate]) rfl _
    rw [hsplit, hread, stoull_error (.inl rfl)] at hmin
    cases hmin
  · -- the hour would be white space
    have hsplit : literal f (w :: w' :: w'' :: ws) = (date f ++ [w]) ++ ([w', w''] ++ (ws ++ time f)) := by
      simp only [literal, List.append_assoc, List.cons_append, List.nil_append]
    have hread : field ((date f ++ [w]) ++ ([w', w''] ++ (ws ++ time f))) 11 2 = stoull [w', w''] :=
      field_append (by simp [hdate]) rfl _
    rw [hsplit, hread, stoull_error (.inr ⟨hspace w' (by simp), hspace w'' (by simp)⟩)] at hhour
    cases hhour

/-- A tab is read; two spaces are not. -/
theorem literal_one_space_jan :
    (Accepts (literal ⟨2024, 1, 1, 0, 0, 0⟩ (textBytes "\t")) ⟨2024, 1, 1, 0, 0, 0⟩ ∧
      (textBytes "\t" = textBytes " " ∨ textBytes "\t" = textBytes "\t")) ∧
    ¬ Accepts (literal ⟨2024, 1, 1, 0, 0, 0⟩ (textBytes "  ")) ⟨2024, 1, 1, 0, 0, 0⟩ := by
  have htab : Accepts (literal ⟨2024, 1, 1, 0, 0, 0⟩ (textBytes "\t")) ⟨2024, 1, 1, 0, 0, 0⟩ :=
    ⟨by decide, by decide, by decide⟩
  refine ⟨⟨htab, literal_one_space (List.cons_ne_nil _ _) (fun _ hb => .inr (List.mem_singleton.mp hb)) htab⟩,
    fun hspaces => ?_⟩
  have htwo : ∀ b ∈ textBytes "  ", b = 32 ∨ b = 9 := by
    rw [show textBytes "  " = [32, 32] by decide]
    simp
  rcases literal_one_space (List.cons_ne_nil _ _) htwo hspaces with h | h <;> exact absurd h (by decide)

end Datetime

end Rmdb
