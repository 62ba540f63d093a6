import Mathlib.Data.Int.ModEq
import Rmdb.Lib.Bytes
import Rmdb.Execution.SetClauses

namespace Rmdb

open Lib

/-!
# Sums in SET clauses

What a clause `c = d+k` or `c = d-k` stores, compared with what it says.

* `SetExpr.Fits`, `SetExpr.SameSum` — the literal goes into the column, and the old value of the column
  gives the same sum;
* `stored_sum` — the literal is added to the old value of `c`, in the width of the literal;
* `updateFields_iff` — the update is right just under these two conditions.
-/

/-- The clause has the types of an update: a literal fits its column, and a sum is for an integer
    column. -/
def SetExpr.Typed (cols : List ColMeta) : SetExpr → Prop
  | .value colName v => ∃ col, getCol cols colName = .ok col ∧
      isCompatibleType col.type v.type = true ∧ ∃ raw, v.initRaw col.len = .ok raw
  | .sum colName _ _ _ _ => ∃ col, getCol cols colName = .ok col ∧ col.IsInteger

/-- The sum is read as one, and its literal can be stored in the column: one of 64 bits only in a
    BIGINT. -/
def SetExpr.Fits (col : ColMeta) : SetExpr → Prop
  | .value _ _ => True
  | .sum _ _ op gap k => ∃ lit, op.lexeme gap k = some lit ∧
      (lit.isInt = true ∨ (col.type = .bigint ∧ -2 ^ 63 ≤ lit.num ∧ lit.num < 2 ^ 63))

/-- What is written is what the literal gives with the old value of the column itself, in the width of
    the literal. -/
def SetExpr.SameSum (cols : List ColMeta) (old : List UInt8) (col : ColMeta) : SetExpr → Prop
  | .value _ _ => True
  | .sum _ other op gap k => ∃ d lit, getCol cols other = .ok d ∧ d.IsInteger ∧
      op.lexeme gap k = some lit ∧
      if lit.isInt = true ∧ col.type = .bigint then
        Int32Range (d.valueIn old + op.amount k) ∧
          d.valueIn old + op.amount k ≡ col.valueIn old + lit.num [ZMOD 2 ^ 32]
      else d.valueIn old + op.amount k ≡ col.valueIn old + lit.num [ZMOD 2 ^ (8 * col.len)]

variable {cols : List ColMeta} {col : ColMeta} {sets : List SetExpr} {old : List UInt8}
  {floatAdd : Nat → Nat → Nat} {otherHalf : IntText → Nat}

/-! ### What a sum stores -/

/-- The digits are those that are written. -/
theorem SumOp.lexeme_digits {op : SumOp} {gap : Bool} {k lit : IntText}
    (h : op.lexeme gap k = some lit) : lit.digits = k.digits := by
  unfold SumOp.lexeme at h
  split at h
  · cases h
    rfl
  · cases h
  · cases h
    rfl
  · cases h
  · cases h
    rfl

/-- A sign directly before the digits: the literal is the number that the sum adds. -/
theorem SumOp.lexeme_joined (op : SumOp) {k : IntText} (hk : k.sign = .none) :
    ∃ lit, op.lexeme false k = some lit ∧ lit.num = op.amount k := by
  cases op with
  | plus =>
    refine ⟨{ k with sign := .plus }, by simp only [SumOp.lexeme, hk], ?_⟩
    simp [IntText.num, SumOp.amount, hk]
  | minus =>
    refine ⟨{ k with sign := .minus }, by simp only [SumOp.lexeme, hk], ?_⟩
    simp [IntText.num, SumOp.amount, hk]

/-- The value of an integer text, modulo its width. -/
theorem lexValueInt_eq_some {k : IntText} {v : Value}
    (h : lexValueInt otherHalf k = some v) :
    (k.isInt = true ∧ v.type = .int ∧ (v.bits : Int) ≡ k.num [ZMOD 2 ^ 32]) ∨
      (k.isInt = false ∧ v.type = .bigint ∧ (v.bits : Int) ≡ k.num [ZMOD 2 ^ 64] ∧
        -2 ^ 63 ≤ k.num ∧ k.num < 2 ^ 63) := by
  unfold lexValueInt at h
  by_cases hint : k.isInt = true
  · rw [if_pos hint] at h
    cases h
    refine .inl ⟨hint, rfl, ?_⟩
    show (((k.num % 2 ^ 32).toNat + 2 ^ 32 * otherHalf k : Nat) : Int) % 2 ^ 32 = _
    omega
  · rw [if_neg hint] at h
    by_cases hrange : -2 ^ 63 ≤ k.num ∧ k.num < 2 ^ 63
    · rw [if_pos hrange] at h
      cases h
      refine .inr ⟨by simpa using hint, rfl, ?_, hrange⟩
      show (((k.num % 2 ^ 64).toNat : Nat) : Int) % 2 ^ 64 = _
      omega
    · rw [if_neg hrange] at h
      cases h

/-- The old value of the column, up to its width. -/
theorem field_modEq (hcol : col.IsInteger) (old : List UInt8) :
    (ofLeBytes (slice old col.offset col.len) : Int) ≡ col.valueIn old [ZMOD 2 ^ (8 * col.len)] := by
  have hw : 0 < 8 * col.len := by
    rcases hcol with ⟨-, hlen⟩ | ⟨-, hlen⟩ <;> omega
  have hcast : (2 : Int) ^ (8 * col.len) = ((2 ^ (8 * col.len) : Nat) : Int) := by push_cast; rfl
  show _ % _ = signed (8 * col.len) (ofLeBytes (slice old col.offset col.len)) % _
  rw [signed_eq_bmod hw, hcast, Int.bmod_emod]

/-- The width in which a sum is made. -/
def IntText.width (k : IntText) : Nat := if k.isInt then 32 else 64

/-- Numbers that are equal in two's complement. -/
theorem bmod_eq_bmod_iff {a b : Int} {w : Nat} :
    Int.bmod a (2 ^ w) = Int.bmod b (2 ^ w) ↔ a ≡ b [ZMOD 2 ^ w] := by
  have hcast : (2 : Int) ^ w = ((2 ^ w : Nat) : Int) := by push_cast; rfl
  rw [hcast]
  constructor
  · intro h
    rw [Int.ModEq, ← Int.bmod_emod (x := a), h, Int.bmod_emod]
  · intro h
    rw [← Int.emod_bmod a, h, Int.emod_bmod]

/-- The integer that `init_raw` writes. -/
theorem intAt_initRaw {v : Value} {raw : List UInt8} (hcol : col.IsInteger)
    (h : v.initRaw col.len = .ok raw) :
    (v.type = .int → col.intAt raw = signed 32 v.bits) ∧
      (v.type = .bigint → col.type = .bigint ∧ col.intAt raw = signed 64 v.bits) := by
  have hlength := Value.length_initRaw h
  have hint : col.intAt raw = signed (8 * col.len) (ofLeBytes raw) := by
    rw [ColMeta.intAt, ← hlength, List.take_length]
  rw [hint]
  constructor
  · intro htype
    simp only [Value.initRaw, htype] at h
    rcases hcol with ⟨-, hlen⟩ | ⟨-, hlen⟩
    · rw [hlen, if_neg (by decide), if_pos rfl] at h
      cases h
      rw [hlen, ofLeBytes_leBytes]
      exact signed_mod 32 v.bits
    · rw [hlen, if_neg (by decide), if_neg (by decide)] at h
      cases h
      have hpad : padBytes (leBytes (signExtend v.bits) 8) 8 = leBytes (signExtend v.bits) 8 := by
        have hl := length_leBytes (signExtend v.bits) 8
        unfold padBytes
        rw [hl, Nat.sub_self, List.replicate_zero, List.append_nil, List.take_of_length_le (by omega)]
      rw [hpad, hlen, ofLeBytes_leBytes]
      exact (signed_mod 64 _).trans (signed_signExtend _)
  · intro htype
    simp only [Value.initRaw, htype] at h
    rcases hcol with ⟨-, hlen⟩ | ⟨hc, hlen⟩
    · rw [hlen, if_neg (by decide)] at h
      cases h
    · rw [hlen, if_pos rfl] at h
      cases h
      rw [hlen, ofLeBytes_leBytes]
      exact ⟨hc, signed_mod 64 v.bits⟩

/-- The addition in the member of the union that the column selects. -/
theorem selfAdd_integer (hcol : col.IsInteger) (floatAdd : Nat → Nat → Nat) (v : Value)
    (old : List UInt8) :
    ∃ v', v.selfAdd floatAdd col old = .ok v' ∧ v'.type = v.type ∧
      (v'.bits : Int) ≡ v.bits + ofLeBytes old [ZMOD 2 ^ (8 * col.len)] := by
  rcases hcol with ⟨htype, hlen⟩ | ⟨htype, hlen⟩
  · have hadd : v.selfAdd floatAdd col old = .ok { v with
        bits := v.bits - v.bits % 2 ^ 32 + (v.bits % 2 ^ 32 + ofLeBytes old) % 2 ^ 32 } := by
      simp only [Value.selfAdd, htype, hlen, if_true]
    refine ⟨_, hadd, rfl, ?_⟩
    rw [hlen]
    show ((v.bits - v.bits % 2 ^ 32 + (v.bits % 2 ^ 32 + ofLeBytes old) % 2 ^ 32 : Nat) : Int) %
      2 ^ 32 = _ % 2 ^ 32
    omega
  · have hadd : v.selfAdd floatAdd col old =
        .ok { v with bits := (v.bits + ofLeBytes old) % 2 ^ 64 } := by
      simp only [Value.selfAdd, htype, hlen, if_true]
    refine ⟨_, hadd, rfl, ?_⟩
    rw [hlen]
    show (((v.bits + ofLeBytes old) % 2 ^ 64 : Nat) : Int) % 2 ^ 64 = _ % 2 ^ 64
    omega

/-- **A sum stores** the literal plus the old value of the column it sets, in the width of the
literal. -/
theorem stored_sum {c other : String} {op : SumOp} {gap : Bool} {k : IntText} {x : SetClause}
    {raw : List UInt8} (hcol : col.IsInteger)
    (hparse : (SetExpr.sum c other op gap k).parse otherHalf = some x)
    (h : x.stored floatAdd col old = .ok raw) :
    (SetExpr.sum c other op gap k).Fits col ∧
      ∃ lit, op.lexeme gap k = some lit ∧
        col.intAt raw = Int.bmod (col.valueIn old + lit.num) (2 ^ lit.width) := by
  obtain ⟨v, hlexed, rfl⟩ := Option.map_eq_some_iff.mp hparse
  obtain ⟨lit, hlit, hv⟩ := Option.bind_eq_some_iff.mp hlexed
  obtain ⟨v', hv', htype', hbits⟩ := selfAdd_integer hcol floatAdd v (slice old col.offset col.len)
  have hraw : v'.initRaw col.len = .ok raw := by
    unfold SetClause.stored at h
    rw [if_pos rfl, hv'] at h
    exact h
  obtain ⟨hint, hbig⟩ := intAt_initRaw hcol hraw
  -- the union after the addition, up to the width of the column
  have hsum : (v'.bits : Int) ≡ v.bits + col.valueIn old [ZMOD 2 ^ (8 * col.len)] :=
    hbits.trans ((field_modEq hcol old).add_left _)
  rcases lexValueInt_eq_some hv with ⟨hk, htype, hnum⟩ | ⟨hk, htype, hnum, hrange⟩
  · refine ⟨⟨lit, hlit, .inl hk⟩, lit, hlit, ?_⟩
    rw [hint (htype'.trans htype), signed_eq_bmod (by decide), IntText.width, if_pos hk]
    have hdvd : (2 : Int) ^ 32 ∣ 2 ^ (8 * col.len) := by
      refine pow_dvd_pow 2 ?_
      rcases hcol with ⟨-, hlen⟩ | ⟨-, hlen⟩ <;> omega
    refine bmod_eq_bmod_iff.mpr ((hsum.of_dvd hdvd).trans ?_)
    rw [Int.add_comm]
    exact hnum.add_left _
  · obtain ⟨hbigint, hval⟩ := hbig (htype'.trans htype)
    refine ⟨⟨lit, hlit, .inr ⟨hbigint, hrange⟩⟩, lit, hlit, ?_⟩
    have hlen : col.len = 8 := by
      rcases hcol with ⟨hc, -⟩ | ⟨-, hlen⟩
      · rw [hc] at hbigint
        cases hbigint
      · exact hlen
    rw [hlen] at hsum
    rw [hval, signed_eq_bmod (by decide), IntText.width, hk]
    refine bmod_eq_bmod_iff.mpr (hsum.trans ?_)
    rw [Int.add_comm]
    exact hnum.add_left _

/-- A sum whose literal fits the column is stored. -/
theorem exists_stored_sum {c other : String} {op : SumOp} {gap : Bool} {k : IntText}
    (hcol : col.IsInteger) (hfits : (SetExpr.sum c other op gap k).Fits col) :
    ∃ x, (SetExpr.sum c other op gap k).parse otherHalf = some x ∧
      isCompatibleType col.type x.rhs.type = true ∧ (∃ raw, x.rhs.initRaw col.len = .ok raw) ∧
      ∀ (floatAdd : Nat → Nat → Nat) (old : List UInt8), ∃ raw,
        x.stored floatAdd col old = .ok raw := by
  -- an `int` goes into either column, an `int64_t` into a BIGINT
  have hinit : ∀ v : Value, v.type = .int ∨ (v.type = .bigint ∧ col.type = .bigint) →
      ∃ raw, v.initRaw col.len = .ok raw := by
    rintro v (hv | ⟨hv, hc⟩)
    · rcases hcol with ⟨-, hlen⟩ | ⟨-, hlen⟩
      · exact ⟨_, by simp only [Value.initRaw, hv, hlen]; rfl⟩
      · exact ⟨_, by simp only [Value.initRaw, hv, hlen]; rfl⟩
    · rcases hcol with ⟨hc', -⟩ | ⟨-, hlen⟩
      · rw [hc] at hc'
        cases hc'
      · exact ⟨_, by simp only [Value.initRaw, hv, hlen]; rfl⟩
  obtain ⟨lit, hlit, hfits⟩ := hfits
  have hlex : ∃ v, lexValueInt otherHalf lit = some v ∧
      (v.type = .int ∨ (v.type = .bigint ∧ col.type = .bigint)) := by
    unfold lexValueInt
    rcases hfits with hk | ⟨hbig, hrange⟩
    · rw [if_pos hk]
      exact ⟨_, rfl, .inl rfl⟩
    · by_cases hk : lit.isInt = true
      · rw [if_pos hk]
        exact ⟨_, rfl, .inl rfl⟩
      · rw [if_neg hk, if_pos hrange]
        exact ⟨_, rfl, .inr ⟨rfl, hbig⟩⟩
  obtain ⟨v, hv, htype⟩ := hlex
  refine ⟨{ lhs := c, rhs := v, isSelfadd := true }, ?_, ?_, hinit v htype,
    fun floatAdd old => ?_⟩
  · rw [SetExpr.parse, hlit, Option.bind_some, hv]
    rfl
  · rcases hcol with ⟨hc, -⟩ | ⟨hc, -⟩
    · rcases htype with hv | ⟨hv, -⟩ <;> simp [isCompatibleType, hc, hv]
    · rcases htype with hv | ⟨hv, -⟩ <;> simp [isCompatibleType, hc, hv]
  · obtain ⟨v', hv', htype', -⟩ :=
      selfAdd_integer hcol floatAdd v (slice old col.offset col.len)
    obtain ⟨raw, hraw⟩ := hinit v' (htype' ▸ htype)
    refine ⟨raw, ?_⟩
    unfold SetClause.stored
    rw [if_pos rfl, hv']
    exact hraw

/-- Typed assignments whose numbers fit are accepted. -/
theorem SetExpr.accepted {s : SetExpr} (htyped : s.Typed cols)
    (hfits : ∀ col, getCol cols s.lhs = .ok col → s.Fits col) :
    s.Accepted floatAdd otherHalf cols old := by
  cases s with
  | value colName v =>
    obtain ⟨col, hcol, hcompat, hraw⟩ := htyped
    exact ⟨_, col, rfl, hcol, hcompat, hraw, hraw⟩
  | sum colName other op gap k =>
    obtain ⟨col, hcol, hint⟩ := htyped
    obtain ⟨x, hx, hcompat, hraw, hstored⟩ := exists_stored_sum hint (hfits col hcol)
    exact ⟨x, col, hx, hcol, hcompat, hraw, hstored floatAdd old⟩

/-! ### The two widths -/

/-- A text of digits is below a power of ten. -/
theorem foldl_digits_lt (digits : List (Fin 10)) (n : Nat) :
    digits.foldl (fun n (d : Fin 10) => 10 * n + d.val) n < 10 ^ digits.length * (n + 1) := by
  induction digits generalizing n with
  | nil => simp
  | cons d digits ih =>
    have h := ih (10 * n + d.val)
    have hd := d.isLt
    rw [List.foldl_cons, List.length_cons, pow_succ, Nat.mul_assoc]
    exact h.trans_le (Nat.mul_le_mul_left _ (by omega))

/-- A literal that is taken for an `int` has at most 11 digits. -/
theorem IntText.length_digits {k : IntText} (h : k.isInt = true) : k.digits.length ≤ 11 := by
  by_contra hlt
  have hsize : (intBound k.sign).length + 1 = 11 := rfl
  unfold IntText.isInt at h
  rw [hsize] at h
  simp only [show ¬ k.digits.length < 11 by omega, show 11 < k.digits.length by omega,
    if_true, if_false] at h
  cases h

/-- At most eleven digits. -/
theorem IntText.num_bounds {k : IntText} (hlen : k.digits.length ≤ 11) :
    -10 ^ 11 < k.num ∧ k.num < 10 ^ 11 := by
  have hlt := foldl_digits_lt k.digits 0
  have hpow : 10 ^ k.digits.length ≤ 10 ^ 11 := Nat.pow_le_pow_right (by decide) hlen
  unfold IntText.num
  dsimp only
  split <;> omega

/-- The value of a column has 64 bits. -/
theorem valueIn_bounds {d : ColMeta} (hd : d.IsInteger) (rec : List UInt8) :
    -2 ^ 63 ≤ d.valueIn rec ∧ d.valueIn rec < 2 ^ 63 := by
  unfold ColMeta.valueIn ColMeta.intAt signed
  rcases hd with ⟨-, hlen⟩ | ⟨-, hlen⟩
  · rw [hlen]
    dsimp only
    split <;> omega
  · rw [hlen]
    dsimp only
    split <;> omega

/-- What one operator adds. -/
theorem SumOp.amount_bounds (op : SumOp) {k : IntText} (hlen : k.digits.length ≤ 11) :
    -10 ^ 11 < op.amount k ∧ op.amount k < 10 ^ 11 := by
  have h := IntText.num_bounds hlen
  cases op with
  | plus => exact h
  | minus =>
    show -10 ^ 11 < -k.num ∧ -k.num < 10 ^ 11
    omega

/-- The sum of 32 bits is the sum of 64 bits just if the latter fits 32 bits. -/
theorem bmod_eq_bmod_widths {a d n : Int} (hd : -2 ^ 63 ≤ d ∧ d < 2 ^ 63)
    (hn : -10 ^ 11 < n ∧ n < 10 ^ 11) :
    Int.bmod a (2 ^ 32) = Int.bmod (d + n) (2 ^ 64) ↔
      Int32Range (d + n) ∧ d + n ≡ a [ZMOD 2 ^ 32] := by
  have h32 := Int.bmod_eq_iff (a := a) (c := Int.bmod (d + n) (2 ^ 64)) (Nat.two_pow_pos 32)
  obtain ⟨hlo, hhi, hdvd⟩ := (Int.bmod_eq_iff (a := d + n) (Nat.two_pow_pos 64)).mp rfl
  generalize Int.bmod (d + n) (2 ^ 64) = e at *
  rw [h32]
  unfold Int32Range Int.ModEq
  constructor
  · rintro ⟨hlo', hhi', hdvd'⟩
    omega
  · rintro ⟨⟨hlo', hhi'⟩, hmod⟩
    have he : e = d + n := by omega
    omega

/-- A sign directly before the digits leaves a condition on the two old values only. -/
theorem SetExpr.sameSum_joined {c other : String} {op : SumOp} {k : IntText} (hk : k.sign = .none) :
    (SetExpr.sum c other op false k).SameSum cols old col ↔
      ∃ d lit, getCol cols other = .ok d ∧ d.IsInteger ∧ op.lexeme false k = some lit ∧
        if lit.isInt = true ∧ col.type = .bigint then
          Int32Range (d.valueIn old + op.amount k) ∧ d.valueIn old ≡ col.valueIn old [ZMOD 2 ^ 32]
        else d.valueIn old ≡ col.valueIn old [ZMOD 2 ^ (8 * col.len)] := by
  obtain ⟨lit, hlit, hnum⟩ := op.lexeme_joined hk
  have hadd : ∀ (a b n : Int), a + op.amount k ≡ b + lit.num [ZMOD n] ↔ a ≡ b [ZMOD n] := by
    intro a b n
    rw [hnum]
    exact ⟨fun h => Int.ModEq.add_right_cancel' _ h, fun h => h.add_right _⟩
  refine exists_congr fun d => exists_congr fun lit' => and_congr_right fun _ =>
    and_congr_right fun _ => and_congr_right fun hlit' => ?_
  cases hlit.symm.trans hlit'
  rw [hadd, hadd]

/-- What is written is stored just if the literal gives it with the old value of the column set. -/
theorem gives_iff {c other : String} {op : SumOp} {gap : Bool} {k lit : IntText} {raw : List UInt8}
    (hcol : col.IsInteger) (hlit : op.lexeme gap k = some lit)
    (hfits : (SetExpr.sum c other op gap k).Fits col)
    (hraw : col.intAt raw = Int.bmod (col.valueIn old + lit.num) (2 ^ lit.width)) :
    (SetExpr.sum c other op gap k).Gives cols old col raw ↔
      (SetExpr.sum c other op gap k).SameSum cols old col := by
  obtain ⟨lit', hlit', hfits⟩ := hfits
  cases hlit.symm.trans hlit'
  -- one column `d` and one literal on either side
  have hsame : (SetExpr.sum c other op gap k).SameSum cols old col ↔
      ∃ d, getCol cols other = .ok d ∧ d.IsInteger ∧
        if lit.isInt = true ∧ col.type = .bigint then
          Int32Range (d.valueIn old + op.amount k) ∧
            d.valueIn old + op.amount k ≡ col.valueIn old + lit.num [ZMOD 2 ^ 32]
        else d.valueIn old + op.amount k ≡ col.valueIn old + lit.num [ZMOD 2 ^ (8 * col.len)] := by
    refine exists_congr fun d => ⟨?_, fun ⟨hd, hdint, h⟩ => ⟨lit, hd, hdint, hlit, h⟩⟩
    rintro ⟨lit', hd, hdint, hlit', h⟩
    cases hlit.symm.trans hlit'
    exact ⟨hd, hdint, h⟩
  rw [hsame]
  refine exists_congr fun d => and_congr_right fun _ => and_congr_right fun hd => ?_
  rw [hraw]
  by_cases hwide : lit.isInt = true ∧ col.type = .bigint
  · have hlen : col.len = 8 := by
      rcases hcol with ⟨hc, -⟩ | ⟨-, hlen⟩
      · rw [hc] at hwide
        cases hwide.2
      · exact hlen
    have hdigits := IntText.length_digits hwide.1
    rw [SumOp.lexeme_digits hlit] at hdigits
    rw [if_pos hwide, hlen, IntText.width, if_pos hwide.1]
    exact bmod_eq_bmod_widths (valueIn_bounds hd old) (op.amount_bounds hdigits)
  · have hwidth : lit.width = 8 * col.len := by
      unfold IntText.width
      rcases hfits with hk | ⟨hbig, -⟩
      · rcases hcol with ⟨-, hlen⟩ | ⟨hc, -⟩
        · rw [if_pos hk, hlen]
        · exact absurd ⟨hk, hc⟩ hwide
      · rcases hcol with ⟨hc, -⟩ | ⟨-, hlen⟩
        · rw [hbig] at hc
          cases hc
        · rw [if_neg (fun hk => hwide ⟨hk, hbig⟩), hlen]
    rw [if_neg hwide, hwidth, bmod_eq_bmod_iff]
    exact ⟨Int.ModEq.symm, Int.ModEq.symm⟩

/-! ### The whole statement -/

/-- **An update is right** if and only if every sum is read as one whose literal fits the column and, for
each column, the last clause that sets it says what its literal gives with the column's own old
value. -/
theorem updateFields_iff (floatAdd : Nat → Nat → Nat) (otherHalf : IntText → Nat)
    (hlayout : Layout cols old.length) (hsets : ∀ s ∈ sets, s.Typed cols) :
    (∃ new, updateFields floatAdd otherHalf cols sets old = some (.ok new) ∧
        Updates cols sets old new) ↔
      (∀ s ∈ sets, ∀ col, getCol cols s.lhs = .ok col → s.Fits col) ∧
        ∀ col ∈ cols, ∀ s, lastSet cols sets col = some s → s.SameSum cols old col := by
  -- the column of a sum is an integer column
  have hint : ∀ s ∈ sets, ∀ col, getCol cols s.lhs = .ok col →
      ∀ c other op gap k, s = .sum c other op gap k → col.IsInteger := by
    rintro s hs col hcol c other op gap k rfl
    obtain ⟨col', hcol', hcolint⟩ := hsets _ hs
    rw [show getCol cols c = .ok col from hcol] at hcol'
    cases hcol'
    exact hcolint
  constructor
  · rintro ⟨new, hrun, hnew⟩
    obtain ⟨clauses, hparse, -, happly⟩ := updateFields_eq_ok.mp hrun
    have hfits : ∀ s ∈ sets, ∀ col, getCol cols s.lhs = .ok col → s.Fits col := by
      intro s hs col hcol
      obtain ⟨x, col', raw, hx, hcol', hraw⟩ := stored_of_applySet hparse happly s hs
      cases hcol.symm.trans hcol'
      cases s with
      | value c v => trivial
      | sum c other op gap k => exact (stored_sum (hint _ hs col hcol c other op gap k rfl) hx hraw).1
    refine ⟨hfits, fun col hcol s hlast => ?_⟩
    obtain ⟨hmem, htarget⟩ := mem_of_lastSet hlast
    obtain ⟨x, hx, hraw⟩ := ((applySet_fields hlayout hparse happly).2 col hcol).2 s hlast
    cases s with
    | value c v => trivial
    | sum c other op gap k =>
      have hcolint := hint _ hmem col htarget c other op gap k rfl
      obtain ⟨lit, hlit, hval⟩ := (stored_sum hcolint hx hraw).2
      exact (gives_iff hcolint hlit (hfits _ hmem col htarget) hval).mp (hnew.gives col hcol _ hlast)
  · rintro ⟨hfits, hsame⟩
    obtain ⟨clauses, new, hparse, hanalyze, happly⟩ :=
      updateFields_accepted (fun s hs => SetExpr.accepted (hsets s hs) (hfits s hs)) old
    obtain ⟨hlen, hfields⟩ := applySet_fields hlayout hparse happly
    refine ⟨new, updateFields_eq_ok.mpr ⟨clauses, hparse, hanalyze, happly⟩, hlen,
      fun col hcol => (hfields col hcol).1, fun col hcol s hlast => ?_⟩
    obtain ⟨hmem, htarget⟩ := mem_of_lastSet hlast
    obtain ⟨x, hx, hraw⟩ := (hfields col hcol).2 s hlast
    cases s with
    | value c v =>
      cases hx
      exact hraw
    | sum c other op gap k =>
      have hcolint := hint _ hmem col htarget c other op gap k rfl
      obtain ⟨lit, hlit, hval⟩ := (stored_sum hcolint hx hraw).2
      exact (gives_iff hcolint hlit (hfits _ hmem col htarget) hval).mpr (hsame col hcol _ hlast)

/-- A table with an INT column `a`, an INT column `b` and a BIGINT column `c`. -/
def threeCols : List ColMeta :=
  [{ name := "a", type := .int, len := 4, offset := 0 },
   { name := "b", type := .int, len := 4, offset := 4 },
   { name := "c", type := .bigint, len := 8, offset := 8 }]

/-- `SET a = a+1, c = c -2` on the row (1, 5, 7). -/
theorem updateFields_two_sums :
    let sets : List SetExpr :=
      [.sum "a" "a" .plus false ⟨.none, [1]⟩, .sum "c" "c" .minus false ⟨.none, [2]⟩]
    let old : List UInt8 := [1, 0, 0, 0, 5, 0, 0, 0, 7, 0, 0, 0, 0, 0, 0, 0]
    ∃ new, updateFields (fun a _ => a) (fun _ => 0) threeCols sets old = some (.ok new) ∧
      Updates threeCols sets old new := by
  intro sets old
  refine (updateFields_iff (fun a _ => a) (fun _ => 0) ⟨by decide, by decide⟩ ?_).mpr ⟨?_, ?_⟩
  · intro s hs
    rcases List.mem_cons.mp hs with rfl | hs
    · exact ⟨_, rfl, .inl ⟨rfl, rfl⟩⟩
    · cases List.mem_singleton.mp hs
      exact ⟨_, rfl, .inr ⟨rfl, rfl⟩⟩
  · intro s hs col _
    rcases List.mem_cons.mp hs with rfl | hs
    · exact ⟨⟨.plus, [1]⟩, rfl, .inl rfl⟩
    · cases List.mem_singleton.mp hs
      exact ⟨⟨.minus, [2]⟩, rfl, .inl rfl⟩
  · intro col hcol s hlast
    rcases List.mem_cons.mp hcol with rfl | hcol
    · cases hlast
      refine ⟨_, ⟨.plus, [1]⟩, rfl, .inl ⟨rfl, rfl⟩, rfl, ?_⟩
      rw [if_neg (by decide)]
      exact rfl
    · rcases List.mem_cons.mp hcol with rfl | hcol
      · cases hlast
      · cases List.mem_singleton.mp hcol
        cases hlast
        refine ⟨_, ⟨.minus, [2]⟩, rfl, .inr ⟨rfl, rfl⟩, rfl, ?_⟩
        rw [if_pos ⟨rfl, rfl⟩]
        exact ⟨⟨by decide, by decide⟩, rfl⟩

/-- `SET a = b+1` on the row (1, 5, 7) stores 2. -/
theorem other_column_ignored :
    let sets : List SetExpr := [.sum "a" "b" .plus false ⟨.none, [1]⟩]
    let old : List UInt8 := [1, 0, 0, 0, 5, 0, 0, 0, 7, 0, 0, 0, 0, 0, 0, 0]
    ¬ ∃ new, updateFields (fun a _ => a) (fun _ => 0) threeCols sets old = some (.ok new) ∧
      Updates threeCols sets old new := by
  rintro sets old ⟨new, hrun, hnew⟩
  have hout : updateFields (fun a _ => a) (fun _ => 0) threeCols sets old =
      some (.ok [2, 0, 0, 0, 5, 0, 0, 0, 7, 0, 0, 0, 0, 0, 0, 0]) := by
    with_unfolding_all rfl
  rw [hout] at hrun
  cases hrun
  obtain ⟨d, hd, -, hval⟩ := hnew.gives _ List.mem_cons_self _ rfl
  cases hd
  revert hval
  decide

end Rmdb
