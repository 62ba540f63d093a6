import Mathlib.Data.List.TakeWhile
import Rmdb.Lib.Transition
import Rmdb.Optimizer.Planner

namespace Rmdb

open Lib Std

/-!
# Conditions on a record and key ranges (`executor_utils.hpp`, `IndexScanExecutor::init_key_range`)

`checkConds` reads the columns of a record and compares them.  `init_key_range` turns the conditions
on the columns of an index into a smallest and a largest key.

* `ExecutorUtils.checkConds` — the conditions on a record;
* `IndexScan.keyRange` — the two keys, one column after the other;
* `Analyze.checkClause` — what `Analyze::check_clause` accepts;
* `checkCond_ok` — such a condition can be checked on every record;
* `ixCompareCol_of_compare` — on literals of the column's type the comparison of values and that of
  bytes agree.

A literal of another type is copied into the key as it is: the bits of an integer as those of a float.
-/

/-- `Value::load_raw`. -/
def Value.loadRaw (type : ColType) (len : Nat) (data : List UInt8) : Except ExecError Value :=
  let number (n : Nat) : Except ExecError Value :=
    if len = n then .ok { type := type, bits := ofLeBytes (data.take n), datetimeVal := [], strVal := [] }
    else .error .assertion
  match type with
  | .int => number 4
  | .bigint => number 8
  | .float => number 4
  | .datetime => .ok { type := type, bits := 0, datetimeVal := data.take len, strVal := [] }
  | .string => .ok { type := type, bits := 0, datetimeVal := [], strVal := data.take len }

/-- A column of table `tab`, by its name. -/
def findCol (tab : String) (cols : List ColMeta) (x : TabCol) : Except ExecError ColMeta :=
  match cols.find? fun col => x.colName = col.name ∧ x.tabName = tab with
  | some col => .ok col
  | none => .error (.columnNotFoundError x.colName)

namespace ExecutorUtils

/-- The value of a column.  A column that is not there would be read past the end of the list. -/
def loadCol (tab : String) (cols : List ColMeta) (rec : List UInt8) (x : TabCol) :
    Except ExecError Value := do
  let col ← findCol tab cols x
  Value.loadRaw col.type col.len (slice rec col.offset col.len)

/-- The right side of a condition. -/
def rhsValue (tab : String) (cols : List ColMeta) (rec : List UInt8) (c : Condition) :
    Except ExecError Value :=
  if c.isRhsVal then .ok c.rhsVal else loadCol tab cols rec c.rhsCol

/-- One condition. -/
def checkCond (tab : String) (cols : List ColMeta) (rec : List UInt8) (c : Condition) :
    Except ExecError Bool := do
  let lval ← loadCol tab cols rec c.lhsCol
  let rval ← rhsValue tab cols rec c
  binop c.op lval rval

/-- `checkConds`. -/
def checkConds (tab : String) (cols : List ColMeta) (rec : List UInt8) :
    List Condition → Except ExecError Bool
  | [] => .ok true
  | c :: conds => do
    if ← checkCond tab cols rec c then checkConds tab cols rec conds else return false

end ExecutorUtils

namespace IndexScan

/-- The bytes of a text. -/
def textBytes (s : String) : List UInt8 := s.toList.map fun c => UInt8.ofNat c.toNat

/-- The smallest and the largest value of a column, as `init_key_range` takes them. -/
def defaultRange (col : ColMeta) : Except ExecError (Value × Value) :=
  let value (bits : Nat) (datetimeVal strVal : List UInt8) : Value :=
    { type := col.type, bits := bits, datetimeVal := datetimeVal, strVal := strVal }
  match col.type with
  | .int => .ok (value 0x80000000 [] [], value 0x7FFFFFFF [] [])
  -- `-__FLT_MAX__` and `__FLT_MAX__`
  | .float => .ok (value 0xFF7FFFFF [] [], value 0x7F7FFFFF [] [])
  | .string => .ok (value 0 [] (List.replicate col.len 0), value 0 [] (List.replicate col.len 255))
  | .datetime => .ok (value 0 (textBytes "1000-01-01 00:00:00") [],
      value 0 (textBytes "9999-12-31 23:59:59") [])
  | .bigint => .error (.rmdbError "type not exits!")

/-- The range of a column so far, and `is_last`. -/
structure ColRange where
  min : Value
  max : Value
  isLast : Bool
  deriving DecidableEq, Repr

/-- `tem_min`, if the value is greater. -/
def ColRange.raise (r : ColRange) (v : Value) : Except ExecError ColRange := do
  return if ← binop .gt v r.min then { r with min := v } else r

/-- `tem_max`, if the value is less. -/
def ColRange.lower (r : ColRange) (v : Value) : Except ExecError ColRange := do
  return if ← binop .lt v r.max then { r with max := v } else r

/-- One condition on a column. -/
def narrow (col : ColMeta) (r : ColRange) (c : Condition) : Except ExecError ColRange :=
  if c.lhsCol.colName = col.name ∧ c.isRhsVal then
    match c.op with
    | .eq => do (← r.raise c.rhsVal).lower c.rhsVal
    | .gt | .ge => { r with isLast := true }.raise c.rhsVal
    | .lt | .le => { r with isLast := true }.lower c.rhsVal
    | .ne => .ok { r with isLast := true }
  else .ok r

/-- The conditions on a column.  After a column with a condition that is not `=` they are not looked at
    any more. -/
def narrowAll (conds : List Condition) (col : ColMeta) (r : ColRange) : Except ExecError ColRange :=
  if r.isLast then .ok r else conds.foldlM (narrow col) r

/-- The range of a column, with the bytes of both ends. -/
def colRange (conds : List Condition) (col : ColMeta) (isLast : Bool) :
    Except ExecError (List UInt8 × List UInt8 × Bool) := do
  let d ← defaultRange col
  let _ ← d.2.initRaw col.len
  let _ ← d.1.initRaw col.len
  let r ← narrowAll conds col ⟨d.1, d.2, isLast⟩
  -- the raw bytes of a literal were made for this column by `check_clause`
  let max ← r.max.initRaw col.len
  let min ← r.min.initRaw col.len
  return (min, max, r.isLast)

/-- `init_key_range`: the smallest and the largest key. -/
def keyRange (conds : List Condition) : List ColMeta → Bool →
    Except ExecError (List UInt8 × List UInt8)
  | [], _ => .ok ([], [])
  | col :: cols, isLast => do
    let r ← colRange conds col isLast
    let rest ← keyRange conds cols r.2.2
    return (r.1 ++ rest.1, r.2.1 ++ rest.2)

end IndexScan

namespace Analyze

/-- The type of the right side of a condition.  A literal gets its bytes. -/
def rhsType (tab : String) (cols : List ColMeta) (lhs : ColMeta) (c : Condition) :
    Except ExecError ColType :=
  if c.isRhsVal then (c.rhsVal.initRaw lhs.len).map fun _ => c.rhsVal.type
  else (findCol tab cols c.rhsCol).map (·.type)

/-- `check_clause` of a condition on one table: the columns exist, a literal gets its bytes, and the
    types are compatible. -/
def checkClause (tab : String) (cols : List ColMeta) (c : Condition) : Except ExecError Unit := do
  let lhs ← findCol tab cols c.lhsCol
  let type ← rhsType tab cols lhs c
  if isCompatibleType lhs.type type then return ()
  else throw (.incompatibleTypeError lhs.type type)

end Analyze

/-- The length of a column, as the grammar declares it. -/
def ColMeta.Declared (col : ColMeta) : Prop :=
  match col.type with
  | .int | .float => col.len = 4
  | .bigint => col.len = 8
  | .datetime => col.len = 20
  | .string => True

/-- A declared column can be read. -/
theorem ColMeta.Declared.loadRaw {col : ColMeta} (h : col.Declared) (data : List UInt8) :
    ∃ v, Value.loadRaw col.type col.len data = .ok v ∧ v.type = col.type := by
  obtain ⟨name, type, len, offset⟩ := col
  cases type with
  | int => exact ⟨_, if_pos h, rfl⟩
  | bigint => exact ⟨_, if_pos h, rfl⟩
  | float => exact ⟨_, if_pos h, rfl⟩
  | string => exact ⟨_, rfl, rfl⟩
  | datetime => exact ⟨_, rfl, rfl⟩

/-! ### Conditions -/

section Conditions

variable {tab : String} {cols : List ColMeta} {c : Condition} {conds : List Condition}

/-- A column that is found belongs to its table. -/
theorem findCol_eq_ok {x : TabCol} {col : ColMeta} (h : findCol tab cols x = .ok col) :
    x.tabName = tab ∧ col ∈ cols := by
  unfold findCol at h
  split at h
  · rename_i col' hfind
    cases h
    have hp := List.find?_some hfind
    exact ⟨(of_decide_eq_true hp).2, List.mem_of_find?_eq_some hfind⟩
  · cases h

/-- A column that is found can be read. -/
theorem loadCol_ok (hdecl : ∀ col ∈ cols, col.Declared) {x : TabCol} {col : ColMeta}
    (h : findCol tab cols x = .ok col) (rec : List UInt8) :
    ∃ v, ExecutorUtils.loadCol tab cols rec x = .ok v ∧ v.type = col.type := by
  obtain ⟨v, hv, htype⟩ := (hdecl col (findCol_eq_ok h).2).loadRaw (slice rec col.offset col.len)
  exact ⟨v, bind_eq_ok.mpr ⟨col, h, hv⟩, htype⟩

/-- A condition that `check_clause` accepts can be checked on every record. -/
theorem checkCond_ok (hdecl : ∀ col ∈ cols, col.Declared)
    (hc : Analyze.checkClause tab cols c = .ok ()) (rec : List UInt8) :
    ∃ b, ExecutorUtils.checkCond tab cols rec c = .ok b := by
  obtain ⟨lhs, hlhs, hc⟩ := bind_eq_ok.mp hc
  obtain ⟨type, htype, hc⟩ := bind_eq_ok.mp hc
  obtain ⟨l, hl, hlt⟩ := loadCol_ok hdecl hlhs rec
  have hcompat : isCompatibleType lhs.type type = true := by
    by_contra hne
    rw [if_neg hne] at hc
    cases hc
  have hr : ∃ r, ExecutorUtils.rhsValue tab cols rec c = .ok r ∧ r.type = type := by
    unfold Analyze.rhsType at htype
    unfold ExecutorUtils.rhsValue
    split at htype
    · rename_i hval
      rw [if_pos hval]
      cases hraw : c.rhsVal.initRaw lhs.len with
      | error e =>
        rw [hraw] at htype
        cases htype
      | ok raw =>
        rw [hraw] at htype
        cases htype
        exact ⟨_, rfl, rfl⟩
    · rename_i hval
      rw [if_neg hval]
      cases hcol : findCol tab cols c.rhsCol with
      | error e =>
        rw [hcol] at htype
        cases htype
      | ok col =>
        rw [hcol] at htype
        cases htype
        exact loadCol_ok hdecl hcol rec
  obtain ⟨r, hr, hrt⟩ := hr
  obtain ⟨b, hb, -⟩ := binop_of_compatible (l := l) (r := r) (by rw [hlt, hrt]; exact hcompat) c.op
  exact ⟨b, bind_eq_ok.mpr ⟨l, hl, bind_eq_ok.mpr ⟨r, hr, hb⟩⟩⟩

/-- A condition that is checked is about its table. -/
theorem checkClause_tab (hc : Analyze.checkClause tab cols c = .ok ()) : c.lhsCol.tabName = tab := by
  obtain ⟨lhs, hlhs, -⟩ := bind_eq_ok.mp hc
  exact (findCol_eq_ok hlhs).1

/-- **`checkConds` is a conjunction.** -/
theorem checkConds_ok (rec : List UInt8)
    (hconds : ∀ c ∈ conds, ∃ b, ExecutorUtils.checkCond tab cols rec c = .ok b) :
    ∃ b, ExecutorUtils.checkConds tab cols rec conds = .ok b ∧
      (b = true ↔ ∀ c ∈ conds, ExecutorUtils.checkCond tab cols rec c = .ok true) := by
  induction conds with
  | nil => exact ⟨true, rfl, iff_of_true rfl fun _ h => absurd h List.not_mem_nil⟩
  | cons c conds ih =>
    obtain ⟨b, hb⟩ := hconds c List.mem_cons_self
    obtain ⟨b', hb', hiff⟩ := ih fun x hx => hconds x (List.mem_cons_of_mem _ hx)
    rw [ExecutorUtils.checkConds, hb]
    cases b with
    | true =>
      refine ⟨b', hb', hiff.trans ?_⟩
      rw [List.forall_mem_cons, hb]
      exact ⟨fun h => ⟨rfl, h⟩, fun h => h.2⟩
    | false =>
      refine ⟨false, rfl, iff_of_false Bool.false_ne_true fun h => ?_⟩
      have := h c List.mem_cons_self
      rw [hb] at this
      cases this

end Conditions

/-! ### Bytes and values -/

/-- The bytes of a number. -/
theorem length_leBytes (n len : Nat) : (leBytes n len).length = len := by
  unfold leBytes
  rw [List.length_map, List.length_range]

/-- A text is padded to its length. -/
theorem length_padBytes (s : List UInt8) (len : Nat) : (padBytes s len).length = len := by
  unfold padBytes
  rw [List.length_take, List.length_append, List.length_replicate]
  omega

/-- `init_raw` fills the column. -/
theorem Value.length_initRaw {v : Value} {len : Nat} {raw : List UInt8} (h : v.initRaw len = .ok raw) :
    raw.length = len := by
  unfold Value.initRaw at h
  split at h
  · split at h
    · cases h
    · split at h
      · cases h
        rw [length_leBytes]
        omega
      · cases h
        exact length_padBytes _ _
  · split at h
    · cases h
      rw [length_leBytes]
      omega
    · cases h
  · split at h
    · cases h
      rw [length_leBytes]
      omega
    · cases h
  · split at h
    · cases h
    · cases h
      exact length_padBytes _ _
  · split at h
    · cases h
    · cases h
      exact length_padBytes _ _

/-- A number is read back from its bytes, as far as they reach. -/
theorem ofLeBytes_leBytes (n len : Nat) : ofLeBytes (leBytes n len) = n % 256 ^ len := by
  unfold leBytes
  induction len generalizing n with
  | zero => rw [Nat.pow_zero, Nat.mod_one]; rfl
  | succ len ih =>
    rw [List.range_succ_eq_map, List.map_cons, List.map_map, ofLeBytes]
    have hrest : (fun k => UInt8.ofNat (n / 256 ^ k)) ∘ Nat.succ =
        fun k => UInt8.ofNat (n / 256 / 256 ^ k) := by
      funext k
      show UInt8.ofNat (n / 256 ^ (k + 1)) = _
      rw [Nat.div_div_eq_div_mul, Nat.pow_succ, Nat.mul_comm]
    rw [hrest, ih, Nat.pow_zero, Nat.div_one, UInt8.toNat_ofNat']
    show n % 256 + 256 * (n / 256 % 256 ^ len) = n % 256 ^ (len + 1)
    rw [Nat.pow_succ, Nat.mul_comm (256 ^ len), Nat.mod_mul]

/-- Only the low bits count. -/
theorem signed_mod (w n : Nat) : signed w (n % 2 ^ w) = signed w n := by
  unfold signed
  rw [Nat.mod_mod]

/-- The number in two's complement. -/
theorem signed_eq_bmod {w : Nat} (hw : 0 < w) (n : Nat) : signed w n = Int.bmod n (2 ^ w) := by
  have hhalf : 2 ^ w = 2 * 2 ^ (w - 1) := by
    rw [← Nat.pow_succ', Nat.succ_eq_add_one, Nat.sub_add_cancel hw]
  have hcast : (2 : Int) ^ w = ((2 ^ w : Nat) : Int) := by push_cast; rfl
  have hmod : (n : Int) % ((2 ^ w : Nat) : Int) = ((n % 2 ^ w : Nat) : Int) := rfl
  simp only [signed, Int.bmod, hmod, hcast]
  split <;> split <;> omega

/-- A field that ends in zeros after the first zero. -/
def Padded (field : List UInt8) : Prop := ∃ n, field = cStr field ++ List.replicate n 0

/-- A C string ends before its first zero. -/
theorem zero_not_mem_cStr (s : List UInt8) : (0 : UInt8) ∉ cStr s := by
  intro h
  have := List.mem_takeWhile_imp h
  simp at this

/-- Padding does not belong to it. -/
theorem cStr_append_zeros {s : List UInt8} (hs : (0 : UInt8) ∉ s) (n : Nat) :
    cStr (s ++ List.replicate n 0) = s := by
  unfold cStr
  rw [List.takeWhile_append_of_pos fun b hb => by
    simpa using fun hc : b = 0 => hs (hc ▸ hb)]
  cases n with
  | zero => simp
  | succ n => simp [List.replicate_succ]

/-- A text without zeros that fits is padded. -/
theorem padBytes_eq {s : List UInt8} {len : Nat} (hlen : s.length ≤ len) :
    padBytes s len = s ++ List.replicate (len - s.length) 0 := by
  unfold padBytes
  refine List.take_of_length_le ?_
  rw [List.length_append, List.length_replicate]
  omega

/-- **`memcmp` of padded fields is `strcmp`.** -/
theorem compare_padded {a b : List UInt8} (ha : (0 : UInt8) ∉ a) (hb : (0 : UInt8) ∉ b) {n m : Nat}
    (hlen : a.length + n = b.length + m) :
    compare (a ++ List.replicate n 0) (b ++ List.replicate m 0) = compare a b := by
  show List.compareLex compare _ _ = List.compareLex compare _ _
  have hzero : ∀ {x : UInt8} {l : List UInt8}, (0 : UInt8) ∉ x :: l → compare 0 x = .lt := by
    intro x l hx
    have hne : x ≠ 0 := fun hc => hx (hc ▸ List.mem_cons_self)
    have hpos : (0 : UInt8) < x := UInt8.pos_iff_ne_zero.mpr hne
    show compareOfLessAndEq 0 x = .lt
    unfold compareOfLessAndEq
    rw [if_pos hpos]
  induction a generalizing b with
  | nil =>
    cases b with
    | nil =>
      rw [List.length_nil, Nat.zero_add, Nat.zero_add] at hlen
      rw [hlen, List.compareLex_nil_nil]
      exact ReflCmp.compare_self (α := List UInt8)
    | cons y b =>
      obtain ⟨n, rfl⟩ : ∃ k, n = k + 1 := ⟨n - 1, by simp at hlen; omega⟩
      rw [List.nil_append, List.replicate_succ, List.cons_append, List.compareLex_cons_cons, hzero hb]
      rfl
  | cons x a ih =>
    cases b with
    | nil =>
      obtain ⟨m, rfl⟩ : ∃ k, m = k + 1 := ⟨m - 1, by simp at hlen; omega⟩
      rw [List.nil_append, List.replicate_succ, List.cons_append, List.compareLex_cons_cons,
        OrientedCmp.gt_of_lt (hzero ha)]
      rfl
    | cons y b =>
      rw [List.cons_append, List.cons_append, List.compareLex_cons_cons, List.compareLex_cons_cons,
        ih (fun h => ha (List.mem_cons_of_mem _ h)) (fun h => hb (List.mem_cons_of_mem _ h))
          (by simp only [List.length_cons] at hlen; omega)]

/-- A literal that can be compared with the fields of a column: its type, and no zeros in its text. -/
def Value.FitsCol (v : Value) (col : ColMeta) : Prop :=
  match col.type with
  | .int => v.type = .int
  | .bigint => v.type = .bigint
  | .float => v.type = .float
  | .string => v.type = .string ∧ (0 : UInt8) ∉ v.strVal ∨
      v.type = .datetime ∧ (0 : UInt8) ∉ v.datetimeVal ∧ v.datetimeVal.length ≤ col.len
  | .datetime => v.type = .datetime ∧ (0 : UInt8) ∉ v.datetimeVal ∧ v.datetimeVal.length ≤ col.len

/-- A field of a record in a column: its length, and text is padded. -/
structure FieldOf (col : ColMeta) (field : List UInt8) : Prop where
  length : field.length = col.len
  padded : col.type = .string ∨ col.type = .datetime → Padded field

/-- A padded text is compared by its letters. -/
theorem strcmp_padded {field s : List UInt8} {len : Nat} (hf : Padded field) (hlen : field.length = len)
    (hs : (0 : UInt8) ∉ s) (hsl : s.length ≤ len) :
    compare field (padBytes s len) = strcmp field s := by
  obtain ⟨n, hn⟩ := hf
  have hcs : cStr s = s := by
    have := cStr_append_zeros hs 0
    rwa [List.replicate_zero, List.append_nil] at this
  have hfl : (cStr field).length + n = s.length + (len - s.length) := by
    have := congrArg List.length hn
    rw [List.length_append, List.length_replicate] at this
    omega
  unfold strcmp
  rw [padBytes_eq hsl, hcs]
  conv_lhs => rw [hn]
  exact compare_padded (zero_not_mem_cStr field) hs hfl

/-! ### A literal and a field -/

/-- The text of a literal for a column of text, as `binop` and `init_raw` use it. -/
theorem compare_text {col : ColMeta} {field raw : List UInt8} {l v : Value} {o : Ordering}
    (htext : col.type = .string ∨ col.type = .datetime) (hfield : FieldOf col field)
    (hfits : v.FitsCol col) (hl : Value.loadRaw col.type col.len field = .ok l)
    (hraw : v.initRaw col.len = .ok raw) (ho : l.compare v = .ok (some o)) :
    compare field raw = o := by
  have hpad := hfield.padded htext
  have hlen := hfield.length
  obtain ⟨name, type, len, offset⟩ := col
  obtain ⟨vtype, bits, dt, str⟩ := v
  dsimp only at htext hfits hl hraw hlen
  have htake : field.take len = field := List.take_of_length_le (Nat.le_of_eq hlen)
  rcases htext with rfl | rfl
  · cases hl
    rcases hfits with ⟨hv, hz⟩ | ⟨hv, hz, hlt⟩
    · obtain rfl : vtype = .string := hv
      dsimp only [Value.initRaw] at hraw
      split at hraw
      · cases hraw
      · rename_i hle
        cases hraw
        cases ho
        rw [strcmp_padded hpad hlen hz (Nat.le_of_not_lt hle), htake]
    · obtain rfl : vtype = .datetime := hv
      dsimp only [Value.initRaw] at hraw
      split at hraw
      · cases hraw
      · cases hraw
        cases ho
        rw [strcmp_padded hpad hlen hz hlt, htake]
  · cases hl
    obtain ⟨hv, hz, hlt⟩ := hfits
    obtain rfl : vtype = .datetime := hv
    dsimp only [Value.initRaw] at hraw
    split at hraw
    · cases hraw
    · cases hraw
      cases ho
      rw [strcmp_padded hpad hlen hz hlt, htake]

/-- **On a literal of the column's type the two comparisons agree**: that of the values and that of
    their bytes in a key. -/
theorem ixCompareCol_of_compare {col : ColMeta} {field raw : List UInt8} {l v : Value} {o : Ordering}
    (hdecl : col.Declared) (hfield : FieldOf col field) (hfits : v.FitsCol col)
    (hl : Value.loadRaw col.type col.len field = .ok l) (hraw : v.initRaw col.len = .ok raw)
    (ho : l.compare v = .ok (some o)) : ixCompareCol (col.type, col.len) field raw = o := by
  have hrawlen := v.length_initRaw hraw
  have hlen := hfield.length
  have htext : col.type = .string ∨ col.type = .datetime → compare field raw = o :=
    fun ht => compare_text ht hfield hfits hl hraw ho
  obtain ⟨name, type, len, offset⟩ := col
  obtain ⟨vtype, bits, dt, str⟩ := v
  dsimp only at hfits hl hraw hrawlen hlen htext ⊢
  -- the number in the bytes of a literal
  have hnum : ∀ n, ofLeBytes ((leBytes bits n).take n) = bits % 256 ^ n := by
    intro n
    rw [List.take_of_length_le (Nat.le_of_eq (length_leBytes bits n)), ofLeBytes_leBytes]
  cases type with
  | int =>
    obtain rfl : len = 4 := hdecl
    obtain rfl : vtype = .int := hfits
    cases hl
    cases hraw
    cases ho
    show compare _ (signed 32 (ofLeBytes ((leBytes bits 4).take 4))) = _
    rw [hnum]
    exact congrArg (compare _) (signed_mod 32 bits)
  | bigint =>
    obtain rfl : len = 8 := hdecl
    obtain rfl : vtype = .bigint := hfits
    cases hl
    cases hraw
    cases ho
    show compare _ (signed 64 (ofLeBytes ((leBytes bits 8).take 8))) = _
    rw [hnum]
    exact congrArg (compare _) (signed_mod 64 bits)
  | float =>
    obtain rfl : len = 4 := hdecl
    obtain rfl : vtype = .float := hfits
    cases hl
    cases hraw
    have hsmall : ofLeBytes (field.take 4) % 2 ^ 32 = ofLeBytes (field.take 4) := by
      refine Nat.mod_eq_of_lt (Nat.lt_of_lt_of_le (ofLeBytes_lt _) ?_)
      exact Nat.pow_le_pow_right (by decide) (by rw [List.length_take]; omega : _ ≤ 4)
    have hbits : ofLeBytes ((leBytes bits 4).take 4) = bits % 2 ^ 32 := hnum 4
    have ho' : compareFloat (ofLeBytes (field.take 4) % 2 ^ 32) (bits % 2 ^ 32) = some o :=
      Except.ok.inj ho
    rw [hsmall] at ho'
    unfold compareFloat at ho'
    split at ho'
    · cases ho'
    · rename_i hnan
      rw [Bool.not_eq_true, Bool.or_eq_false_iff] at hnan
      cases ho'
      rw [ixCompareCol_eq (fun _ => hnan.1) fun _ => ?_]
      · show compare [_] [floatRank (ofLeBytes ((leBytes bits 4).take 4))] = _
        rw [compare_singleton, hbits]
      · rw [hbits]
        exact hnan.2
  | string =>
    show compare (field.take len) (raw.take len) = o
    rw [List.take_of_length_le (Nat.le_of_eq hlen), List.take_of_length_le (Nat.le_of_eq hrawlen)]
    exact htext (Or.inl rfl)
  | datetime =>
    show compare (field.take len) (raw.take len) = o
    rw [List.take_of_length_le (Nat.le_of_eq hlen), List.take_of_length_le (Nat.le_of_eq hrawlen)]
    exact htext (Or.inr rfl)

/-- The comparison of two keys, the other way round. -/
theorem ixCompareCol_swap (col : IxCol) (a b : List UInt8) :
    ixCompareCol col b a = (ixCompareCol col a b).swap := by
  have hint : ∀ x y : Int, compare y x = (compare x y).swap := fun _ _ => OrientedCmp.eq_swap
  have hbytes : ∀ x y : List UInt8, compare y x = (compare x y).swap :=
    fun _ _ => OrientedCmp.eq_swap
  obtain ⟨type, len⟩ := col
  cases type with
  | int => exact hint _ _
  | bigint => exact hint _ _
  | string => exact hbytes _ _
  | datetime => exact hbytes _ _
  | float =>
    show (if _ then _ else if _ then _ else _) = (if _ then _ else if _ then _ else _ : Ordering).swap
    generalize ofLeBytes (a.take 4) = x
    generalize ofLeBytes (b.take 4) = y
    have hexcl : floatLt x y = true → floatLt y x = false := by
      unfold floatLt
      intro h
      simp only [Bool.and_eq_true, decide_eq_true_eq] at h
      have hlt : ¬ floatRank y < floatRank x := by omega
      simp [hlt]
    cases hxy : floatLt x y with
    | true => simp [hexcl hxy]
    | false => cases floatLt y x <;> rfl

namespace IndexScan

variable {col : ColMeta} {field : List UInt8}

/-- The field lies between the ends of the range. -/
structure ColRange.Covers (col : ColMeta) (field : List UInt8) (r : ColRange) : Prop where
  low : ∀ raw, r.min.initRaw col.len = .ok raw →
    (ixCompareCol (col.type, col.len) raw field).isLE
  high : ∀ raw, r.max.initRaw col.len = .ok raw →
    (ixCompareCol (col.type, col.len) field raw).isLE

/-- The field lies in the default range of its type. -/
def InDefault (col : ColMeta) (field : List UInt8) : Prop :=
  ∀ d, defaultRange col = .ok d → ColRange.Covers col field ⟨d.1, d.2, false⟩

/-- The range of a column, taken apart. -/
theorem colRange_eq_ok {conds : List Condition} {isLast : Bool} {r : List UInt8 × List UInt8 × Bool}
    (h : colRange conds col isLast = .ok r) : ∃ d q, defaultRange col = .ok d ∧
      narrowAll conds col ⟨d.1, d.2, isLast⟩ = .ok q ∧ q.min.initRaw col.len = .ok r.1 ∧
      q.max.initRaw col.len = .ok r.2.1 ∧ r.2.2 = q.isLast := by
  obtain ⟨d, hd, h⟩ := bind_eq_ok.mp h
  obtain ⟨-, -, h⟩ := bind_eq_ok.mp h
  obtain ⟨-, -, h⟩ := bind_eq_ok.mp h
  obtain ⟨q, hq, h⟩ := bind_eq_ok.mp h
  obtain ⟨max, hmax, h⟩ := bind_eq_ok.mp h
  obtain ⟨min, hmin, h⟩ := bind_eq_ok.mp h
  cases h
  exact ⟨d, q, hd, hq, hmin, hmax, rfl⟩

/-- The columns of an index as `ix_compare` sees them. -/
def ixCols (cols : List ColMeta) : List IxCol := cols.map fun c => (c.type, c.len)

/-- Both ends have the length of a key. -/
theorem keyRange_length {conds : List Condition} {cols : List ColMeta} {isLast : Bool}
    {r : List UInt8 × List UInt8} (h : keyRange conds cols isLast = .ok r) :
    r.1.length = colTotLen (ixCols cols) ∧ r.2.length = colTotLen (ixCols cols) := by
  induction cols generalizing isLast r with
  | nil =>
    cases h
    exact ⟨rfl, rfl⟩
  | cons col cols ih =>
    obtain ⟨q, hq, h⟩ := bind_eq_ok.mp h
    obtain ⟨rest, hrest, h⟩ := bind_eq_ok.mp h
    cases h
    obtain ⟨h1, h2⟩ := ih hrest
    obtain ⟨_, _, -, -, hmin, hmax, -⟩ := colRange_eq_ok hq
    have hsum : colTotLen (ixCols (col :: cols)) = col.len + colTotLen (ixCols cols) := by
      unfold colTotLen ixCols
      rw [List.map_cons, List.map_cons, List.sum_cons]
    rw [hsum, List.length_append, List.length_append, h1, h2, Value.length_initRaw hmin,
      Value.length_initRaw hmax]
    exact ⟨rfl, rfl⟩

/-- The comparison of a column looks at its bytes only. -/
theorem ixCompareCol_append {a b : List UInt8} (hdecl : col.Declared) (ha : a.length = col.len)
    (hb : b.length = col.len) (a' b' : List UInt8) :
    ixCompareCol (col.type, col.len) (a ++ a') (b ++ b') = ixCompareCol (col.type, col.len) a b := by
  obtain ⟨name, type, len, offset⟩ := col
  have htake : ∀ n, n ≤ len → (a ++ a').take n = a.take n ∧ (b ++ b').take n = b.take n :=
    fun n hn => ⟨List.take_append_of_le_length (by rw [ha]; exact hn),
      List.take_append_of_le_length (by rw [hb]; exact hn)⟩
  unfold ixCompareCol
  dsimp only
  cases type with
  | int =>
    obtain rfl : len = 4 := hdecl
    rw [(htake 4 (Nat.le_refl 4)).1, (htake 4 (Nat.le_refl 4)).2]
  | float =>
    obtain rfl : len = 4 := hdecl
    rw [(htake 4 (Nat.le_refl 4)).1, (htake 4 (Nat.le_refl 4)).2]
  | bigint =>
    obtain rfl : len = 8 := hdecl
    rw [(htake 8 (Nat.le_refl 8)).1, (htake 8 (Nat.le_refl 8)).2]
  | string => rw [(htake len (Nat.le_refl _)).1, (htake len (Nat.le_refl _)).2]
  | datetime => rw [(htake len (Nat.le_refl _)).1, (htake len (Nat.le_refl _)).2]

end IndexScan

end Rmdb
