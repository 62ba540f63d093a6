import Rmdb.Lib.RawMemory

namespace Rmdb.Lib

/-!
# Arrays in memory

An array of items of one size lies somewhere in memory.  Items are inserted by one move of the later items
to higher addresses and one copy, and erased by one move to lower addresses; source and target of a move may
overlap.

* `RawMemory.copy` — `memmove` and `memcpy`;
* `RawMemory.slot` — an item of an array;
* `slot_copy` — the items after a move of whole items;
* `insertSlots`, `eraseSlots` — the two operations, and `slot_insertSlots`, `slot_eraseSlots`.
-/

namespace RawMemory

variable {m src : RawMemory} {base sbase dst off : Int} {w a b i n pos cnt : Nat}

/-- `n` bytes of `src` from `off` on get to `dst`.  The bytes are those before the move, also if `src` is the
    memory itself and the two places overlap. -/
def copy (m : RawMemory) (dst : Int) (src : RawMemory) (off : Int) (n : Nat) : RawMemory := fun i =>
  if dst ≤ i ∧ i < dst + n then src (off + (i - dst)) else m i

theorem copy_of_lt {i : Int} (h : i < dst) : m.copy dst src off n i = m i := if_neg fun hi => by omega

theorem copy_of_le {i : Int} (h : dst + n ≤ i) : m.copy dst src off n i = m i := if_neg fun hi => by omega

/-- A move of no bytes. -/
@[simp] theorem copy_zero : m.copy dst src off 0 = m := by
  funext i
  exact if_neg fun hi => by omega

theorem copy_add (m src : RawMemory) (dst off : Int) {k : Nat} (hk : k < n) :
    m.copy dst src off n (dst + k) = src (off + k) := by
  unfold copy
  rw [if_pos (by omega)]
  congr 1
  omega

/-- Equal bytes are read equally. -/
theorem read_congr {m' : RawMemory} (h : ∀ k < n, m' (dst + (k : Nat)) = m (off + (k : Nat))) :
    m'.read dst n = m.read off n :=
  List.map_congr_left fun k hk => h k (List.mem_range.mp hk)

/-- The item `i` of an array of items of `w` bytes. -/
def slot (m : RawMemory) (base : Int) (w i : Nat) : List UInt8 := m.read (base + (i * w : Nat)) w

@[simp] theorem length_slot : (m.slot base w i).length = w := length_read ..

/-- A byte of an item that comes before another item. -/
theorem slot_end_le (h : i < a) {k : Nat} (hk : k < w) : i * w + k < a * w := by
  have hmul := Nat.mul_le_mul_right w (Nat.succ_le_of_lt h)
  rw [Nat.succ_mul] at hmul
  omega

/-- **A move of whole items**: `cnt` items from the item `a` of the one array to the item `b` of the other. -/
theorem slot_copy : (m.copy (base + (b * w : Nat)) src (sbase + (a * w : Nat)) (cnt * w)).slot base w i =
    if b ≤ i ∧ i < b + cnt then src.slot sbase w (a + (i - b)) else m.slot base w i := by
  split
  · rename_i h
    -- an item that is written
    obtain ⟨j, rfl⟩ := Nat.exists_eq_add_of_le h.1
    refine read_congr fun k hk => ?_
    have hlt := slot_end_le (show j < cnt by omega) hk
    have hin := copy_add m src (base + (b * w : Nat)) (sbase + (a * w : Nat)) hlt
    have hdst : base + ((b + j) * w : Nat) + k = base + (b * w : Nat) + ((j * w + k : Nat) : Int) := by
      rw [Nat.add_mul]
      push_cast
      omega
    have hsrc : sbase + ((a + (b + j - b)) * w : Nat) + k =
        sbase + (a * w : Nat) + ((j * w + k : Nat) : Int) := by
      rw [Nat.add_sub_cancel_left, Nat.add_mul]
      push_cast
      omega
    rw [hdst, hsrc, hin]
  · rename_i h
    refine read_congr fun k hk => ?_
    by_cases hb : i < b
    · have hlt := slot_end_le hb hk
      exact copy_of_lt (by push_cast at hlt ⊢; omega)
    · have hle := Nat.mul_le_mul_right w (show b + cnt ≤ i by omega)
      rw [Nat.add_mul] at hle
      exact copy_of_le (by push_cast at hle ⊢; omega)

/-- Items whose bytes are the same. -/
theorem slot_congr {m' : RawMemory} (h : ∀ x, base ≤ x → x < base + (n * w : Nat) → m' x = m x) (hi : i < n) :
    m'.slot base w i = m.slot base w i := by
  refine read_congr fun k hk => h _ (by omega) ?_
  have hlt := slot_end_le hi hk
  push_cast at hlt ⊢
  omega

/-! ### Insertion and erasure -/

/-- `cnt` items of `src` come before the item `pos` of an array of `n` items. -/
def insertSlots (m : RawMemory) (base : Int) (w n pos : Nat) (src : RawMemory) (cnt : Nat) : RawMemory :=
  (m.copy (base + ((pos + cnt) * w : Nat)) m (base + (pos * w : Nat)) ((n - pos) * w)).copy
    (base + (pos * w : Nat)) src (0 + (0 * w : Nat)) (cnt * w)

/-- The item `pos` of an array of `n` items goes. -/
def eraseSlot (m : RawMemory) (base : Int) (w n pos : Nat) : RawMemory :=
  m.copy (base + (pos * w : Nat)) m (base + ((pos + 1) * w : Nat)) ((n - 1 - pos) * w)

theorem slot_insertSlots (hpos : pos ≤ n) : (m.insertSlots base w n pos src cnt).slot base w i =
    if i < pos then m.slot base w i else if i < pos + cnt then src.slot 0 w (i - pos)
      else if i < n + cnt then m.slot base w (i - cnt) else m.slot base w i := by
  unfold insertSlots
  rw [slot_copy, slot_copy]
  by_cases h₁ : i < pos
  · rw [if_pos h₁, if_neg (by omega), if_neg (by omega)]
  by_cases h₂ : i < pos + cnt
  · rw [if_neg h₁, if_pos h₂, if_pos (by omega), Nat.zero_add]
  by_cases h₃ : i < n + cnt
  · have hi : pos + (i - (pos + cnt)) = i - cnt := by omega
    rw [if_neg h₁, if_neg h₂, if_pos h₃, if_neg (by omega), if_pos (by omega), hi]
  · rw [if_neg h₁, if_neg h₂, if_neg h₃, if_neg (by omega), if_neg (by omega)]

theorem slot_eraseSlot : (m.eraseSlot base w n pos).slot base w i =
    if i < pos then m.slot base w i else if i < n - 1 then m.slot base w (i + 1) else m.slot base w i := by
  unfold eraseSlot
  rw [slot_copy]
  by_cases h₁ : i < pos
  · rw [if_pos h₁, if_neg (by omega)]
  by_cases h₂ : i < n - 1
  · have hi : pos + 1 + (i - pos) = i + 1 := by omega
    rw [if_neg h₁, if_pos h₂, if_pos (by omega), hi]
  · rw [if_neg h₁, if_neg h₂, if_neg (by omega)]

/-- An insertion writes to the items from `pos` on. -/
theorem insertSlots_apply (hpos : pos ≤ n) {x : Int} (h : x < base ∨ base + ((n + cnt) * w : Nat) ≤ x) :
    m.insertSlots base w n pos src cnt x = m x := by
  have hend : (n - pos) * w + (pos + cnt) * w = (n + cnt) * w := by
    rw [← Nat.add_mul]
    congr 1
    omega
  have hsum : (pos + cnt) * w = pos * w + cnt * w := Nat.add_mul ..
  unfold insertSlots
  rcases h with h | h
  · rw [copy_of_lt (by omega), copy_of_lt (by omega)]
  · rw [copy_of_le (by omega), copy_of_le (by omega)]

/-- An erasure writes to the items from `pos` on, but not to the last one. -/
theorem eraseSlot_apply (hpos : pos < n) {x : Int} (h : x < base ∨ base + (n * w : Nat) ≤ x) :
    m.eraseSlot base w n pos x = m x := by
  have hend : (n - 1 - pos) * w + (pos + 1) * w = n * w := by
    rw [← Nat.add_mul]
    congr 1
    omega
  have hsum : (pos + 1) * w = pos * w + w := Nat.succ_mul ..
  unfold eraseSlot
  rcases h with h | h
  · exact copy_of_lt (by omega)
  · exact copy_of_le (by omega)

end RawMemory

end Rmdb.Lib
