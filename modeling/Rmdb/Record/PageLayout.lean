import Mathlib.Algebra.Order.Ring.Nat
import Rmdb.Lib.Bytes
import Rmdb.Storage.Disk

namespace Rmdb

open Lib

/-!
# The pages of a table file (`record/rm_defs.h`, `record/bitmap.h`, `RmPageHandle`)

A page is its LSN (bytes 0 to 3), the page header (`next_free_page_no`, `num_records`), a bitmap with
one bit per slot, and the slots.

* `RmFileHdr.Fits` — the bitmap has a bit for every slot and the slots end inside the page; it holds
  of every header `create_file` writes (`RmFileHdr.create_fits`);
* `*_patch` — a write to some bytes leaves what is read from other bytes alone;
* `insertInto_spec`, `deleteFrom_spec`, `updateIn_spec` — what the three changes of a page do to its
  header, its bits and its slots.
-/

/-! ### Bytes of a page -/

namespace PageData

/-- Replace the `n` bytes from `off` on. -/
def patch (x : PageData) (off n : Nat) (g : Nat → UInt8) : PageData :=
  fun i => if off ≤ i ∧ (i : Nat) < off + n then g (i - off) else x i

/-- The bytes that are written. -/
theorem get_patch_inside (x : PageData) {off n : Nat} (g : Nat → UInt8) {k : Nat}
    (hpage : off + n ≤ pageSize) (hk : k < n) : (x.patch off n g).get (off + k) = g k := by
  have hlt : off + k < pageSize := by omega
  unfold get
  rw [dif_pos hlt]
  show (if off ≤ off + k ∧ off + k < off + n then g (off + k - off) else _) = g k
  rw [if_pos (by omega), Nat.add_sub_cancel_left]

/-- The bytes that are not. -/
theorem get_patch_outside (x : PageData) {off n : Nat} (g : Nat → UInt8) {i : Nat}
    (hi : i < off ∨ off + n ≤ i) : (x.patch off n g).get i = x.get i := by
  unfold get
  by_cases hlt : i < pageSize
  · rw [dif_pos hlt, dif_pos hlt]
    show (if off ≤ i ∧ i < off + n then g (i - off) else _) = _
    rw [if_neg (by omega)]
  · rw [dif_neg hlt, dif_neg hlt]

/-- The 32-bit integer at an offset. -/
def int (x : PageData) (off : Nat) : Int := int32At x.get off

/-- Store a 32-bit integer. -/
def setInt (x : PageData) (off : Nat) (v : Int) : PageData := x.patch off 4 (int32Bytes v)

/-- A number beside the bytes that are written. -/
theorem int_patch (x : PageData) {off n a : Nat} (g : Nat → UInt8)
    (h : off + n ≤ a ∨ a + 4 ≤ off) : (x.patch off n g).int a = x.int a :=
  int32At_congr fun k hk => get_patch_outside x g (by omega)

/-- A number that is written is read back. -/
theorem int_setInt (x : PageData) {off : Nat} {v : Int} (hoff : off + 4 ≤ pageSize)
    (hv : Int32Range v) : (x.setInt off v).int off = v :=
  int32At_eq hv fun _ hk => get_patch_inside x _ hoff hk

end PageData

/-! ### Headers -/

/-- `RM_NO_PAGE`. -/
def rmNoPage : Int := -1

/-- `RM_FILE_HDR_PAGE`. -/
def rmFileHdrPage : Int := 0

/-- `RM_MAX_RECORD_SIZE`. -/
def rmMaxRecordSize : Int := 512

/-- `sizeof(RmFileHdr)`. -/
def sizeofRmFileHdr : Nat := 20

/-- `struct RmFileHdr`. -/
structure RmFileHdr where
  recordSize : Nat
  numPages : Int
  numRecordsPerPage : Nat
  firstFreePageNo : Int
  bitmapSize : Nat
  deriving DecidableEq, Repr

namespace RmFileHdr

/-- The header `RmManager::create_file` writes. -/
def create (recordSize : Nat) : RmFileHdr :=
  let n := (8 * (pageSize - 1 - sizeofRmFileHdr) + 1) / (1 + recordSize * 8)
  { recordSize := recordSize
    numPages := 1
    firstFreePageNo := rmNoPage
    numRecordsPerPage := n
    bitmapSize := (n + 8 - 1) / 8 }

/-- The header as bytes. -/
def bytes (h : RmFileHdr) (i : Nat) : UInt8 :=
  if i < 4 then int32Bytes h.recordSize i
  else if i < 8 then int32Bytes h.numPages (i - 4)
  else if i < 12 then int32Bytes h.numRecordsPerPage (i - 8)
  else if i < 16 then int32Bytes h.firstFreePageNo (i - 12)
  else int32Bytes h.bitmapSize (i - 16)

/-- The header read from bytes. -/
def ofBytes (m : Nat → UInt8) : RmFileHdr where
  recordSize := (int32At m 0).toNat
  numPages := int32At m 4
  numRecordsPerPage := (int32At m 8).toNat
  firstFreePageNo := int32At m 12
  bitmapSize := (int32At m 16).toNat

/-- Every field fits in its `int`. -/
structure InRange (h : RmFileHdr) : Prop where
  recordSize : h.recordSize < 2147483648
  numPages : Int32Range h.numPages
  numRecordsPerPage : h.numRecordsPerPage < 2147483648
  firstFreePageNo : Int32Range h.firstFreePageNo
  bitmapSize : h.bitmapSize < 2147483648

/-- **Round trip.** A header is read back as it was written. -/
theorem ofBytes_bytes {h : RmFileHdr} (hr : h.InRange) {m : Nat → UInt8}
    (hm : ∀ i < sizeofRmFileHdr, m i = h.bytes i) : ofBytes m = h := by
  have h0 : int32At m 0 = h.recordSize := by
    refine int32At_eq ⟨by omega, by have := hr.recordSize; omega⟩ fun k hk => ?_
    rw [Nat.zero_add, hm k (by simp only [sizeofRmFileHdr]; omega), bytes, if_pos hk]
  have h4 : int32At m 4 = h.numPages := by
    refine int32At_eq hr.numPages fun k hk => ?_
    rw [hm (4 + k) (by simp only [sizeofRmFileHdr]; omega), bytes, if_neg (by omega),
      if_pos (by omega), Nat.add_sub_cancel_left]
  have h8 : int32At m 8 = h.numRecordsPerPage := by
    refine int32At_eq ⟨by omega, by have := hr.numRecordsPerPage; omega⟩ fun k hk => ?_
    rw [hm (8 + k) (by simp only [sizeofRmFileHdr]; omega), bytes, if_neg (by omega),
      if_neg (by omega), if_pos (by omega), Nat.add_sub_cancel_left]
  have h12 : int32At m 12 = h.firstFreePageNo := by
    refine int32At_eq hr.firstFreePageNo fun k hk => ?_
    rw [hm (12 + k) (by simp only [sizeofRmFileHdr]; omega), bytes, if_neg (by omega),
      if_neg (by omega), if_neg (by omega), if_pos (by omega), Nat.add_sub_cancel_left]
  have h16 : int32At m 16 = h.bitmapSize := by
    refine int32At_eq ⟨by omega, by have := hr.bitmapSize; omega⟩ fun k hk => ?_
    rw [hm (16 + k) (by simp only [sizeofRmFileHdr]; omega), bytes, if_neg (by omega),
      if_neg (by omega), if_neg (by omega), if_neg (by omega), Nat.add_sub_cancel_left]
  unfold ofBytes
  rw [h0, h4, h8, h12, h16]
  simp

/-- The bitmap has a bit for every slot, and the slots end inside the page. -/
structure Fits (h : RmFileHdr) : Prop where
  slots : 0 < h.numRecordsPerPage
  bits : h.numRecordsPerPage ≤ 8 * h.bitmapSize
  page : 12 + h.bitmapSize + h.numRecordsPerPage * h.recordSize ≤ pageSize

/-- **Every record size `create_file` admits gives a layout that fits.** -/
theorem create_fits {r : Nat} (h1 : 1 ≤ r) (h2 : (r : Int) ≤ rmMaxRecordSize) :
    (create r).Fits := by
  simp only [rmMaxRecordSize] at h2
  have hr : r ≤ 512 := by omega
  generalize hn : 32601 / (1 + r * 8) = n
  have hcreate : create r = ⟨r, 1, n, rmNoPage, (n + 8 - 1) / 8⟩ := by
    rw [← hn]
    rfl
  have hle : n * (1 + r * 8) ≤ 32601 := by
    rw [← hn]
    exact Nat.div_mul_le_self _ _
  have hpos : 0 < n := by
    rw [← hn]
    exact Nat.div_pos (by omega) (by omega)
  rw [hcreate]
  refine ⟨hpos, by show n ≤ 8 * ((n + 8 - 1) / 8); omega, ?_⟩
  show 12 + (n + 8 - 1) / 8 + n * r ≤ 4096
  rw [Nat.mul_add, Nat.mul_one, ← Nat.mul_assoc] at hle
  omega

end RmFileHdr

/-! ### The bitmap -/

/-- Where the bitmap starts: `OFFSET_PAGE_HDR + sizeof(RmPageHdr)`. -/
def bitmapOffset : Nat := 12

namespace Bitmap

/-- `Bitmap::init`. -/
def init (x : PageData) (size : Nat) : PageData := x.patch bitmapOffset size (fun _ => 0)

/-- `Bitmap::is_set`. -/
def isSet (x : PageData) (pos : Nat) : Bool := testBit (x.get (bitmapOffset + pos / 8)) (pos % 8)

/-- `Bitmap::set`. -/
def set (x : PageData) (pos : Nat) : PageData :=
  x.patch (bitmapOffset + pos / 8) 1
    (fun _ => setBit (x.get (bitmapOffset + pos / 8)) (pos % 8))

/-- `Bitmap::reset`. -/
def reset (x : PageData) (pos : Nat) : PageData :=
  x.patch (bitmapOffset + pos / 8) 1
    (fun _ => clearBit (x.get (bitmapOffset + pos / 8)) (pos % 8))

/-- `Bitmap::next_bit`: the first position after `curr` with the given bit, else `max_n`. -/
def nextBit (bit : Bool) (x : PageData) (maxN : Nat) (curr : Int) : Nat :=
  ((List.range maxN).find? fun i : Nat => decide (curr < (i : Int)) && isSet x i == bit).getD maxN

/-- The number of set bits among the first `n`. -/
def count (x : PageData) (n : Nat) : Nat := (List.range n).countP (isSet x)

/-- A bit beside the bytes that are written. -/
theorem isSet_patch (x : PageData) {off n j : Nat} (g : Nat → UInt8)
    (h : off + n ≤ bitmapOffset + j / 8 ∨ bitmapOffset + j / 8 < off) :
    isSet (x.patch off n g) j = isSet x j := by
  unfold isSet
  rw [PageData.get_patch_outside x g (by omega)]

/-- `set` sets one bit. -/
theorem isSet_set (x : PageData) {pos : Nat} (hpos : bitmapOffset + pos / 8 < pageSize) (j : Nat) :
    isSet (set x pos) j = (decide (j = pos) || isSet x j) := by
  by_cases hbyte : j / 8 = pos / 8
  · unfold isSet set
    have hget := PageData.get_patch_inside (k := 0) x
      (fun _ => setBit (x.get (bitmapOffset + pos / 8)) (pos % 8)) hpos Nat.one_pos
    rw [Nat.add_zero] at hget
    rw [hbyte, hget, testBit_setBit (Nat.mod_lt _ (by decide)) (Nat.mod_lt _ (by decide))]
    congr 1
    rw [decide_eq_decide]
    omega
  · rw [set, isSet_patch x _ (by omega), decide_eq_false (by omega), Bool.false_or]

/-- `reset` clears one bit. -/
theorem isSet_reset (x : PageData) {pos : Nat} (hpos : bitmapOffset + pos / 8 < pageSize)
    (j : Nat) : isSet (reset x pos) j = (!decide (j = pos) && isSet x j) := by
  by_cases hbyte : j / 8 = pos / 8
  · unfold isSet reset
    have hget := PageData.get_patch_inside (k := 0) x
      (fun _ => clearBit (x.get (bitmapOffset + pos / 8)) (pos % 8)) hpos Nat.one_pos
    rw [Nat.add_zero] at hget
    rw [hbyte, hget, testBit_clearBit (Nat.mod_lt _ (by decide)) (Nat.mod_lt _ (by decide))]
    congr 2
    rw [decide_eq_decide]
    omega
  · rw [reset, isSet_patch x _ (by omega), decide_eq_false (by omega), Bool.not_false,
      Bool.true_and]

/-- `init` clears all bits. -/
theorem isSet_init (x : PageData) {size j : Nat} (hsize : bitmapOffset + size ≤ pageSize)
    (hj : j / 8 < size) : isSet (init x size) j = false := by
  unfold isSet init
  rw [PageData.get_patch_inside x _ hsize hj]
  simp [testBit]

/-- The search for a clear bit among the first `n`. -/
theorem nextBit_false (x : PageData) {n : Nat} (h : count x n < n) :
    nextBit false x n (-1) < n ∧ isSet x (nextBit false x n (-1)) = false := by
  unfold nextBit
  cases hf : (List.range n).find? fun i : Nat =>
      decide ((-1 : Int) < (i : Int)) && isSet x i == false with
  | some i =>
    have hp := List.find?_some hf
    have hm := List.mem_of_find?_eq_some hf
    simp only [Bool.and_eq_true, beq_iff_eq] at hp
    exact ⟨List.mem_range.mp hm, hp.2⟩
  | none =>
    -- then every bit is set
    have hall : (List.range n).countP (isSet x) = (List.range n).length := by
      rw [List.countP_eq_length]
      intro i hi
      have hno := List.find?_eq_none.mp hf i hi
      have hlt : (-1 : Int) < i := by omega
      simpa [hlt] using hno
    rw [List.length_range] at hall
    unfold count at h
    omega

/-- The number of bits depends on the bits only. -/
theorem count_congr {x y : PageData} {n : Nat} (h : ∀ j < n, isSet y j = isSet x j) :
    count y n = count x n :=
  List.countP_congr fun j hj => by rw [h j (List.mem_range.mp hj)]

/-- The counts of two bitmaps that differ in one bit. -/
theorem count_flip {x y : PageData} {s n : Nat} (hs : s < n) (hx : isSet x s = false)
    (hy : isSet y s = true) (hother : ∀ j < n, j ≠ s → isSet y j = isSet x j) :
    count y n = count x n + 1 := by
  induction n with
  | zero => omega
  | succ n ih =>
    have hsplit : ∀ z, count z (n + 1) = count z n + if isSet z n = true then 1 else 0 := by
      intro z
      unfold count
      rw [List.range_succ, List.countP_append, List.countP_singleton]
    rw [hsplit, hsplit]
    by_cases hsn : s = n
    · subst hsn
      rw [count_congr fun j hj => hother j (by omega) (Nat.ne_of_lt hj), hx, hy]
      rfl
    · rw [ih (by omega) fun j hj => hother j (by omega),
        hother n (Nat.lt_succ_self n) (fun h => hsn h.symm)]
      omega

/-- There are no more bits than slots. -/
theorem count_le (x : PageData) (n : Nat) : count x n ≤ n := by
  have := List.countP_le_length (p := isSet x) (l := List.range n)
  rwa [List.length_range] at this

end Bitmap

/-! ### The page header and the slots -/

namespace PageData

/-- `page_hdr->next_free_page_no`. -/
def nextFreePageNo (x : PageData) : Int := x.int 4

/-- `page_hdr->num_records`. -/
def numRecords (x : PageData) : Int := x.int 8

/-- `RmPageHandle::get_slot`: the offset of a slot. -/
def slotOffset (h : RmFileHdr) (slot : Nat) : Nat :=
  bitmapOffset + h.bitmapSize + slot * h.recordSize

/-- The record in a slot. -/
def getSlot (h : RmFileHdr) (x : PageData) (slot : Nat) : List UInt8 :=
  (List.range h.recordSize).map fun i => x.get (slotOffset h slot + i)

/-- Copy a record to a slot. -/
def setSlot (h : RmFileHdr) (x : PageData) (slot : Nat) (buf : List UInt8) : PageData :=
  x.patch (slotOffset h slot) h.recordSize (fun i => buf.getD i 0)

/-- `Page::set_page_lsn`. -/
def setPageLsn (x : PageData) (lsn : Lsn) : PageData := x.setInt 0 lsn

/-- `page_hdr->next_free_page_no = v`. -/
def setNextFreePageNo (x : PageData) (v : Int) : PageData := x.setInt 4 v

/-- `page_hdr->num_records = v`. -/
def setNumRecords (x : PageData) (v : Int) : PageData := x.setInt 8 v

/-- A page as `create_new_page_handle` initialises it. -/
def initPage (h : RmFileHdr) (x : PageData) : PageData :=
  Bitmap.init ((x.setNextFreePageNo rmNoPage).setNumRecords 0) h.bitmapSize

/-- The changes `insert_record` makes to a page. -/
def insertInto (h : RmFileHdr) (x : PageData) (slot : Nat) (buf : List UInt8) : PageData :=
  let x := Bitmap.set (setSlot h x slot buf) slot
  x.setNumRecords (x.numRecords + 1)

/-- The changes `delete_record` makes to a page that is not full. -/
def deleteFrom (x : PageData) (slot : Nat) : PageData :=
  Bitmap.reset (x.setNumRecords (x.numRecords - 1)) slot

section Layout

variable {h : RmFileHdr}

/-- A record beside the bytes that are written. -/
theorem getSlot_patch (x : PageData) {off n slot : Nat} (g : Nat → UInt8)
    (hd : off + n ≤ slotOffset h slot ∨ slotOffset h slot + h.recordSize ≤ off) :
    getSlot h (x.patch off n g) slot = getSlot h x slot := by
  refine List.map_congr_left fun i hi => ?_
  have hi' := List.mem_range.mp hi
  exact get_patch_outside x g (by omega)

/-- The slots lie behind the bitmap and in the page. -/
theorem slotOffset_bounds (hf : h.Fits) {s : Nat} (hs : s < h.numRecordsPerPage) :
    bitmapOffset + h.bitmapSize ≤ slotOffset h s ∧ slotOffset h s + h.recordSize ≤ pageSize := by
  have hmul : (s + 1) * h.recordSize ≤ h.numRecordsPerPage * h.recordSize :=
    Nat.mul_le_mul_right _ hs
  rw [Nat.add_mul, Nat.one_mul] at hmul
  have hp := hf.page
  simp only [slotOffset, bitmapOffset] at *
  omega

/-- The bit of a slot lies in the bitmap. -/
theorem bit_bounds (hf : h.Fits) {s : Nat} (hs : s < h.numRecordsPerPage) :
    s / 8 < h.bitmapSize ∧ bitmapOffset + s / 8 < pageSize := by
  have hb := hf.bits
  have hp := hf.page
  simp only [bitmapOffset] at *
  omega

/-- Two slots do not overlap. -/
theorem slot_disjoint {s t : Nat} (hst : t ≠ s) :
    slotOffset h s + h.recordSize ≤ slotOffset h t ∨
      slotOffset h t + h.recordSize ≤ slotOffset h s := by
  simp only [slotOffset]
  rcases Nat.lt_or_gt_of_ne hst with hlt | hlt
  · right
    have hmul : (t + 1) * h.recordSize ≤ s * h.recordSize := Nat.mul_le_mul_right _ hlt
    rw [Nat.add_mul, Nat.one_mul] at hmul
    omega
  · left
    have hmul : (s + 1) * h.recordSize ≤ t * h.recordSize := Nat.mul_le_mul_right _ hlt
    rw [Nat.add_mul, Nat.one_mul] at hmul
    omega

/-- A record has the size of the header. -/
theorem getSlot_length (x : PageData) (s : Nat) : (getSlot h x s).length = h.recordSize := by
  simp [getSlot]

/-- A slot holds the record copied to it, and the other slots keep theirs. -/
theorem getSlot_setSlot (hf : h.Fits) (x : PageData) {s : Nat} (hs : s < h.numRecordsPerPage)
    {buf : List UInt8} (hbuf : buf.length = h.recordSize) (t : Nat) :
    getSlot h (setSlot h x s buf) t = if t = s then buf else getSlot h x t := by
  by_cases hts : t = s
  · subst hts
    rw [if_pos rfl]
    refine List.ext_getElem (by rw [getSlot_length, hbuf]) fun i h1 h2 => ?_
    have hi : i < h.recordSize := by rwa [getSlot_length] at h1
    simp only [getSlot, List.getElem_map, List.getElem_range]
    rw [setSlot, get_patch_inside x _ (slotOffset_bounds hf hs).2 hi]
    simp [h2]
  · rw [if_neg hts, setSlot, getSlot_patch x _ (slot_disjoint hts)]

/-- What a page of the file says: the header, the bits and the records. -/
structure View (h : RmFileHdr) (x : PageData) (next num : Int) (bit : Nat → Bool)
    (recs : Nat → List UInt8) : Prop where
  next : x.nextFreePageNo = next
  num : x.numRecords = num
  bit : ∀ s < h.numRecordsPerPage, Bitmap.isSet x s = bit s
  record : ∀ s < h.numRecordsPerPage, getSlot h x s = recs s

section View

variable {x : PageData} {next num : Int} {bit : Nat → Bool} {recs : Nat → List UInt8}

/-- A write to the LSN or the page header leaves the bits and the records alone. -/
theorem View.patch_header (hf : h.Fits) (hv : View h x next num bit recs) {off n : Nat}
    (g : Nat → UInt8) (hn : off + n ≤ bitmapOffset) {next' num' : Int}
    (hnext : (x.patch off n g).nextFreePageNo = next') (hnum : (x.patch off n g).numRecords = num') :
    View h (x.patch off n g) next' num' bit recs where
  next := hnext
  num := hnum
  bit s hs := (Bitmap.isSet_patch x _ (Or.inl (by omega))).trans (hv.bit s hs)
  record s hs := by
    refine (getSlot_patch x _ (Or.inl ?_)).trans (hv.record s hs)
    have := (slotOffset_bounds hf hs).1
    omega

/-- The page LSN is in none of the fields that the records use. -/
theorem View.setPageLsn (hf : h.Fits) (hv : View h x next num bit recs) (lsn : Lsn) :
    View h (x.setPageLsn lsn) next num bit recs :=
  hv.patch_header hf _ (by decide) ((int_patch x _ (Or.inl (by decide))).trans hv.next)
    ((int_patch x _ (Or.inl (by decide))).trans hv.num)

/-- The number of records is set. -/
theorem View.setNumRecords (hf : h.Fits) (hv : View h x next num bit recs) {v : Int}
    (hr : Int32Range v) : View h (x.setNumRecords v) next v bit recs :=
  hv.patch_header hf _ (by decide) ((int_patch x _ (Or.inr (by decide))).trans hv.next)
    (int_setInt x (by decide) hr)

/-- The next free page is set. -/
theorem View.setNextFreePageNo (hf : h.Fits) (hv : View h x next num bit recs) {v : Int}
    (hr : Int32Range v) : View h (x.setNextFreePageNo v) v num bit recs :=
  hv.patch_header hf _ (by decide) (int_setInt x (by decide) hr)
    ((int_patch x _ (Or.inl (by decide))).trans hv.num)

/-- A write inside the bitmap reaches neither the header nor the slots. -/
theorem View.patch_bitmap (hf : h.Fits) (hv : View h x next num bit recs) {off n : Nat}
    (g : Nat → UInt8) (hoff : bitmapOffset ≤ off) (hn : off + n ≤ bitmapOffset + h.bitmapSize)
    {bit' : Nat → Bool}
    (hbit : ∀ s < h.numRecordsPerPage, Bitmap.isSet (x.patch off n g) s = bit' s) :
    View h (x.patch off n g) next num bit' recs where
  next := (int_patch x _ (Or.inr (by simp only [bitmapOffset] at hoff; omega))).trans hv.next
  num := (int_patch x _ (Or.inr (by simp only [bitmapOffset] at hoff; omega))).trans hv.num
  bit := hbit
  record s hs := by
    refine (getSlot_patch x _ (Or.inl ?_)).trans (hv.record s hs)
    have := (slotOffset_bounds hf hs).1
    omega

/-- A record is written into its slot. -/
theorem View.setSlot (hf : h.Fits) (hv : View h x next num bit recs) {s : Nat}
    (hs : s < h.numRecordsPerPage) {buf : List UInt8} (hbuf : buf.length = h.recordSize) :
    View h (setSlot h x s buf) next num bit (Function.update recs s buf) := by
  have hslot := slotOffset_bounds hf hs
  refine ⟨(int_patch x _ (Or.inr ?_)).trans hv.next, (int_patch x _ (Or.inr ?_)).trans hv.num,
    fun t ht => (Bitmap.isSet_patch x _ (Or.inr ?_)).trans (hv.bit t ht), fun t ht => ?_⟩
  · simp only [bitmapOffset] at hslot
    omega
  · simp only [bitmapOffset] at hslot
    omega
  · have := (bit_bounds hf ht).1
    omega
  · rw [getSlot_setSlot hf x hs hbuf, hv.record t ht, Function.update_apply]

/-- Every page has a view. -/
theorem view_self (h : RmFileHdr) (x : PageData) :
    View h x x.nextFreePageNo x.numRecords (Bitmap.isSet x) (getSlot h x) :=
  ⟨rfl, rfl, fun _ _ => rfl, fun _ _ => rfl⟩

/-- **A new page** is empty and last in the chain. -/
theorem initPage_spec (hf : h.Fits) (x : PageData) :
    ∃ recs, View h (initPage h x) rmNoPage 0 (fun _ => false) recs := by
  have h1 := View.setNextFreePageNo hf (view_self h x) (v := rmNoPage) ⟨by decide, by decide⟩
  have h2 := View.setNumRecords hf h1 (v := 0) ⟨by decide, by decide⟩
  refine ⟨getSlot h x, View.patch_bitmap hf h2 (fun _ => 0) (Nat.le_refl _) (Nat.le_refl _)
    fun s hs => ?_⟩
  refine Bitmap.isSet_init _ ?_ (bit_bounds hf hs).1
  have := hf.page
  simp only [bitmapOffset] at *
  omega

/-- **`insert_record`** on its page. -/
theorem insertInto_spec (hf : h.Fits) (hv : View h x next num bit recs) {s : Nat}
    (hs : s < h.numRecordsPerPage) {buf : List UInt8} (hbuf : buf.length = h.recordSize)
    (hr : Int32Range (num + 1)) :
    View h (insertInto h x s buf) next (num + 1) (Function.update bit s true)
      (Function.update recs s buf) := by
  have h1 := View.setSlot hf hv hs hbuf
  have hbit := bit_bounds hf hs
  have h2 : View h (Bitmap.set (PageData.setSlot h x s buf) s) next num
      (Function.update bit s true) (Function.update recs s buf) := by
    refine View.patch_bitmap hf h1 _ (Nat.le_add_right _ _) (by omega) fun t ht => ?_
    refine (Bitmap.isSet_set _ hbit.2 t).trans ?_
    rw [h1.bit t ht, Function.update_apply]
    by_cases hts : t = s <;> simp [hts]
  unfold insertInto
  dsimp only
  rw [h2.num]
  exact View.setNumRecords hf h2 hr

/-- **`delete_record`** on its page. -/
theorem deleteFrom_spec (hf : h.Fits) (hv : View h x next num bit recs) {s : Nat}
    (hs : s < h.numRecordsPerPage) (hr : Int32Range (num - 1)) :
    View h (deleteFrom x s) next (num - 1) (Function.update bit s false) recs := by
  unfold deleteFrom
  rw [hv.num]
  have h1 := View.setNumRecords hf hv hr
  have hbit := bit_bounds hf hs
  refine View.patch_bitmap hf h1 _ (Nat.le_add_right _ _) (by omega) fun t ht => ?_
  refine (Bitmap.isSet_reset _ hbit.2 t).trans ?_
  rw [h1.bit t ht, Function.update_apply]
  by_cases hts : t = s <;> simp [hts]

end View

end Layout

end PageData

end Rmdb
