import Rmdb.Lib.SlotArray
import Rmdb.Index.IxManager
import Rmdb.Index.IxIndexHandle

namespace Rmdb

open Lib DiskManager

/-!
# The bytes of a node (`index/ix_index_handle.h`, `index/ix_index_handle.cpp`)

A page of an index holds an `IxPageHdr`, the keys and the rids, two arrays of items of different sizes.
`insert_pairs` and `erase_pair` shift both of them within the page.

* `ByteMove` — a `memmove` or a `memcpy`;
* `NodeBytes.insertPairs`, `erasePair` — the two functions, with the list of their moves;
* `NodeBytes.node` — the node that the bytes stand for;
* `HdrLayout` — what `create_index` puts into the header;
* `KeyByte`, `RidByte` — the two areas of the page;
* `insertPairs_rewrites`, `erasePair_rewrites` — the pairs afterwards, and the bytes that are moved;
* `createIndex_nodeBytes` — the same for the header of any new index.
-/

/-- One `memmove` within a page, or one `memcpy` from some other place. -/
structure ByteMove where
  dst : Int
  /-- `none`: the page itself. -/
  src : Option RawMemory
  off : Int
  len : Nat

namespace ByteMove

def run (m : RawMemory) (mv : ByteMove) : RawMemory := m.copy mv.dst (mv.src.getD m) mv.off mv.len

/-- All bytes written, and all bytes of the page that are read, are of this kind. -/
def Within (P : Int → Prop) (mv : ByteMove) : Prop :=
  ∀ k : Nat, k < mv.len → P (mv.dst + k) ∧ (mv.src = none → P (mv.off + k))

/-- A move inside of a range of such bytes. -/
theorem within_range {P : Int → Prop} {lo hi dst off : Int} {src : Option RawMemory} {len : Nat}
    (hbyte : ∀ a, lo ≤ a → a < hi → P a) (hlo : lo ≤ dst) (hhi : dst + len ≤ hi)
    (hoff : src = none → lo ≤ off ∧ off + len ≤ hi) : Within P ⟨dst, src, off, len⟩ := by
  intro k hk
  dsimp only at hk ⊢
  refine ⟨hbyte _ (by omega) (by omega), fun hnone => ?_⟩
  obtain ⟨h1, h2⟩ := hoff hnone
  exact hbyte _ (by omega) (by omega)

/-- A move of no bytes touches nothing. -/
theorem within_of_len {P : Int → Prop} {mv : ByteMove} (hlen : mv.len = 0) : mv.Within P := fun k hk => by
  omega

end ByteMove

/-- An `int` as a `size_t`. -/
def sizeT (n : Int) : Nat := (n % 2 ^ 64).toNat

/-- A number below `2^64` is itself as a `size_t`. -/
theorem sizeT_natCast {n : Nat} (hn : n < 2 ^ 64) : sizeT n = n := by
  unfold sizeT
  omega

namespace NodeBytes

variable (h : IxFileHdr)

/-- `get_key`: addresses are counted from the start of the page. -/
def getKey (i : Int) : Int := ixPageHdrSize + i * h.colTotLen

/-- `get_rid`. -/
def getRid (i : Int) : Int := ixPageHdrSize + h.keysSize + i * 8

/-- `get_size`: the field `num_key`. -/
def getSize (m : RawMemory) : Int := int32At (fun i => m i) 8

/-- `set_size`. -/
def setSize (m : RawMemory) (size : Int) : RawMemory := m.write 8 ((List.range 4).map (int32Bytes size))

/-- The moves of `insert_pairs` that shift the keys and copy the new ones. -/
def insertKeyMoves (num pos : Int) (key : RawMemory) (n : Int) : List ByteMove :=
  [⟨getKey h pos + n * h.colTotLen, none, getKey h pos, sizeT (num * h.colTotLen)⟩,
    ⟨getKey h pos, some key, 0, sizeT (n * h.colTotLen)⟩]

/-- The moves of the rids. -/
def insertRidMoves (num pos : Int) (rid : RawMemory) (n : Int) : List ByteMove :=
  [⟨getRid h pos + n * 8, none, getRid h pos, sizeT (num * 8)⟩, ⟨getRid h pos, some rid, 0, sizeT (n * 8)⟩]

/-- `insert_pairs`: what it returns or throws, and the page afterwards. -/
def insertPairs (pos : Int) (key rid : RawMemory) (n : Int) (m : RawMemory) : Except IxError Unit × RawMemory :=
  let oldSize := getSize m
  if pos < 0 ∨ oldSize < pos then (.error (.rmdbError "insert_pairs pos wrong"), m)
  else
    let num := getSize m - pos
    let m₁ := (insertKeyMoves h num pos key n).foldl ByteMove.run m
    let m₂ := (insertRidMoves h num pos rid n).foldl ByteMove.run m₁
    (.ok (), setSize m₂ (getSize m₂ + n))

/-- The move of `erase_pair` that shifts the keys. -/
def eraseKeyMoves (num pos : Int) : List ByteMove :=
  [⟨getKey h pos, none, getKey h pos + h.colTotLen, sizeT (num * h.colTotLen)⟩]

/-- The move of the rids. -/
def eraseRidMoves (num pos : Int) : List ByteMove := [⟨getRid h pos, none, getRid h pos + 8, sizeT (num * 8)⟩]

/-- `erase_pair`. -/
def erasePair (pos : Int) (m : RawMemory) : Except IxError Unit × RawMemory :=
  let oldSize := getSize m
  let num := oldSize - 1 - pos
  if pos < 0 ∨ oldSize ≤ pos then (.error (.rmdbError "erase_pair pos wrong!"), m)
  else
    let m₁ := (eraseKeyMoves h num pos).foldl ByteMove.run m
    let m₂ := (eraseRidMoves h num pos).foldl ByteMove.run m₁
    (.ok (), setSize m₂ (oldSize - 1))

/-! ### What the bytes stand for -/

/-- A `Rid` of eight bytes. -/
def ridOf (l : List UInt8) : Rid := ⟨int32At (fun k => l.getD k 0) 0, int32At (fun k => l.getD k 0) 4⟩

/-- The node in a page. -/
def node (m : RawMemory) : IxNode (List UInt8) where
  parent := int32At (fun i => m i) 4
  numKey := (getSize m).toNat
  isLeaf := m 12 ≠ 0
  prevLeaf := int32At (fun i => m i) 16
  nextLeaf := int32At (fun i => m i) 20
  keys i := m.read (getKey h i) h.colTotLen.toNat
  rids i := ridOf (m.read (getRid h i) 8)

/-- The pairs in two buffers. -/
def block (key rid : RawMemory) (n : Nat) : List (List UInt8 × Rid) :=
  (List.range n).map fun i : Nat =>
    (key.read (i * h.colTotLen) h.colTotLen.toNat, ridOf (rid.read (i * 8) 8))

/-- The keys have the length that the header tells. -/
def KeysFit (es : List (List UInt8 × Rid)) : Prop := ∀ e ∈ es, (e.1.length : Int) = h.colTotLen

instance (es : List (List UInt8 × Rid)) : Decidable (KeysFit h es) := inferInstanceAs (Decidable (∀ e ∈ es, _))

/-- A byte of the page in the area of the keys. -/
def KeyByte (a : Int) : Prop := ixPageHdrSize ≤ a ∧ a < ixPageHdrSize + h.keysSize ∧ a < pageSize

/-- A byte of the page in the area of the rids, behind the keys. -/
def RidByte (a : Int) : Prop :=
  ixPageHdrSize ≤ a ∧ ixPageHdrSize + h.keysSize ≤ a ∧
    a < ixPageHdrSize + h.keysSize + (h.btreeOrder + 1) * 8 ∧ a < pageSize

/-- A page is rewritten so that its node has these pairs. -/
structure Rewrites (m m' : RawMemory) (keyMoves ridMoves : List ByteMove) (es : List (List UInt8 × Rid)) :
    Prop where
  size : getSize m' = es.length
  entries : (node h m').entries = es
  keyMoves : ∀ mv ∈ keyMoves, mv.Within (KeyByte h)
  ridMoves : ∀ mv ∈ ridMoves, mv.Within (RidByte h)
  frame : ∀ a, ¬ KeyByte h a → ¬ RidByte h a → a < 8 ∨ 12 ≤ a → m' a = m a

/-- The sizes in the header of a new index. -/
structure HdrLayout : Prop where
  keysSize : h.keysSize = (h.btreeOrder + 1) * h.colTotLen
  order : 0 ≤ h.btreeOrder
  room : (h.btreeOrder + 1) * (h.colTotLen + 8) ≤ 4072

/-! ### Reading the page -/

variable {h} {m m' : RawMemory} {w n cnt : Nat} {key rid : RawMemory}

/-- The key of a slot. -/
theorem node_key (hw : h.colTotLen = w) (i : Nat) : (node h m).keys i = m.slot ixPageHdrSize w i := by
  show m.read (getKey h i) h.colTotLen.toNat = m.read _ w
  unfold getKey
  rw [hw]
  rfl

/-- The page number or record number of a slot. -/
theorem node_rid (i : Nat) : (node h m).rids i = ridOf (m.slot (ixPageHdrSize + h.keysSize) 8 i) := rfl

/-- `num_key` after `set_size`. -/
theorem getSize_setSize (m : RawMemory) {v : Int} (hv : Int32Range v) : getSize (setSize m v) = v := by
  refine int32At_eq hv fun k hk => ?_
  have hlen : k < ((List.range 4).map (int32Bytes v)).length := by simpa using hk
  have hat := m.write_apply 8 _ hlen
  simpa [setSize] using hat

/-- `set_size` writes four bytes. -/
theorem setSize_apply (m : RawMemory) (v : Int) {a : Int} (ha : a < 8 ∨ 12 ≤ a) : setSize m v a = m a := by
  unfold setSize RawMemory.write
  rcases ha with ha | ha
  · exact if_neg (by omega)
  · rw [if_pos (by omega), List.getElem?_eq_none (by simp; omega), Option.getD_none]

/-- The number of pairs is read in the page header. -/
theorem getSize_congr (hm : ∀ a : Int, a < ixPageHdrSize → m' a = m a) : getSize m' = getSize m :=
  int32At_congr fun k hk => hm _ (by unfold ixPageHdrSize; omega)

/-- A node with pairs has keys of some length. -/
theorem KeysFit.exists_length {es : List (List UInt8 × Rid)} (hes : KeysFit h es) (hne : es ≠ []) :
    ∃ w : Nat, h.colTotLen = w := by
  obtain ⟨e, he⟩ := List.exists_mem_of_ne_nil es hne
  exact ⟨e.1.length, (hes e he).symm⟩

/-! ### The moves as operations on arrays -/

variable {pos : Nat}

/-- The product that the source computes as a `size_t`. -/
theorem sizeT_mul {x : Nat} {L : Int} (hL : L = w) (hx : x * w < 2 ^ 64) : sizeT (x * L) = x * w := by
  rw [hL, ← Nat.cast_mul]
  exact sizeT_natCast hx

/-- The address of a key. -/
theorem getKey_eq (hw : h.colTotLen = w) (i : Nat) : getKey h i = ixPageHdrSize + (i * w : Nat) := by
  unfold getKey
  rw [hw, Nat.cast_mul]

/-- The two moves of the keys insert a block of slots. -/
theorem insertKeyMoves_run (hw : h.colTotLen = w) (hroom : (n + cnt) * w < 2 ^ 64) :
    (insertKeyMoves h ((n - pos : Nat) : Int) pos key cnt).foldl ByteMove.run m =
      m.insertSlots ixPageHdrSize w n pos key cnt := by
  have hsum : (n + cnt) * w = n * w + cnt * w := Nat.add_mul ..
  have hle : (n - pos) * w ≤ n * w := Nat.mul_le_mul_right _ (Nat.sub_le ..)
  have hdst : getKey h pos + cnt * h.colTotLen = ixPageHdrSize + ((pos + cnt) * w : Nat) := by
    rw [getKey_eq hw, hw, Nat.add_mul, Nat.cast_add, Nat.cast_mul cnt w]
    omega
  unfold insertKeyMoves RawMemory.insertSlots
  rw [sizeT_mul hw (by omega), sizeT_mul hw (by omega), hdst, getKey_eq hw]
  simp [ByteMove.run]

/-- So do those of the record numbers. -/
theorem insertRidMoves_run (hroom : (n + cnt) * 8 < 2 ^ 64) :
    (insertRidMoves h ((n - pos : Nat) : Int) pos rid cnt).foldl ByteMove.run m =
      m.insertSlots (ixPageHdrSize + h.keysSize) 8 n pos rid cnt := by
  have hdst : getRid h pos + cnt * 8 = ixPageHdrSize + h.keysSize + ((pos + cnt) * 8 : Nat) := by
    unfold getRid
    push_cast
    omega
  unfold insertRidMoves RawMemory.insertSlots
  rw [sizeT_mul (L := 8) (w := 8) rfl (by omega), sizeT_mul (L := 8) (w := 8) rfl (by omega), hdst]
  simp [ByteMove.run, getRid]

/-- The move of the keys takes a slot out. -/
theorem eraseKeyMoves_run (hw : h.colTotLen = w) (hroom : n * w < 2 ^ 64) :
    (eraseKeyMoves h ((n - 1 - pos : Nat) : Int) pos).foldl ByteMove.run m =
      m.eraseSlot ixPageHdrSize w n pos := by
  have hle : (n - 1 - pos) * w ≤ n * w := Nat.mul_le_mul_right _ (by omega)
  have hsrc : getKey h pos + h.colTotLen = ixPageHdrSize + ((pos + 1) * w : Nat) := by
    rw [getKey_eq hw, hw, Nat.succ_mul]
    omega
  unfold eraseKeyMoves RawMemory.eraseSlot
  rw [sizeT_mul hw (by omega), hsrc, getKey_eq hw]
  simp [ByteMove.run]

/-- So does that of the record numbers. -/
theorem eraseRidMoves_run (hroom : n * 8 < 2 ^ 64) :
    (eraseRidMoves h ((n - 1 - pos : Nat) : Int) pos).foldl ByteMove.run m =
      m.eraseSlot (ixPageHdrSize + h.keysSize) 8 n pos := by
  have hsrc : getRid h pos + 8 = ixPageHdrSize + h.keysSize + ((pos + 1) * 8 : Nat) := by
    unfold getRid
    push_cast
    omega
  unfold eraseRidMoves RawMemory.eraseSlot
  rw [sizeT_mul (L := 8) (w := 8) rfl (by omega), hsrc]
  simp [ByteMove.run, getRid]

/-! ### The areas -/

/-- The number of places for pairs, and the size of both arrays. -/
theorem HdrLayout.exists_places (hl : HdrLayout h) (hw : h.colTotLen = w) :
    ∃ N : Nat, h.btreeOrder + 1 = N ∧ h.keysSize = (N * w : Nat) ∧ N * w + N * 8 ≤ 4072 := by
  have horder := hl.order
  have hroom := hl.room
  have hsize := hl.keysSize
  obtain ⟨N, hN⟩ := Int.eq_ofNat_of_zero_le (show 0 ≤ h.btreeOrder + 1 by omega)
  rw [hN, hw] at hroom hsize
  refine ⟨N, hN, ?_, ?_⟩
  · rw [hsize]
    push_cast
    rfl
  · rw [Int.mul_add] at hroom
    omega

/-- The first `i` keys lie in the area of the keys. -/
theorem HdrLayout.keyByte (hl : HdrLayout h) (hw : h.colTotLen = w) {i : Nat} (hi : (i : Int) ≤ h.btreeOrder + 1)
    {a : Int} (hlo : ixPageHdrSize ≤ a) (hhi : a < ixPageHdrSize + (i * w : Nat)) : KeyByte h a := by
  obtain ⟨N, hN, hsize, hroom⟩ := hl.exists_places hw
  have hle : i * w ≤ N * w := Nat.mul_le_mul_right _ (by omega)
  unfold KeyByte ixPageHdrSize pageSize at *
  omega

/-- The first `i` rids lie in the area of the rids. -/
theorem HdrLayout.ridByte (hl : HdrLayout h) (hw : h.colTotLen = w) {i : Nat} (hi : (i : Int) ≤ h.btreeOrder + 1)
    {a : Int} (hlo : ixPageHdrSize + h.keysSize ≤ a) (hhi : a < ixPageHdrSize + h.keysSize + (i * 8 : Nat)) :
    RidByte h a := by
  obtain ⟨N, hN, hsize, hroom⟩ := hl.exists_places hw
  unfold RidByte ixPageHdrSize pageSize at *
  omega

/-! ### The pairs afterwards -/

/-- First only keys are written, then only rids, both of the first `k` pairs. -/
structure TwoWrites (h : IxFileHdr) (w k : Nat) (m m₁ m₂ : RawMemory) : Prop where
  room : (k : Int) ≤ h.btreeOrder + 1
  keys : ∀ a : Int, a < ixPageHdrSize ∨ ixPageHdrSize + (k * w : Nat) ≤ a → m₁ a = m a
  rids : ∀ a : Int, a < ixPageHdrSize + h.keysSize ∨ ixPageHdrSize + h.keysSize + (k * 8 : Nat) ≤ a → m₂ a = m₁ a

namespace TwoWrites

variable {k i : Nat} {m₁ m₂ : RawMemory}

/-- The header of the page stays. -/
theorem hdr (ht : TwoWrites h w k m m₁ m₂) (hl : HdrLayout h) (hw : h.colTotLen = w) :
    ∀ a : Int, a < ixPageHdrSize → m₂ a = m a := fun a ha => by
  obtain ⟨N, hN, hks, -⟩ := hl.exists_places hw
  rw [ht.rids a (Or.inl (by omega)), ht.keys a (Or.inl ha)]

/-- The rids are written behind the keys. -/
theorem key_slot (ht : TwoWrites h w k m m₁ m₂) (hl : HdrLayout h) (hw : h.colTotLen = w) (hi : i < k) :
    m₂.slot ixPageHdrSize w i = m₁.slot ixPageHdrSize w i := by
  obtain ⟨N, hN, hks, -⟩ := hl.exists_places hw
  have hroom := ht.room
  refine RawMemory.slot_congr (n := N) (fun a _ ha => ht.rids a (Or.inl ?_)) (by omega)
  rw [hks]
  exact ha

/-- The keys are written before the rids. -/
theorem rid_slot (ht : TwoWrites h w k m m₁ m₂) (hl : HdrLayout h) (hw : h.colTotLen = w) (i : Nat) :
    m₁.slot (ixPageHdrSize + h.keysSize) 8 i = m.slot (ixPageHdrSize + h.keysSize) 8 i := by
  obtain ⟨N, hN, hks, -⟩ := hl.exists_places hw
  have hroom := ht.room
  have hle : k * w ≤ N * w := Nat.mul_le_mul_right _ (by omega)
  exact RawMemory.slot_congr (n := i + 1) (fun a ha _ => ht.keys a (Or.inr (by omega))) (Nat.lt_succ_self i)

/-- Nothing is written but keys and rids. -/
theorem frame (ht : TwoWrites h w k m m₁ m₂) (hl : HdrLayout h) (hw : h.colTotLen = w) {a : Int}
    (hkey : ¬ KeyByte h a) (hrid : ¬ RidByte h a) : m₂ a = m a := by
  rw [ht.rids a, ht.keys a]
  · by_contra hne
    exact hkey (hl.keyByte hw ht.room (by omega) (by omega))
  · by_contra hne
    exact hrid (hl.ridByte hw ht.room (by omega) (by omega))

/-- **The pairs in the page** are those of `x`, if its keys and rids are in the two arrays. -/
theorem entries (ht : TwoWrites h w k m m₁ m₂) (hl : HdrLayout h) (hw : h.colTotLen = w)
    (x : IxNode (List UInt8)) (hx : x.numKey ≤ k)
    (hkeys : ∀ i < x.numKey, m₁.slot ixPageHdrSize w i = x.keys i)
    (hrids : ∀ i < x.numKey, ridOf (m₂.slot (ixPageHdrSize + h.keysSize) 8 i) = x.rids i) :
    getSize (setSize m₂ x.numKey) = x.numKey ∧ (node h (setSize m₂ x.numKey)).entries = x.entries := by
  obtain ⟨N, hN, -, hfit⟩ := hl.exists_places hw
  have hroom := ht.room
  have hsize : getSize (setSize m₂ x.numKey) = x.numKey := getSize_setSize m₂ ⟨by omega, by omega⟩
  have hbehind : ∀ a : Int, ixPageHdrSize ≤ a → setSize m₂ x.numKey a = m₂ a := fun a ha =>
    setSize_apply m₂ _ (Or.inr (by unfold ixPageHdrSize at ha; omega))
  refine ⟨hsize, IxNode.entries_congr ?_ fun i hi => ⟨?_, ?_⟩⟩
  · show (getSize (setSize m₂ x.numKey)).toNat = _
    rw [hsize]
    rfl
  · rw [node_key hw, ← hkeys i hi, ← ht.key_slot hl hw (by omega)]
    exact RawMemory.slot_congr (fun a ha _ => hbehind a ha) hi
  · obtain ⟨_, -, hks, -⟩ := hl.exists_places hw
    rw [node_rid, ← hrids i hi]
    exact congrArg ridOf (RawMemory.slot_congr (fun a ha _ => hbehind a (by omega)) hi)

end TwoWrites

/-- The number of pairs. -/
theorem numKey_node (hsize : getSize m = n) : (node h m).numKey = n := by
  show (getSize m).toNat = n
  rw [hsize]
  rfl

/-- The two writes of `insert_pairs`. -/
theorem insertPairs_writes (key rid : RawMemory) (hl : HdrLayout h) (hw : h.colTotLen = w)
    (hsize : getSize m = n) (hpos : pos ≤ n) (hroom : ((n + cnt : Nat) : Int) ≤ h.btreeOrder + 1) : ∃ m₁ m₂,
      m₁ = m.insertSlots ixPageHdrSize w n pos key cnt ∧
      m₂ = m₁.insertSlots (ixPageHdrSize + h.keysSize) 8 n pos rid cnt ∧ TwoWrites h w (n + cnt) m m₁ m₂ ∧
      insertPairs h pos key rid cnt m = (.ok (), setSize m₂ ((n + cnt : Nat) : Int)) := by
  obtain ⟨N, hN, -, hfit⟩ := hl.exists_places hw
  have hle : (n + cnt) * w ≤ N * w := Nat.mul_le_mul_right _ (by omega)
  have ht : TwoWrites h w (n + cnt) m (m.insertSlots ixPageHdrSize w n pos key cnt)
      ((m.insertSlots ixPageHdrSize w n pos key cnt).insertSlots (ixPageHdrSize + h.keysSize) 8 n pos rid cnt) :=
    ⟨hroom, fun a ha => RawMemory.insertSlots_apply hpos ha, fun a ha => RawMemory.insertSlots_apply hpos ha⟩
  refine ⟨_, _, rfl, rfl, ht, ?_⟩
  have hnum : (n : Int) - pos = ((n - pos : Nat) : Int) := by omega
  unfold insertPairs
  rw [hsize, if_neg (by omega)]
  dsimp only
  -- `set_size` reads `num_key` again, after the moves
  rw [hnum, insertKeyMoves_run hw (by omega), insertRidMoves_run (by omega), getSize_congr (ht.hdr hl hw), hsize]
  rfl

/-- The pairs that are inserted. -/
theorem block_eq (hw : h.colTotLen = w) : block h key rid cnt =
    (List.range cnt).map fun i => (key.slot 0 w i, ridOf (rid.slot 0 8 i)) := by
  unfold block
  refine List.map_congr_left fun i _ => ?_
  have hkey : key.slot 0 w i = key.read (i * w) w := by
    unfold RawMemory.slot
    rw [Int.zero_add, Nat.cast_mul]
  have hrid : rid.slot 0 8 i = rid.read (i * 8) 8 := by
    unfold RawMemory.slot
    rw [Int.zero_add, Nat.cast_mul]
    rfl
  rw [hkey, hrid, hw]
  rfl

/-- **The pairs after `insert_pairs`.** -/
theorem entries_insertPairs (key rid : RawMemory) (hl : HdrLayout h) (hw : h.colTotLen = w)
    (hsize : getSize m = n) (hpos : pos ≤ n) (hroom : ((n + cnt : Nat) : Int) ≤ h.btreeOrder + 1) : ∃ m',
      insertPairs h pos key rid cnt m = (.ok (), m') ∧ getSize m' = ((n + cnt : Nat) : Int) ∧
      (node h m').entries = (node h m).entries.take pos ++ block h key rid cnt ++ (node h m).entries.drop pos ∧
      ∀ a, ¬ KeyByte h a → ¬ RidByte h a → a < 8 ∨ 12 ≤ a → m' a = m a := by
  obtain ⟨m₁, m₂, hm₁, hm₂, ht, hrun⟩ := insertPairs_writes key rid hl hw hsize hpos hroom
  have hnode : (node h m).numKey = n := numKey_node hsize
  have hentries := (node h m).entries_insertPairs (hnode.symm ▸ hpos) (fun i => key.slot 0 w i)
    (fun i => ridOf (rid.slot 0 8 i)) cnt
  rw [← block_eq hw] at hentries
  -- the page is to stand for `x`, what `insert_pairs` makes of the node as a value
  generalize hx : (node h m).insertPairs pos (fun i => key.slot 0 w i) (fun i => ridOf (rid.slot 0 8 i)) cnt = x
    at hentries
  have hnum : x.numKey = n + cnt := by
    rw [← hx]
    exact congrArg (· + cnt) hnode
  have hkeys : ∀ i < x.numKey, m₁.slot ixPageHdrSize w i = x.keys i := fun i _ => by
    rw [hm₁, RawMemory.slot_insertSlots hpos, ← hx]
    unfold IxNode.insertPairs
    rw [hnode]
    simp only [node_key hw]
  have hrids : ∀ i < x.numKey, ridOf (m₂.slot (ixPageHdrSize + h.keysSize) 8 i) = x.rids i := fun i _ => by
    rw [hm₂, RawMemory.slot_insertSlots hpos, ← hx]
    unfold IxNode.insertPairs
    rw [hnode]
    simp only [node_rid, ht.rid_slot hl hw]
    split_ifs <;> rfl
  obtain ⟨hsize', hpairs⟩ := ht.entries hl hw x (Nat.le_of_eq hnum) hkeys hrids
  rw [hnum] at hsize' hpairs
  refine ⟨_, hrun, hsize', hpairs.trans hentries, fun a hkey hrid ha => ?_⟩
  rw [setSize_apply m₂ _ ha]
  exact ht.frame hl hw hkey hrid

/-- The two writes of `erase_pair`. -/
theorem erasePair_writes (hl : HdrLayout h) (hw : h.colTotLen = w) (hsize : getSize m = n) (hpos : pos < n)
    (hroom : (n : Int) ≤ h.btreeOrder + 1) : ∃ m₁ m₂,
      m₁ = m.eraseSlot ixPageHdrSize w n pos ∧ m₂ = m₁.eraseSlot (ixPageHdrSize + h.keysSize) 8 n pos ∧
      TwoWrites h w n m m₁ m₂ ∧ erasePair h pos m = (.ok (), setSize m₂ ((n - 1 : Nat) : Int)) := by
  obtain ⟨N, hN, -, hfit⟩ := hl.exists_places hw
  have hle : n * w ≤ N * w := Nat.mul_le_mul_right _ (by omega)
  have ht : TwoWrites h w n m _ _ := ⟨hroom, fun a ha => RawMemory.eraseSlot_apply hpos ha,
    fun a ha => RawMemory.eraseSlot_apply hpos ha⟩
  refine ⟨_, _, rfl, rfl, ht, ?_⟩
  have hnum : (n : Int) - 1 - pos = ((n - 1 - pos : Nat) : Int) := by omega
  have hlast : (n : Int) - 1 = ((n - 1 : Nat) : Int) := by omega
  unfold erasePair
  rw [hsize]
  dsimp only
  rw [if_neg (by omega), hnum, hlast, eraseKeyMoves_run hw (by omega), eraseRidMoves_run (by omega)]

/-- **The pairs after `erase_pair`.** -/
theorem entries_erasePair (hl : HdrLayout h) (hw : h.colTotLen = w) (hsize : getSize m = n) (hpos : pos < n)
    (hroom : (n : Int) ≤ h.btreeOrder + 1) : ∃ m',
      erasePair h pos m = (.ok (), m') ∧ getSize m' = ((n - 1 : Nat) : Int) ∧
      (node h m').entries = (node h m).entries.take pos ++ (node h m).entries.drop (pos + 1) ∧
      ∀ a, ¬ KeyByte h a → ¬ RidByte h a → a < 8 ∨ 12 ≤ a → m' a = m a := by
  obtain ⟨m₁, m₂, hm₁, hm₂, ht, hrun⟩ := erasePair_writes hl hw hsize hpos hroom
  have hnode : (node h m).numKey = n := numKey_node hsize
  have hentries := (node h m).entries_shiftDown (hnode.symm ▸ hpos)
  generalize hx : (node h m).shiftDown pos = x at hentries
  have hnum : x.numKey = n - 1 := by
    rw [← hx]
    exact congrArg (· - 1) hnode
  have hkeys : ∀ i < x.numKey, m₁.slot ixPageHdrSize w i = x.keys i := fun i _ => by
    rw [hm₁, RawMemory.slot_eraseSlot, ← hx]
    unfold IxNode.shiftDown
    rw [hnode]
    simp only [node_key hw]
  have hrids : ∀ i < x.numKey, ridOf (m₂.slot (ixPageHdrSize + h.keysSize) 8 i) = x.rids i := fun i _ => by
    rw [hm₂, RawMemory.slot_eraseSlot, ← hx]
    unfold IxNode.shiftDown
    rw [hnode]
    simp only [node_rid, ht.rid_slot hl hw]
    split_ifs <;> rfl
  obtain ⟨hsize', hpairs⟩ := ht.entries hl hw x (by omega) hkeys hrids
  rw [hnum] at hsize' hpairs
  refine ⟨_, hrun, hsize', hpairs.trans hentries, fun a hkey hrid ha => ?_⟩
  rw [setSize_apply m₂ _ ha]
  exact ht.frame hl hw hkey hrid

/-! ### The bytes that are moved -/

/-- An insertion of keys stays in the area of the keys. -/
theorem insertKeyMoves_within (hl : HdrLayout h) (hw : h.colTotLen = w) (hpos : pos ≤ n)
    (hroom : ((n + cnt : Nat) : Int) ≤ h.btreeOrder + 1) :
    ∀ mv ∈ insertKeyMoves h ((n - pos : Nat) : Int) pos key cnt, mv.Within (KeyByte h) := by
  obtain ⟨N, hN, -, hfit⟩ := hl.exists_places hw
  have hle : (n + cnt) * w ≤ N * w := Nat.mul_le_mul_right _ (by omega)
  -- the move ends where the last key will end
  have hsum : (n + cnt) * w = (n - pos) * w + pos * w + cnt * w := by
    rw [← Nat.add_mul, ← Nat.add_mul, Nat.sub_add_cancel hpos]
  have hcnt : cnt * h.colTotLen = (cnt * w : Nat) := by rw [hw, Nat.cast_mul]
  have hbyte : ∀ a : Int, ixPageHdrSize ≤ a → a < ixPageHdrSize + ((n + cnt) * w : Nat) → KeyByte h a :=
    fun a => hl.keyByte hw hroom
  unfold insertKeyMoves
  rw [sizeT_mul hw (by omega), sizeT_mul hw (by omega), hcnt, getKey_eq hw]
  simp only [List.forall_mem_cons]
  refine ⟨ByteMove.within_range hbyte ?_ ?_ fun _ => ⟨?_, ?_⟩, ByteMove.within_range hbyte ?_ ?_ nofun, by simp⟩
  all_goals omega

/-- An insertion of record numbers stays in theirs. -/
theorem insertRidMoves_within (hl : HdrLayout h) (hw : h.colTotLen = w) (hpos : pos ≤ n)
    (hroom : ((n + cnt : Nat) : Int) ≤ h.btreeOrder + 1) :
    ∀ mv ∈ insertRidMoves h ((n - pos : Nat) : Int) pos rid cnt, mv.Within (RidByte h) := by
  obtain ⟨N, hN, -, hfit⟩ := hl.exists_places hw
  have hbyte : ∀ a : Int, ixPageHdrSize + h.keysSize ≤ a →
      a < ixPageHdrSize + h.keysSize + ((n + cnt) * 8 : Nat) → RidByte h a := fun a => hl.ridByte hw hroom
  unfold insertRidMoves getRid
  rw [sizeT_mul (L := 8) (w := 8) rfl (by omega), sizeT_mul (L := 8) (w := 8) rfl (by omega)]
  simp only [List.forall_mem_cons]
  refine ⟨ByteMove.within_range hbyte ?_ ?_ fun _ => ⟨?_, ?_⟩, ByteMove.within_range hbyte ?_ ?_ nofun, by simp⟩
  all_goals omega

/-- An erasure of a key stays in the area of the keys. -/
theorem eraseKeyMoves_within (hl : HdrLayout h) (hw : h.colTotLen = w) (hpos : pos < n)
    (hroom : (n : Int) ≤ h.btreeOrder + 1) :
    ∀ mv ∈ eraseKeyMoves h ((n - 1 - pos : Nat) : Int) pos, mv.Within (KeyByte h) := by
  obtain ⟨N, hN, -, hfit⟩ := hl.exists_places hw
  have hle : n * w ≤ N * w := Nat.mul_le_mul_right _ (by omega)
  have hsum : n * w = (n - 1 - pos) * w + pos * w + w := by
    rw [← Nat.add_mul, ← Nat.succ_mul]
    congr 1
    omega
  have hbyte : ∀ a : Int, ixPageHdrSize ≤ a → a < ixPageHdrSize + (n * w : Nat) → KeyByte h a :=
    fun a => hl.keyByte hw hroom
  unfold eraseKeyMoves
  rw [sizeT_mul hw (by omega), getKey_eq hw, hw]
  simp only [List.forall_mem_cons]
  refine ⟨ByteMove.within_range hbyte ?_ ?_ fun _ => ⟨?_, ?_⟩, by simp⟩
  all_goals omega

/-- An erasure of a record number stays in theirs. -/
theorem eraseRidMoves_within (hl : HdrLayout h) (hw : h.colTotLen = w) (hpos : pos < n)
    (hroom : (n : Int) ≤ h.btreeOrder + 1) :
    ∀ mv ∈ eraseRidMoves h ((n - 1 - pos : Nat) : Int) pos, mv.Within (RidByte h) := by
  obtain ⟨N, hN, -, hfit⟩ := hl.exists_places hw
  have hbyte : ∀ a : Int, ixPageHdrSize + h.keysSize ≤ a →
      a < ixPageHdrSize + h.keysSize + (n * 8 : Nat) → RidByte h a := fun a => hl.ridByte hw hroom
  unfold eraseRidMoves getRid
  rw [sizeT_mul (L := 8) (w := 8) rfl (by omega)]
  simp only [List.forall_mem_cons]
  refine ⟨ByteMove.within_range hbyte ?_ ?_ fun _ => ⟨?_, ?_⟩, by simp⟩
  all_goals omega

/-! ### Both functions -/

/-- `insert_pairs` of no pairs into a node without pairs. -/
theorem insertPairs_nothing (h : IxFileHdr) (key rid : RawMemory) (hsize : getSize m = 0) :
    insertPairs h 0 key rid 0 m = (.ok (), setSize m 0) ∧ (∀ mv ∈ insertKeyMoves h 0 0 key 0, mv.len = 0) ∧
      ∀ mv ∈ insertRidMoves h 0 0 rid 0, mv.len = 0 := by
  have hzero : sizeT 0 = 0 := rfl
  refine ⟨?_, ?_, ?_⟩
  · unfold insertPairs insertKeyMoves insertRidMoves
    simp [hsize, hzero, ByteMove.run]
  · unfold insertKeyMoves
    simp [hzero]
  · unfold insertRidMoves
    simp [hzero]

/-- **`insert_pairs` rewrites the page.** -/
theorem insertPairs_rewrites (hl : HdrLayout h) (hsize : getSize m = n) (hpos : pos ≤ n)
    (hroom : ((n + cnt : Nat) : Int) ≤ h.btreeOrder + 1) (hold : KeysFit h (node h m).entries)
    (hnew : KeysFit h (block h key rid cnt)) :
    ∃ m', insertPairs h pos key rid cnt m = (.ok (), m') ∧
      Rewrites h m m' (insertKeyMoves h (n - pos) pos key cnt) (insertRidMoves h (n - pos) pos rid cnt)
        ((node h m).entries.take pos ++ block h key rid cnt ++ (node h m).entries.drop pos) := by
  have hnode : (node h m).entries.length = n := by rw [IxNode.length_entries, numKey_node hsize]
  have hblock : (block h key rid cnt).length = cnt := by simp [block]
  have hlen : ((node h m).entries.take pos ++ block h key rid cnt ++ (node h m).entries.drop pos).length =
      n + cnt := by
    simp only [List.length_append, List.length_take, List.length_drop, hnode, hblock]
    omega
  have hnum : (n : Int) - pos = ((n - pos : Nat) : Int) := by omega
  rw [hnum]
  by_cases hzero : n + cnt = 0
  · -- the keys may have no length then
    obtain ⟨rfl, rfl⟩ : n = 0 ∧ cnt = 0 := by omega
    obtain rfl : pos = 0 := by omega
    obtain ⟨hrun, hkeys, hrids⟩ := insertPairs_nothing h key rid hsize
    have hsize' : getSize (setSize m 0) = 0 := getSize_setSize m ⟨by decide, by decide⟩
    refine ⟨setSize m 0, hrun, ?_, ?_, fun mv hmv => ByteMove.within_of_len (hkeys mv hmv),
      fun mv hmv => ByteMove.within_of_len (hrids mv hmv), fun a _ _ ha => setSize_apply m 0 ha⟩
    · rw [hlen, hsize']
      rfl
    · have hnil : (node h (setSize m 0)).entries = [] :=
        List.eq_nil_of_length_eq_zero (by rw [IxNode.length_entries, numKey_node (n := 0) hsize'])
      rw [hnil, List.eq_nil_of_length_eq_zero hlen]
  · -- a pair, old or new, has the key whose length the header tells
    obtain ⟨w, hw⟩ : ∃ w : Nat, h.colTotLen = w := by
      by_cases hn : n = 0
      · exact hnew.exists_length (List.ne_nil_of_length_pos (by omega))
      · exact hold.exists_length (List.ne_nil_of_length_pos (by omega))
    obtain ⟨m', hrun, hsize', hentries, hframe⟩ := entries_insertPairs key rid hl hw hsize hpos hroom
    refine ⟨m', hrun, ?_, hentries, insertKeyMoves_within hl hw hpos hroom, insertRidMoves_within hl hw hpos hroom,
      hframe⟩
    rw [hlen, hsize']

/-- **`erase_pair` rewrites the page.** -/
theorem erasePair_rewrites (hl : HdrLayout h) (hsize : getSize m = n) (hpos : pos < n)
    (hroom : (n : Int) ≤ h.btreeOrder + 1) (hold : KeysFit h (node h m).entries) :
    ∃ m', erasePair h pos m = (.ok (), m') ∧
      Rewrites h m m' (eraseKeyMoves h (n - 1 - pos) pos) (eraseRidMoves h (n - 1 - pos) pos)
        ((node h m).entries.take pos ++ (node h m).entries.drop (pos + 1)) := by
  have hnode : (node h m).entries.length = n := by rw [IxNode.length_entries, numKey_node hsize]
  have hnum : (n : Int) - 1 - pos = ((n - 1 - pos : Nat) : Int) := by omega
  obtain ⟨w, hw⟩ := hold.exists_length (List.ne_nil_of_length_pos (by omega))
  obtain ⟨m', hrun, hsize', hentries, hframe⟩ := entries_erasePair hl hw hsize hpos hroom
  rw [hnum]
  refine ⟨m', hrun, ?_, hentries, eraseKeyMoves_within hl hw hpos hroom, eraseRidMoves_within hl hw hpos hroom,
    hframe⟩
  rw [hsize', List.length_append, List.length_take, List.length_drop, hnode]
  omega

/-- **Other positions throw**, and leave the page as it is. -/
theorem insertPairs_out {pos : Int} (hsize : getSize m = n) (hpos : pos < 0 ∨ n < pos) (num : Int) :
    insertPairs h pos key rid num m = (.error (.rmdbError "insert_pairs pos wrong"), m) := by
  unfold insertPairs
  rw [hsize]
  exact if_pos hpos

/-- `erase_pair` refuses a position that is not there. -/
theorem erasePair_out {pos : Int} (hsize : getSize m = n) (hpos : pos < 0 ∨ n ≤ pos) :
    erasePair h pos m = (.error (.rmdbError "erase_pair pos wrong!"), m) := by
  unfold erasePair
  rw [hsize]
  exact if_pos hpos

/-! ### The header of a new index -/

section Created

variable {tab : String} {cols : List Catalog.Col} {d d' : DiskManager} {order : Int}

/-- **A new header** has room for one pair more than its order. -/
theorem layout_newHdr (hc : IxManager.createIndex tab cols d = (.ok (), d'))
    (horder : IxManager.btreeOrder (Catalog.wrap (Catalog.totLen cols)) = some order) :
    HdrLayout (IxManager.newHdr cols order) := by
  obtain ⟨order', horder', hgt, -, -⟩ := IxManager.createIndex_spec hc
  obtain rfl : order = order' := Option.some.inj (horder.symm.trans horder')
  generalize htot : Catalog.wrap (Catalog.totLen cols) = total at horder
  have hint := Catalog.isInt_wrap (Catalog.totLen cols)
  rw [htot] at hint
  unfold Catalog.IsInt at hint
  unfold IxManager.btreeOrder at horder
  obtain ⟨hne, heq⟩ := Option.ite_none_left_eq_some.mp horder
  have heq := Option.some.inj heq
  -- a negative sum would be a divisor near 2 ^ 64, and no order at all
  have hsmall : (total + 8) % 2 ^ 64 ≤ 1018 := by
    by_contra hbig
    have hlt : 4072 / ((total + 8) % 2 ^ 64) < 4 := Int.ediv_lt_of_lt_mul (by omega) (by omega)
    omega
  have hdiv : (total + 8) % 2 ^ 64 = total + 8 := by omega
  rw [hdiv] at heq hne
  have hroom : (order + 1) * (total + 8) ≤ 4072 := by
    have hmul := Int.ediv_mul_le 4072 (show total + 8 ≠ 0 from hne)
    have hplus : order + 1 = 4072 / (total + 8) := by omega
    rw [hplus]
    exact hmul
  have hrange := IxManager.btreeOrder_range (htot ▸ horder')
  refine ⟨?_, ?_, ?_⟩
  · show Catalog.wrap ((order + 1) * Catalog.wrap (Catalog.totLen cols)) =
      (order + 1) * Catalog.wrap (Catalog.totLen cols)
    rw [htot]
    have hlow : (order + 1) * -8 ≤ (order + 1) * total := Int.mul_le_mul_of_nonneg_left (by omega) (by omega)
    rw [Int.mul_add] at hroom
    exact Catalog.wrap_eq_iff.mpr ⟨by omega, by omega⟩
  · show 0 ≤ order
    omega
  · show (order + 1) * (Catalog.wrap (Catalog.totLen cols) + 8) ≤ 4072
    rw [htot]
    exact hroom

/-- **The two functions on a node of a new index.**  `n` pairs are in the node, with keys of the length that
    the header tells; as many pairs more as there is room for are in two buffers.  Keys are moved among the
    bytes of the keys, rids among those of the rids, and these bytes of the page are different ones. -/
theorem createIndex_nodeBytes (hc : IxManager.createIndex tab cols d = (.ok (), d'))
    (horder : IxManager.btreeOrder (Catalog.wrap (Catalog.totLen cols)) = some order) {m : RawMemory} {n : Nat}
    (hsize : getSize m = n)
    (hold : KeysFit (IxManager.newHdr cols order) (node (IxManager.newHdr cols order) m).entries) :
    let h := IxManager.newHdr cols order
    let es := (node h m).entries
    (∀ (pos cnt : Nat) (key rid : RawMemory), pos ≤ n → ((n + cnt : Nat) : Int) ≤ order + 1 →
      KeysFit h (block h key rid cnt) → ∃ m', insertPairs h pos key rid cnt m = (.ok (), m') ∧
        Rewrites h m m' (insertKeyMoves h (n - pos) pos key cnt) (insertRidMoves h (n - pos) pos rid cnt)
          (es.take pos ++ block h key rid cnt ++ es.drop pos)) ∧
    (∀ pos : Nat, pos < n → (n : Int) ≤ order + 1 → ∃ m', erasePair h pos m = (.ok (), m') ∧
      Rewrites h m m' (eraseKeyMoves h (n - 1 - pos) pos) (eraseRidMoves h (n - 1 - pos) pos)
        (es.take pos ++ es.drop (pos + 1))) ∧
    (∀ (pos cnt : Int) (key rid : RawMemory), pos < 0 ∨ n < pos →
      insertPairs h pos key rid cnt m = (.error (.rmdbError "insert_pairs pos wrong"), m)) ∧
    (∀ pos : Int, pos < 0 ∨ n ≤ pos → erasePair h pos m = (.error (.rmdbError "erase_pair pos wrong!"), m)) ∧
    ∀ a, ¬ (KeyByte h a ∧ RidByte h a) := by
  have hl := layout_newHdr hc horder
  refine ⟨fun pos cnt key rid hpos hroom hnew => insertPairs_rewrites hl hsize hpos hroom hold hnew,
    fun pos hpos hroom => erasePair_rewrites hl hsize hpos hroom hold,
    fun pos cnt key rid hpos => insertPairs_out hsize hpos cnt, fun pos hpos => erasePair_out hsize hpos,
    fun a => ?_⟩
  rintro ⟨⟨-, hkey, -⟩, ⟨-, hrid, -⟩⟩
  omega

/-- A pair comes into the empty root of an index on an INT column. -/
theorem createIndex_nodeBytes_int : ∃ d',
    IxManager.createIndex "t" [⟨"t", "a", .int, 4, 0, true⟩] IxManager.noFiles = (.ok (), d') ∧
    ∃ m', insertPairs (IxManager.newHdr [⟨"t", "a", .int, 4, 0, true⟩] 338) 0 (fun _ => 7) (fun _ => 1) 1
      (fun _ => 0) = (.ok (), m') ∧
      (node (IxManager.newHdr [⟨"t", "a", .int, 4, 0, true⟩] 338) m').entries =
        [([7, 7, 7, 7], ⟨16843009, 16843009⟩)] := by
  obtain ⟨d', hc⟩ : ∃ d',
      IxManager.createIndex "t" [⟨"t", "a", .int, 4, 0, true⟩] IxManager.noFiles = (.ok (), d') :=
    IxManager.createIndex_ok rfl rfl (by decide) (by decide) (by decide)
  have horder : IxManager.btreeOrder (Catalog.wrap (Catalog.totLen [⟨"t", "a", .int, 4, 0, true⟩])) = some 338 := by
    decide
  obtain ⟨hinsert, -⟩ := createIndex_nodeBytes hc horder (m := fun _ => 0) (n := 0) rfl (by decide)
  obtain ⟨m', hrun, hpage⟩ := hinsert 0 1 (fun _ => 7) (fun _ => 1) (Nat.le_refl 0) (by decide) (by decide)
  exact ⟨d', hc, m', hrun, hpage.entries.trans (by decide)⟩

end Created

end NodeBytes

end Rmdb
