import Rmdb.Index.IxCompare
import Rmdb.Index.IxNodeHandle

namespace Rmdb

open Lib Std

/-!
# Inserting into a node

`IxNodeHandle::insert` compares the key with the slot that `lower_bound` returns.  If all keys of the
node are lower, this is the slot behind the last one, which holds whatever was written there before.

* `IxNode.Inserts` — what `insert` is for: a new key goes to its place, a key of the node changes
  nothing;
* `IxNode.StaleHit` — the slot behind the last one holds the key;
* `IxNode.Reinserts` — a pair that was erased is inserted and found again;
* `insert_correct_iff` — when they hold.

The slots in use hold keys without NaN; the others hold any bytes.
-/

variable {cols : List IxCol}

/-- The bytes of a key. -/
def IxKey.raw (k : IxKey cols) : RawKey cols := ⟨k.bytes⟩

/-- Keys are compared by their bytes. -/
theorem IxKey.compare_raw (a b : IxKey cols) : compare a.raw b.raw = compare a b := rfl

namespace IxNode

section Ord

variable {K : Type} [Ord K]

/-- **What `insert` is for.** -/
structure Inserts (n : IxNode K) (k : K) (v : Rid) : Prop where
  old : (∃ i < n.numKey, compare (n.keys i) k = .eq) → n.insert k v = n
  new : (∀ i < n.numKey, compare (n.keys i) k ≠ .eq) → ∃ pos ≤ n.numKey,
    n.insert k v = n.insertPair pos k v ∧ (n.insert k v).numKey = n.numKey + 1 ∧
    (∀ i < pos, compare (n.keys i) k = .lt) ∧
    ∀ i, pos ≤ i → i < n.numKey → compare k (n.keys i) = .lt

/-- All keys of the node are lower, and the slot behind them holds the key. -/
def StaleHit (n : IxNode K) (k : K) : Prop :=
  n.numKey ≠ 0 ∧ (∀ i < n.numKey, compare (n.keys i) k = .lt) ∧ compare (n.keys n.numKey) k = .eq

/-- The pair number `pos` is erased, inserted again and found. -/
def Reinserts (n : IxNode K) (pos : Nat) (v : Rid) : Prop :=
  ∃ n', n.erasePair pos = .ok n' ∧ (n'.insert (n.keys pos) v).numKey = n.numKey ∧
    (n'.insert (n.keys pos) v).leafLookup (n.keys pos) = some v

end Ord

/-! ### The slots in use -/

/-- The slots in use hold these pairs. -/
def Holds (n : IxNode (RawKey cols)) (l : List (IxKey cols × Rid)) : Prop :=
  n.entries = l.map fun e => (e.1.raw, e.2)

variable {n : IxNode (RawKey cols)} {l : List (IxKey cols × Rid)} {k : IxKey cols} {v : Rid}

/-- As many pairs as slots in use. -/
theorem Holds.length (h : n.Holds l) : l.length = n.numKey := by
  rw [← length_entries, h, List.length_map]

/-- A slot in use. -/
theorem Holds.slot (h : n.Holds l) {i : Nat} {e : IxKey cols × Rid} (he : l[i]? = some e) :
    n.keys i = e.1.raw ∧ n.rids i = e.2 := by
  have hi : i < n.numKey := by
    rw [← h.length]
    exact (List.getElem?_eq_some_iff.mp he).1
  have hget := getElem?_entries n i
  rw [h, List.getElem?_map, he, if_pos hi] at hget
  have hpair := Option.some.inj hget
  exact ⟨(Prod.mk.inj hpair).1.symm, (Prod.mk.inj hpair).2.symm⟩

/-- The pair of a slot. -/
theorem Holds.exists_slot (h : n.Holds l) {i : Nat} (hi : i < n.numKey) :
    ∃ e, l[i]? = some e ∧ n.keys i = e.1.raw := by
  rw [← h.length] at hi
  exact ⟨l[i], List.getElem?_eq_getElem hi, (h.slot (List.getElem?_eq_getElem hi)).1⟩

/-- `lower_bound` among the pairs. -/
theorem Holds.lowerBound (h : n.Holds l) (k : IxKey cols) : n.lowerBound k.raw = lowerIdx k l := by
  rw [lowerBound_eq, h]
  unfold lowerIdx
  rw [List.findIdx_map]
  rfl

/-- **The place of a key.** The keys before it are lower, those from there on are not. -/
theorem Holds.place (h : n.Holds l) (hinc : Increasing l) (k : IxKey cols) :
    n.lowerBound k.raw ≤ n.numKey ∧
      (∀ i < n.lowerBound k.raw, compare (n.keys i) k.raw = .lt) ∧
      ∀ i, n.lowerBound k.raw ≤ i → i < n.numKey → (compare k.raw (n.keys i)).isLE := by
  rw [h.lowerBound]
  have hle : lowerIdx k l ≤ n.numKey := by
    rw [← h.length]
    exact lowerIdx_le k l
  refine ⟨hle, fun i hi => ?_, fun i hi hin => ?_⟩
  · obtain ⟨e, he, hkey⟩ := h.exists_slot (Nat.lt_of_lt_of_le hi hle)
    have hnot : ¬ (compare k e.1).isLE := fun hc => by
      have := (hinc.lowerIdx_le_iff he).mpr hc
      omega
    rw [hkey, IxKey.compare_raw]
    refine OrientedCmp.lt_of_gt ?_
    revert hnot
    cases compare k e.1 <;> simp
  · obtain ⟨e, he, hkey⟩ := h.exists_slot hin
    rw [hkey, IxKey.compare_raw]
    exact (hinc.lowerIdx_le_iff he).mp hi

/-- The keys increase from slot to slot. -/
theorem Holds.keys_lt (h : n.Holds l) (hinc : Increasing l) {i j : Nat} (hij : i < j)
    (hj : j < n.numKey) : compare (n.keys i) (n.keys j) = .lt := by
  obtain ⟨a, ha, hka⟩ := h.exists_slot (Nat.lt_trans hij hj)
  obtain ⟨b, hb, hkb⟩ := h.exists_slot hj
  obtain ⟨hlena, hgeta⟩ := List.getElem?_eq_some_iff.mp ha
  obtain ⟨hlenb, hgetb⟩ := List.getElem?_eq_some_iff.mp hb
  rw [hka, hkb, IxKey.compare_raw, ← hgeta, ← hgetb]
  exact List.pairwise_iff_getElem.mp hinc _ _ hlena hlenb hij

/-- A key above all keys has its place behind them. -/
theorem Holds.lowerBound_of_below (h : n.Holds l) (hinc : Increasing l)
    (hlt : ∀ i < n.numKey, compare (n.keys i) k.raw = .lt) : n.lowerBound k.raw = n.numKey := by
  obtain ⟨hle, -, habove⟩ := h.place hinc k
  refine Nat.le_antisymm hle (Nat.le_of_not_lt fun hc => ?_)
  have hkle := habove _ (Nat.le_refl _) hc
  obtain ⟨e, -, hkey⟩ := h.exists_slot hc
  have hek := hlt _ hc
  rw [hkey, IxKey.compare_raw] at hkle hek
  rw [OrientedCmp.gt_of_lt hek] at hkle
  cases hkle

/-! ### `insert` -/

/-- A key of the node is at its place. -/
theorem Holds.lowerBound_of_mem (h : n.Holds l) (hinc : Increasing l) {i : Nat} (hi : i < n.numKey)
    (hk : compare (n.keys i) k.raw = .eq) : n.lowerBound k.raw = i := by
  obtain ⟨e, he, hkey⟩ := h.exists_slot hi
  rw [hkey, IxKey.compare_raw] at hk
  have hle : lowerIdx k l ≤ i := by
    rw [hinc.lowerIdx_le_iff he, OrientedCmp.eq_symm hk]
    rfl
  rw [h.lowerBound]
  refine Nat.le_antisymm hle (Nat.le_of_not_lt fun hlt => ?_)
  -- a lower slot would hold a key that is not below `k`
  obtain ⟨e', he', hkey'⟩ := h.exists_slot (Nat.lt_trans hlt hi)
  have hke' := (hinc.lowerIdx_le_iff (k := k) he').mp (Nat.le_refl _)
  have hlt' : compare e'.1 e.1 = .lt := by
    have := h.keys_lt hinc hlt hi
    rwa [hkey, hkey', IxKey.compare_raw] at this
  have hlt'' := TransCmp.lt_of_isLE_of_lt hke' hlt'
  rw [OrientedCmp.eq_symm hk] at hlt''
  cases hlt''

/-- `insert` refuses a key that is at the place or behind the last slot. -/
theorem insert_eq (n : IxNode (RawKey cols)) (k : RawKey cols) (v : Rid) : n.insert k v =
    if n.numKey ≠ 0 ∧ compare (n.keys (n.lowerBound k)) k = .eq then n
    else n.insertPair (n.lowerBound k) k v := rfl

/-- **`insert` does what it is for, except on a stale hit.** -/
theorem Holds.inserts_iff (h : n.Holds l) (hinc : Increasing l) (k : IxKey cols) (v : Rid) :
    n.Inserts k.raw v ↔ ¬ n.StaleHit k.raw := by
  obtain ⟨hle, hbelow, habove⟩ := h.place hinc k
  constructor
  · rintro hins ⟨hne, hlt, hstale⟩
    obtain ⟨pos, -, -, hsize, -⟩ := hins.new fun i hi hc => by
      rw [hlt i hi] at hc
      cases hc
    rw [insert_eq, h.lowerBound_of_below hinc hlt, if_pos ⟨hne, hstale⟩] at hsize
    omega
  · intro hno
    refine ⟨fun ⟨i, hi, hk⟩ => ?_, fun hnew => ?_⟩
    · rw [insert_eq, h.lowerBound_of_mem hinc hi hk, if_pos ⟨by omega, hk⟩]
    · have hins : n.insert k.raw v = n.insertPair (n.lowerBound k.raw) k.raw v := by
        rw [insert_eq, if_neg]
        rintro ⟨hne, hc⟩
        rcases Nat.lt_or_ge (n.lowerBound k.raw) n.numKey with hlt | hge
        · exact hnew _ hlt hc
        · have hplace : n.lowerBound k.raw = n.numKey := Nat.le_antisymm hle hge
          rw [hplace] at hc hbelow
          exact hno ⟨hne, hbelow, hc⟩
      refine ⟨n.lowerBound k.raw, hle, hins, by rw [hins]; rfl, hbelow, fun i hi hin => ?_⟩
      have hkle := habove i hi hin
      have hne := hnew i hin
      obtain ⟨e, -, hkey⟩ := h.exists_slot hin
      rw [hkey, IxKey.compare_raw] at hkle hne ⊢
      have hne' : compare k e.1 ≠ .eq := fun hc => hne (OrientedCmp.eq_symm hc)
      revert hkle hne'
      cases compare k e.1 <;> simp

/-! ### Erased and inserted again -/

/-- A pair is taken out. -/
theorem Holds.shiftDown (h : n.Holds l) {pos : Nat} (hpos : pos < n.numKey) :
    (n.shiftDown pos).Holds (l.take pos ++ l.drop (pos + 1)) := by
  unfold Holds
  rw [entries_shiftDown n hpos, h, List.map_append, List.map_take, List.map_drop]

/-- A pair that has been inserted is found. -/
theorem Holds.leafLookup_insertPair (h : n.Holds l) (k : IxKey cols) (v : Rid) {pos : Nat}
    (hpos : pos ≤ n.numKey) (hbelow : ∀ i < pos, compare (n.keys i) k.raw = .lt) :
    (n.insertPair pos k.raw v).leafLookup k.raw = some v := by
  set m := n.insertPair pos k.raw v with hm
  have hkey : m.keys pos = k.raw ∧ m.rids pos = v := by
    rw [hm]
    unfold insertPair insertPairs
    simp
  have hlow : ∀ i < pos, m.keys i = n.keys i := by
    intro i hi
    rw [hm]
    unfold insertPair insertPairs
    simp [hi]
  have hself : compare k.raw k.raw = .eq := @ReflCmp.compare_self _ compare _ k
  have hplace : m.lowerBound k.raw = pos := by
    have hsize : pos < m.numKey := by
      rw [hm]
      show pos < n.numKey + 1
      omega
    have hfind : (List.range m.numKey).find? (fun i => (compare k.raw (m.keys i)).isLE) = some pos := by
      rw [List.find?_range_eq_some]
      refine ⟨by rw [hkey.1, hself]; rfl, List.mem_range.mpr hsize, fun i hi => ?_⟩
      obtain ⟨e, -, hke⟩ := h.exists_slot (Nat.lt_of_lt_of_le hi hpos)
      have hlt := hbelow i hi
      rw [hlow i hi, hke, IxKey.compare_raw]
      rw [hke, IxKey.compare_raw] at hlt
      rw [OrientedCmp.gt_of_lt hlt]
      rfl
    unfold IxNode.lowerBound
    rw [hfind]
    rfl
  have hsize : m.numKey = n.numKey + 1 := rfl
  unfold leafLookup
  rw [hplace]
  dsimp only
  rw [if_neg (by omega), hkey.1, if_pos hself, hkey.2]

/-- **An erased pair can be inserted again**, unless it was the last of several. -/
theorem Holds.reinserts_iff (h : n.Holds l) (hinc : Increasing l) {pos : Nat} (hpos : pos < n.numKey)
    (v : Rid) : n.Reinserts pos v ↔ n.numKey = 1 ∨ pos + 1 < n.numKey := by
  obtain ⟨e, he, hkey⟩ := h.exists_slot hpos
  have herase : n.erasePair pos = .ok (n.shiftDown pos) := if_neg (Nat.not_le.mpr hpos)
  have hholds := h.shiftDown hpos
  have hsize : (n.shiftDown pos).numKey = n.numKey - 1 := rfl
  have hinc' : Increasing (l.take pos ++ l.drop (pos + 1)) := by
    refine hinc.sublist ?_
    conv_rhs => rw [← List.take_append_drop pos l]
    exact List.Sublist.append (List.Sublist.refl _) (List.drop_sublist_drop_left l (Nat.le_succ pos))
  have hpair : ∀ i j, i < j → j < n.numKey → compare (n.keys i) (n.keys j) = .lt :=
    fun _ _ => h.keys_lt hinc
  -- the slots of the node without the pair
  have hslot : ∀ i, (n.shiftDown pos).keys i =
      if i < pos then n.keys i else if i < n.numKey - 1 then n.keys (i + 1) else n.keys i :=
    fun _ => rfl
  have hiff := hholds.inserts_iff hinc' e.1 v
  rw [← hkey] at hiff
  have hself : compare (n.keys pos) (n.keys pos) = .eq := by
    rw [hkey, IxKey.compare_raw]
    exact ReflCmp.compare_self
  have habsent : ∀ i < (n.shiftDown pos).numKey,
      compare ((n.shiftDown pos).keys i) (n.keys pos) ≠ .eq := by
    intro i hi hc
    rw [hsize] at hi
    rw [hslot i] at hc
    by_cases hip : i < pos
    · rw [if_pos hip, hpair i pos hip hpos] at hc
      cases hc
    · rw [if_neg hip, if_pos hi, hkey] at hc
      have hlt := hpair pos (i + 1) (by omega) (by omega)
      obtain ⟨b, -, hkb⟩ := h.exists_slot (show i + 1 < n.numKey by omega)
      rw [hkb, IxKey.compare_raw] at hc
      rw [hkey, hkb, IxKey.compare_raw, OrientedCmp.eq_symm hc] at hlt
      cases hlt
  have hstale : (n.shiftDown pos).StaleHit (n.keys pos) ↔ n.numKey ≠ 1 ∧ pos + 1 = n.numKey := by
    constructor
    · rintro ⟨hne, hlt, -⟩
      refine ⟨by omega, ?_⟩
      by_contra hlast
      -- the key behind the erased one is still there
      have hgt := hlt (n.numKey - 2) (by omega)
      rw [hslot, if_neg (by omega), if_pos (by omega), show n.numKey - 2 + 1 = n.numKey - 1 by omega,
        hkey] at hgt
      have hlt' := hpair pos (n.numKey - 1) (by omega) (by omega)
      obtain ⟨b, -, hkb⟩ := h.exists_slot (show n.numKey - 1 < n.numKey by omega)
      rw [hkb, IxKey.compare_raw] at hgt
      rw [hkey, hkb, IxKey.compare_raw, OrientedCmp.gt_of_lt hgt] at hlt'
      cases hlt'
    · rintro ⟨hne, hlast⟩
      refine ⟨by omega, fun i hi => ?_, ?_⟩
      · rw [hslot, if_pos (by omega)]
        exact hpair i pos (by omega) hpos
      · rw [hsize, hslot, if_neg (by omega), if_neg (by omega), show n.numKey - 1 = pos by omega]
        exact hself
  constructor
  · rintro ⟨n', hn', hadd, -⟩
    rw [herase] at hn'
    cases hn'
    by_contra hcond
    have hhit := hstale.mpr ⟨by omega, by omega⟩
    have hplace : (n.shiftDown pos).lowerBound (n.keys pos) = (n.shiftDown pos).numKey := by
      have hbelow := hhit.2.1
      rw [hkey] at hbelow ⊢
      exact hholds.lowerBound_of_below hinc' hbelow
    rw [insert_eq, hplace, if_pos ⟨hhit.1, hhit.2.2⟩, hsize] at hadd
    omega
  · intro hcond
    have hok := hiff.mpr fun hhit => by
      have := hstale.mp hhit
      omega
    obtain ⟨p, hp, hins, hadd, hbelow, -⟩ := hok.new habsent
    refine ⟨n.shiftDown pos, herase, by rw [hadd, hsize]; omega, ?_⟩
    rw [hins, hkey]
    rw [hkey] at hbelow
    exact hholds.leafLookup_insertPair e.1 v hp hbelow

/-- **When `insert` is right.** For a node whose keys increase: `insert` does what it is for unless all
    keys are lower and the slot behind the last one still holds the key; an erased pair can be inserted
    again and found unless it was the last of several. -/
theorem insert_correct_iff (n : IxNode (RawKey cols)) (l : List (IxKey cols × Rid)) (h : n.Holds l)
    (hinc : Increasing l) (v : Rid) :
    (∀ k : IxKey cols, n.Inserts k.raw v ↔ ¬ n.StaleHit k.raw) ∧
      ∀ pos < n.numKey, (n.Reinserts pos v ↔ n.numKey = 1 ∨ pos + 1 < n.numKey) :=
  ⟨fun k => h.inserts_iff hinc k v, fun _ hpos => h.reinserts_iff hinc hpos v⟩

/-- A key of an `INT` index. -/
def intRawKey (b : UInt8) : IxKey [(.int, 4)] :=
  ⟨[b, 0, 0, 0], rfl, ⟨fun h => (by cases h), trivial⟩⟩

/-- A leaf with the keys 5 and 7. -/
def fiveSeven : IxNode (RawKey [(.int, 4)]) :=
  { (IxNode.zero.insert (intRawKey 5).raw ⟨1, 0⟩).insert (intRawKey 7).raw ⟨1, 1⟩ with isLeaf := true }

/-- A node with two keys. -/
theorem holds_fiveSeven :
    fiveSeven.Holds [(intRawKey 5, ⟨1, 0⟩), (intRawKey 7, ⟨1, 1⟩)] := by
  unfold Holds
  decide +kernel

/-- They stand in order. -/
theorem increasing_fiveSeven :
    Increasing [(intRawKey 5, (⟨1, 0⟩ : Rid)), (intRawKey 7, ⟨1, 1⟩)] := by
  unfold Increasing
  decide +kernel

/-- The theorem at this leaf: 5 can be erased and inserted again. -/
theorem fiveSeven_reinserts_five : 0 < fiveSeven.numKey ∧ fiveSeven.Reinserts 0 ⟨1, 2⟩ := by
  have hpos : 0 < fiveSeven.numKey := by decide +kernel
  refine ⟨hpos, ?_⟩
  refine ((insert_correct_iff fiveSeven _ holds_fiveSeven increasing_fiveSeven ⟨1, 2⟩).2 0 hpos).mpr ?_
  decide +kernel

/-- **The last key cannot be inserted again.** After `erase_pair(1)` the slot behind the last one still
    holds 7, and `insert` takes it for a key of the node. -/
theorem last_key_not_reinserted :
    fiveSeven.Holds [(intRawKey 5, ⟨1, 0⟩), (intRawKey 7, ⟨1, 1⟩)] ∧
    Increasing [(intRawKey 5, (⟨1, 0⟩ : Rid)), (intRawKey 7, ⟨1, 1⟩)] ∧
    ¬ fiveSeven.Reinserts 1 ⟨1, 2⟩ ∧ ∃ n', fiveSeven.erasePair 1 = .ok n' ∧
      ¬ n'.Inserts (intRawKey 7).raw ⟨1, 2⟩ ∧
      (n'.insert (intRawKey 7).raw ⟨1, 2⟩).leafLookup (intRawKey 7).raw = none := by
  have hsize : ((fiveSeven.shiftDown 1).insert (intRawKey 7).raw ⟨1, 2⟩).numKey = 1 := by
    decide +kernel
  refine ⟨holds_fiveSeven, increasing_fiveSeven, ?_, fiveSeven.shiftDown 1, rfl, ?_, ?_⟩
  · rintro ⟨n', hn', hadd, -⟩
    cases hn'
    have hadd' : ((fiveSeven.shiftDown 1).insert (intRawKey 7).raw ⟨1, 2⟩).numKey = 2 := hadd
    rw [hsize] at hadd'
    cases hadd'
  · intro hins
    obtain ⟨pos, -, -, hadd, -⟩ := hins.new (by decide +kernel)
    have hadd' : ((fiveSeven.shiftDown 1).insert (intRawKey 7).raw ⟨1, 2⟩).numKey = 2 := hadd
    rw [hsize] at hadd'
    cases hadd'
  · decide +kernel

end IxNode

end Rmdb
