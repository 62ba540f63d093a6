import Rmdb.Lib.PinLedger
import Rmdb.Index.IxScan
import Rmdb.Index.PageReuse

namespace Rmdb

open Lib Std

/-!
# What the index does with its pins

Each operation again, with its events in the buffer pool: `create_node` and `fetch_node` pin a page, a
node is read and written through the pointers of its handle, and `unpin_page` gives a pin back.
Uses of one node in a row are one event.

* `pins_results` — with their events the operations compute what they compute without;
* `findLeafFromPins`, `insertFindPins` — both ways down unpin every inner node twice, a search in the
  loop and an insertion in the loop and in `unlock_unpin_all_pages`;
* `excess_maintainParentPins`, `excess_insertIntoParentPins` — what an insertion does at the leaf and
  above it gives back each pin;
* `ReturnsPins`, `returnsPins_iff` — exactly which calls give back what they took and use nodes under
  their own pins only;
* `unpins_twice` — a lookup in a tree of two levels takes the pin of somebody else.
-/

namespace IxIndexHandle

variable {K : Type} {s s' : IxIndexHandle K} {p q : Int} {t : List (PinEvent Int)}

/-! ### The operations with their events -/

section Search

variable [Ord K] (s : IxIndexHandle K)

/-- The loop of `find_leaf_page` in a search. -/
def findLeafFromPins (key : K) : Nat → Int → Except IxError (Int × List (PinEvent Int))
  | 0, _ => .error .outOfFuel
  | fuel + 1, p =>
    if (s.page p).isLeaf then .ok (p, [.read p])
    else do
      let child := (s.page p).internalLookup key
      let (q, t) ← findLeafFromPins key fuel child
      return (q, [.read p, .unpin p false, .unpin p false, .fetch child] ++ t)

/-- `find_leaf_page` in a search. -/
def findLeafPagePins (key : K) : Except IxError (Int × List (PinEvent Int)) := do
  let (p, t) ← s.findLeafFromPins key s.fuel s.rootPage
  return (p, .fetch s.rootPage :: t)

/-- `get_value`: the record id is read after the leaf has been unpinned. -/
def getValuePins (key : K) : Except IxError (Option Rid × List (PinEvent Int)) := do
  let (p, t) ← s.findLeafPagePins key
  match (s.page p).leafLookup key with
  | none => return (none, t ++ [.read p, .unpin p false])
  | some rid => return (some rid, t ++ [.read p, .unpin p false, .read p])

/-- `is_key_exist`. -/
def isKeyExist (key : K) : Except IxError Bool := do
  let p ← s.findLeafPage key
  return (s.page p).entries.any fun e => compare key e.1 == .eq

/-- `is_key_exist`. -/
def isKeyExistPins (key : K) : Except IxError (Bool × List (PinEvent Int)) := do
  let (p, t) ← s.findLeafPagePins key
  return ((s.page p).entries.any fun e => compare key e.1 == .eq, t ++ [.read p, .unpin p false])

omit [Ord K] in
/-- `leaf_end`. -/
def leafEndPins : Iid × List (PinEvent Int) :=
  (s.leafEnd, [.fetch s.lastLeaf, .read s.lastLeaf, .unpin s.lastLeaf false])

/-- `lower_bound`. -/
def lowerBoundPins (key : K) : Except IxError (Iid × List (PinEvent Int)) := do
  let (p, t) ← s.findLeafPagePins key
  return (⟨p, (s.page p).lowerBound key⟩, t ++ [.read p, .unpin p false])

/-- `upper_bound`. -/
def upperBoundPins (key : K) : Except IxError (Iid × List (PinEvent Int)) := do
  let (p, t) ← s.findLeafPagePins key
  let keyIdx := (s.page p).upperBound key
  if keyIdx = (s.page p).numKey then
    return (s.leafEnd, t ++ [.read p] ++ s.leafEndPins.2 ++ [.unpin p false])
  else return (⟨p, keyIdx⟩, t ++ [.read p, .unpin p false])

omit [Ord K] in
/-- `get_rid`: in the end the slot is read after the leaf has been unpinned. -/
def getRidPins (iid : Iid) : Except IxError Rid × List (PinEvent Int) :=
  let p := iid.pageNo
  if (s.page p).numKey ≤ iid.slotNo then
    (.error (.rmdbError "Index entry not found"), [.fetch p, .read p, .unpin p false])
  else (.ok ((s.page p).rids iid.slotNo), [.fetch p, .read p, .unpin p false, .read p])

end Search

/-- `IxScan::next`: the leaf is not unpinned. -/
def nextPins (s : IxIndexHandle K) (c : IxScan) : Except IxError (IxScan × List (PinEvent Int)) := do
  let c' ← c.next s
  return (c', [.fetch c.iid.pageNo, .read c.iid.pageNo])

/-- `maintain_parent`. -/
def maintainParentPins [DecidableEq K] :
    Nat → IxIndexHandle K → Int → Except IxError (IxIndexHandle K × List (PinEvent Int))
  | 0, _, _ => .error .outOfFuel
  | fuel + 1, s, p =>
    if (s.page p).parent = -1 then .ok (s, [.read p])
    else do
      let q := (s.page p).parent
      let rank ← (s.page q).findChild p
      if (s.page q).keys rank = (s.page p).keys 0 then
        return (s, [.read p, .fetch q, .read q, .read p, .unpin q true])
      else
        let s' := s.modify q fun n =>
          { n with keys := Function.update n.keys rank ((s.page p).keys 0) }
        let (s'', t) ← maintainParentPins fuel s' q
        return (s'', [.read p, .fetch q, .read q, .read p, .write q, .unpin q true] ++ t)

section Insert

variable [Inhabited K]

/-- `split`: the new node stays pinned. -/
def splitPins (s : IxIndexHandle K) (p : Int) : List (PinEvent Int) :=
  let n := s.page p
  let q := s.nextPage
  [.read p, .fetch q, .write q, .read p, .write q, .write p] ++
    if n.isLeaf then [.read p, .write q, .write p]
    else
      -- `maintain_child` for each child of the new node
      ((splitOff n).entries.map fun e => e.2.pageNo).flatMap fun c =>
        [.read q, .fetch c, .write c, .unpin c true]

variable [Ord K]

/-- `insert_into_parent`. -/
def insertIntoParentPins :
    Nat → IxIndexHandle K → Int → Int → Except IxError (IxIndexHandle K × List (PinEvent Int))
  | 0, _, _, _ => .error .outOfFuel
  | fuel + 1, s, old, new =>
    if (s.page old).isRootPage then
      let (r, s) := s.createNode
      let root := ({ IxNode.zero with parent := -1 }.insertPair 0 ((s.page old).keys 0)
        ⟨old, -1⟩).insertPair 1 ((s.page new).keys 0) ⟨new, -1⟩
      let s := ((s.set r root).setParent old r).setParent new r
      .ok ({ s with rootPage := r }, [.read old, .fetch r, .write r, .read old, .write r, .read new,
        .write r, .write old, .write new, .unpin r true])
    else
      let p := (s.page new).parent
      let s := s.insertInto p ((s.page new).keys 0) ⟨new, -1⟩
      let t : List (PinEvent Int) := [.read old, .read new, .fetch p, .read new, .write p]
      if (s.page p).numKey = s.maxSize then do
        let u := s.splitPins p
        let (q, s) := s.split p
        let (s, v) ← insertIntoParentPins fuel s p q
        return (if p = s.lastLeaf then { s with lastLeaf := q } else s,
          t ++ u ++ v ++ [.unpin q true, .unpin p true])
      else .ok (s, t ++ [.unpin p true])

omit [Inhabited K] in
/-- The loop of `find_leaf_page` in an insertion; `set` is the list of latched pages.  It is left without
    the leaf. -/
def insertFindPins (s : IxIndexHandle K) (key : K) :
    Nat → Int → List Int → Except IxError (Int × List Int × List (PinEvent Int))
  | 0, _, _ => .error .outOfFuel
  | fuel + 1, p, set =>
    if (s.page p).isLeaf then .ok (p, set.dropLast, [.read p])
    else do
      let child := (s.page p).internalLookup key
      let t : List (PinEvent Int) := [.read p, .unpin p false, .fetch child, .read child]
      -- `is_secure`: then `unlock_unpin_all_pages`
      if (s.page child).numKey + 1 < s.maxSize then
        let (q, set', u) ← insertFindPins s key fuel child [child]
        return (q, set', t ++ (set.map fun x => .unpin x false) ++ u)
      else
        let (q, set', u) ← insertFindPins s key fuel child (set ++ [child])
        return (q, set', t ++ u)

/-- `insert_entry`. -/
def insertEntryPins [DecidableEq K] (s : IxIndexHandle K) (key : K) (value : Rid) :
    Except IxError ((Int × IxIndexHandle K) × List (PinEvent Int)) := do
  let (p, set, t) ← s.insertFindPins key s.fuel s.rootPage [s.rootPage]
  let t : List (PinEvent Int) := .fetch s.rootPage :: t ++ [.write p]
  let (s, u) ← maintainParentPins s.fuel (s.insertInto p key value) p
  let r : List (PinEvent Int) := (set.map fun x => .unpin x false) ++ [.unpin p true]
  if (s.page p).numKey = s.maxSize then
    let w := s.splitPins p
    let (q, s) := s.split p
    let (s, v) ← insertIntoParentPins s.fuel s p q
    return ((p, if p = s.lastLeaf then { s with lastLeaf := q } else s),
      t ++ u ++ w ++ v ++ [.unpin q true] ++ r)
  else return ((p, s), t ++ u ++ r)

end Insert

/-! ### What they compute -/

section Results

/-- Without its trace this is `get_rid`. -/
theorem fst_getRidPins (iid : Iid) : (s.getRidPins iid).1 = s.getRid iid := by
  unfold getRidPins getRid
  dsimp only
  split <;> rfl

/-- Without its trace this is `IxScan::next`. -/
theorem fst_nextPins (c : IxScan) : Prod.fst <$> s.nextPins c = c.next s := by
  unfold nextPins
  simp

/-- Without its trace this is `maintain_parent`. -/
theorem fst_maintainParentPins [DecidableEq K] (fuel : Nat) :
    Prod.fst <$> maintainParentPins fuel s p = maintainParent fuel s p := by
  induction fuel generalizing s p with
  | zero => rfl
  | succ fuel ih =>
    unfold maintainParentPins maintainParent
    split
    · rfl
    · simp only [map_bind]
      congr 1
      funext rank
      split
      · rfl
      · rw [← ih]
        simp

variable [Ord K]

/-- Without its trace this is the way down. -/
theorem fst_findLeafFromPins (key : K) (fuel : Nat) (p : Int) :
    Prod.fst <$> s.findLeafFromPins key fuel p = s.findLeafFrom key fuel p := by
  induction fuel generalizing p with
  | zero => rfl
  | succ fuel ih =>
    unfold findLeafFromPins findLeafFrom
    split
    · rfl
    · rw [← ih]
      simp

/-- Without its trace this is `find_leaf_page`. -/
theorem fst_findLeafPagePins (key : K) :
    Prod.fst <$> s.findLeafPagePins key = s.findLeafPage key := by
  unfold findLeafPagePins findLeafPage
  rw [← fst_findLeafFromPins]
  simp

/-- Without its trace this is `get_value`. -/
theorem fst_getValuePins (key : K) : Prod.fst <$> s.getValuePins key = s.getValue key := by
  unfold getValuePins getValue
  rw [← fst_findLeafPagePins]
  simp only [map_bind, bind_map_left]
  congr 1
  funext r
  cases (s.page r.1).leafLookup key <;> rfl

/-- Without its trace this is `is_key_exist`. -/
theorem fst_isKeyExistPins (key : K) : Prod.fst <$> s.isKeyExistPins key = s.isKeyExist key := by
  unfold isKeyExistPins isKeyExist
  rw [← fst_findLeafPagePins]
  simp

/-- Without its trace this is `lower_bound`. -/
theorem fst_lowerBoundPins (key : K) : Prod.fst <$> s.lowerBoundPins key = s.lowerBound key := by
  unfold lowerBoundPins lowerBound
  rw [← fst_findLeafPagePins]
  simp

/-- Without its trace this is `upper_bound`. -/
theorem fst_upperBoundPins (key : K) : Prod.fst <$> s.upperBoundPins key = s.upperBound key := by
  unfold upperBoundPins upperBound
  rw [← fst_findLeafPagePins]
  simp only [map_bind, bind_map_left]
  congr 1
  funext r
  split <;> rfl

variable [Inhabited K]

/-- Without its trace this is `insert_into_parent`. -/
theorem fst_insertIntoParentPins (fuel : Nat) :
    Prod.fst <$> insertIntoParentPins fuel s p q = insertIntoParent fuel s p q := by
  induction fuel generalizing s p q with
  | zero => rfl
  | succ fuel ih =>
    unfold insertIntoParentPins insertIntoParent
    split
    · rfl
    · dsimp only
      split
      · rw [← ih]
        simp
      · rfl

omit [Inhabited K] in
/-- Without its trace this is the way down. -/
theorem fst_insertFindPins (key : K) (fuel : Nat) (p : Int) (set : List Int) :
    Prod.fst <$> s.insertFindPins key fuel p set = s.findLeafFrom key fuel p := by
  induction fuel generalizing p set with
  | zero => rfl
  | succ fuel ih =>
    unfold insertFindPins findLeafFrom
    split
    · rfl
    · dsimp only
      split
      · rw [← ih _ [(s.page p).internalLookup key]]
        simp
      · rw [← ih _ (set ++ [(s.page p).internalLookup key])]
        simp

/-- Without its trace this is `insert_entry`. -/
theorem fst_insertEntryPins [DecidableEq K] (key : K) (value : Rid) :
    Prod.fst <$> s.insertEntryPins key value = s.insertEntry key value := by
  unfold insertEntryPins insertEntry findLeafPage
  rw [← fst_insertFindPins key s.fuel s.rootPage [s.rootPage]]
  simp only [map_bind, bind_map_left]
  congr 1
  funext r
  rw [← fst_maintainParentPins, bind_map_left]
  congr 1
  funext r'
  split
  · rw [← fst_insertIntoParentPins]
    simp
  · rfl

/-- **The events change nothing**: with them the calls compute what they compute without. -/
theorem pins_results [DecidableEq K] (s : IxIndexHandle K) :
    (∀ key, Prod.fst <$> s.getValuePins key = s.getValue key) ∧
    (∀ key, Prod.fst <$> s.isKeyExistPins key = s.isKeyExist key) ∧
    (∀ key, Prod.fst <$> s.lowerBoundPins key = s.lowerBound key) ∧
    (∀ key, Prod.fst <$> s.upperBoundPins key = s.upperBound key) ∧
    (∀ key value, Prod.fst <$> s.insertEntryPins key value = s.insertEntry key value) ∧
    (∀ c, Prod.fst <$> s.nextPins c = c.next s) ∧ ∀ iid, (s.getRidPins iid).1 = s.getRid iid :=
  ⟨fst_getValuePins, fst_isKeyExistPins, fst_lowerBoundPins, fst_upperBoundPins, fst_insertEntryPins,
    fst_nextPins, fst_getRidPins⟩

end Results

/-! ### What they take and give back -/

section Excess

/-- `maintain_parent` unpins each page it has fetched. -/
theorem excess_maintainParentPins [DecidableEq K] {fuel : Nat}
    (h : maintainParentPins fuel s p = .ok (s', t)) : excess t = 0 := by
  induction fuel generalizing s p t with
  | zero => cases h
  | succ fuel ih =>
    unfold maintainParentPins at h
    split at h
    · cases h
      rfl
    · obtain ⟨rank, -, h⟩ := bind_eq_ok.mp h
      split at h
      · cases h
        rfl
      · obtain ⟨⟨s₁, u⟩, hu, h⟩ := bind_eq_ok.mp h
        cases h
        rw [excess_append, ih hu]
        rfl

/-- The new node of `split` stays pinned. -/
theorem excess_splitPins [Inhabited K] (s : IxIndexHandle K) (p : Int) : excess (s.splitPins p) = 1 := by
  have hchildren : ∀ (q : Int) (cs : List Int), excess (cs.flatMap fun c =>
      ([.read q, .fetch c, .write c, .unpin c true] : List (PinEvent Int))) = 0 := by
    intro q cs
    induction cs with
    | nil => rfl
    | cons c cs ih =>
      rw [List.flatMap_cons, excess_append, ih]
      rfl
  unfold splitPins
  dsimp only
  rw [excess_append]
  split
  · rfl
  · rw [hchildren]
    rfl

/-- `insert_into_parent` unpins each page it has fetched. -/
theorem excess_insertIntoParentPins [Inhabited K] [Ord K] {fuel : Nat}
    (h : insertIntoParentPins fuel s p q = .ok (s', t)) : excess t = 0 := by
  induction fuel generalizing s s' p q t with
  | zero => cases h
  | succ fuel ih =>
    unfold insertIntoParentPins at h
    split at h
    · cases h
      rfl
    · dsimp only at h
      split at h
      · obtain ⟨⟨s₁, v⟩, hv, h⟩ := bind_eq_ok.mp h
        cases h
        rw [excess_append, excess_append, excess_append, excess_splitPins, ih hv]
        rfl
      · cases h
        rfl

variable [Ord K]

/-- **The way down in a search** unpins more than it fetches, unless it starts at a leaf. -/
theorem excess_findLeafFromPins {key : K} {fuel : Nat} (h : s.findLeafFromPins key fuel p = .ok (q, t)) :
    excess t ≤ 0 ∧ (excess t = 0 ↔ (s.page p).isLeaf = true) := by
  induction fuel generalizing p q t with
  | zero => cases h
  | succ fuel ih =>
    unfold findLeafFromPins at h
    split at h
    · rename_i hleaf
      cases h
      simp [hleaf]
    · rename_i hinner
      obtain ⟨⟨q', u⟩, hu, h⟩ := bind_eq_ok.mp h
      cases h
      have := (ih hu).1
      rw [excess_append]
      simp only [excess_read, excess_unpin, excess_fetch, excess_nil, hinner]
      refine ⟨by omega, iff_of_false (by omega) (by simp)⟩

/-- **The way down in an insertion** gives back the pages of the list once more, unless it starts at a
    leaf. -/
theorem excess_insertFindPins {key : K} {fuel : Nat} {set set' : List Int}
    (h : s.insertFindPins key fuel p set = .ok (q, set', t)) (hset : set ≠ []) :
    excess t - set'.length + set.length ≤ 1 ∧
      (excess t - set'.length + set.length = 1 ↔ (s.page p).isLeaf = true) := by
  induction fuel generalizing p q t set set' with
  | zero => cases h
  | succ fuel ih =>
    have hlen := List.length_pos_iff.mpr hset
    unfold insertFindPins at h
    split at h
    · rename_i hleaf
      cases h
      rw [List.length_dropLast, excess_read, excess_nil]
      refine ⟨by omega, iff_of_true (by omega) hleaf⟩
    · rename_i hinner
      dsimp only at h
      split at h
      · obtain ⟨⟨q', set₁, u⟩, hu, h⟩ := bind_eq_ok.mp h
        cases h
        have := (ih hu (by simp)).1
        rw [List.length_singleton] at this
        rw [excess_append, excess_append, excess_unpins]
        simp only [excess_read, excess_unpin, excess_fetch, excess_nil, hinner]
        refine ⟨by omega, iff_of_false (by omega) (by simp)⟩
      · obtain ⟨⟨q', set₁, u⟩, hu, h⟩ := bind_eq_ok.mp h
        cases h
        have := (ih hu (by simp)).1
        rw [List.length_append, List.length_singleton] at this
        rw [excess_append]
        simp only [excess_read, excess_unpin, excess_fetch, excess_nil, hinner]
        refine ⟨by omega, iff_of_false (by omega) (by simp)⟩

end Excess

/-! ### Which calls return their pins -/

/-- **The pins are returned**: each page is unpinned as often as it is fetched, all pin counts are as
    before, whatever they were, and a node is used only between its fetch and its unpin. -/
structure ReturnsPins (t : List (PinEvent Int)) : Prop where
  balanced : Lib.Balanced t
  kept : Kept t
  covered : Covered PinEvent.used (fun _ => 0) t

/-- A nested trace returns its pins. -/
theorem ReturnsPins.of_nested (h : Nested [] t) : ReturnsPins t where
  balanced := h.kept.balanced
  kept := h.kept
  covered := h.covered_zero fun _ _ => Or.inl

/-- A call of an index or of one of its scans. -/
inductive IndexCall (K : Type) where
  | getValue (key : K)
  | isKeyExist (key : K)
  | lowerBound (key : K)
  | upperBound (key : K)
  | insertEntry (key : K) (value : Rid)
  | next (scan : IxScan)
  | rid (scan : IxScan)

namespace IndexCall

variable [Ord K] [Inhabited K] [DecidableEq K]

/-- The events of a call, if it is not stopped by an assertion. -/
def events (s : IxIndexHandle K) : IndexCall K → Except IxError (List (PinEvent Int))
  | .getValue key => Prod.snd <$> s.getValuePins key
  | .isKeyExist key => Prod.snd <$> s.isKeyExistPins key
  | .lowerBound key => Prod.snd <$> s.lowerBoundPins key
  | .upperBound key => Prod.snd <$> s.upperBoundPins key
  | .insertEntry key value => Prod.snd <$> s.insertEntryPins key value
  | .next c => Prod.snd <$> s.nextPins c
  | .rid c => .ok (s.getRidPins c.iid).2

omit [Inhabited K] [DecidableEq K] in
/-- The calls that return their pins: those that go down a tree which is a single leaf, except for
    `get_value` of a key that is there, and `rid` behind the last slot of a leaf. -/
def StaysOnRoot (s : IxIndexHandle K) : IndexCall K → Prop
  | .getValue key => (s.page s.rootPage).isLeaf = true ∧ (s.page s.rootPage).leafLookup key = none
  | .isKeyExist _ | .lowerBound _ | .upperBound _ | .insertEntry _ _ => (s.page s.rootPage).isLeaf = true
  | .next _ => False
  | .rid c => (s.page c.iid.pageNo).numKey ≤ c.iid.slotNo

end IndexCall

section Calls

variable [Ord K]

/-- A search in a single leaf. -/
theorem findLeafPagePins_leaf {key : K} (hleaf : (s.page s.rootPage).isLeaf = true)
    (h : s.findLeafPagePins key = .ok (p, t)) :
    p = s.rootPage ∧ t = [.fetch s.rootPage, .read s.rootPage] := by
  unfold findLeafPagePins at h
  obtain ⟨⟨p₁, t₁⟩, hfind, h⟩ := bind_eq_ok.mp h
  cases h
  cases hfuel : s.fuel with
  | zero =>
    rw [hfuel] at hfind
    cases hfind
  | succ fuel =>
    rw [hfuel, findLeafFromPins, if_pos hleaf] at hfind
    cases hfind
    exact ⟨rfl, rfl⟩

/-- **A search in a tree of more than one level** does not return its pins. -/
theorem not_returnsPins_search {key : K} (hleaf : (s.page s.rootPage).isLeaf ≠ true)
    (h : s.findLeafPagePins key = .ok (p, t)) {u : List (PinEvent Int)} (hu : excess u = -1) :
    ¬ ReturnsPins (t ++ u) := by
  intro hreturns
  have hzero := excess_eq_zero hreturns.balanced
  unfold findLeafPagePins at h
  obtain ⟨⟨p₁, t₁⟩, hfind, h⟩ := bind_eq_ok.mp h
  cases h
  obtain ⟨hle, hiff⟩ := excess_findLeafFromPins hfind
  have hne : excess t₁ ≠ 0 := fun h0 => hleaf (hiff.mp h0)
  rw [excess_append, excess_fetch, hu] at hzero
  omega

/-- An insertion in a tree of more than one level does not, either. -/
theorem not_returnsPins_insert [Inhabited K] [DecidableEq K] {key : K} {value : Rid} {r : Int × IxIndexHandle K}
    (hleaf : (s.page s.rootPage).isLeaf ≠ true) (h : s.insertEntryPins key value = .ok (r, t)) :
    ¬ ReturnsPins t := by
  intro hreturns
  have hzero := excess_eq_zero hreturns.balanced
  unfold insertEntryPins at h
  obtain ⟨⟨p, set, t₁⟩, hfind, h⟩ := bind_eq_ok.mp h
  obtain ⟨⟨s₁, u⟩, hmaintain, h⟩ := bind_eq_ok.mp h
  obtain ⟨hle, hiff⟩ := excess_insertFindPins hfind (by simp)
  have hne : excess t₁ - set.length + 1 ≠ 1 := fun h0 => hleaf (hiff.mp (by simpa using h0))
  have hu := excess_maintainParentPins hmaintain
  rw [List.length_singleton] at hle
  dsimp only at h
  split at h
  · obtain ⟨⟨s₂, v⟩, hparent, h⟩ := bind_eq_ok.mp h
    cases h
    have hv := excess_insertIntoParentPins hparent
    simp only [excess_append, excess_fetch, excess_write, excess_unpin, excess_nil, excess_unpins,
      List.cons_append, excess_splitPins, hu, hv] at hzero
    omega
  · cases h
    simp only [excess_append, excess_fetch, excess_write, excess_unpin, excess_nil, excess_unpins,
      List.cons_append, hu] at hzero
    omega

omit [Ord K] in
/-- At the root there is nothing to maintain. -/
theorem maintainParentPins_root [DecidableEq K] {fuel : Nat} (hp : (s.page p).parent = -1)
    (h : maintainParentPins fuel s p = .ok (s', t)) : s' = s ∧ t = [.read p] := by
  cases fuel with
  | zero => cases h
  | succ fuel =>
    rw [maintainParentPins, if_pos hp] at h
    cases h
    exact ⟨rfl, rfl⟩

variable [Inhabited K]

/-- The root is split: a new root is made. -/
theorem insertIntoParentPins_root {fuel : Nat} (hp : (s.page p).parent = -1)
    (h : insertIntoParentPins fuel s p q = .ok (s', t)) : ∃ r, t = [.read p, .fetch r, .write r,
      .read p, .write r, .read q, .write r, .write p, .write q, .unpin r true] := by
  cases fuel with
  | zero => cases h
  | succ fuel =>
    have hroot : (s.page p).isRootPage = true := decide_eq_true hp
    rw [insertIntoParentPins, if_pos hroot] at h
    cases h
    exact ⟨s.nextPage, rfl⟩

omit [Ord K] in
/-- Both halves have the parent of the old node. -/
theorem split_parent (s : IxIndexHandle K) (hleaf : (s.page p).isLeaf = true) :
    ((s.split p).2.page p).parent = (s.page p).parent := by
  rw [splitLeaf_spec hleaf]
  simp

/-- **An insertion in a tree that is a single leaf** returns its pins. -/
theorem returnsPins_insert [DecidableEq K] {key : K} {value : Rid} {r : Int × IxIndexHandle K}
    (hroot : (s.page s.rootPage).isRootPage = true) (hleaf : (s.page s.rootPage).isLeaf = true)
    (h : s.insertEntryPins key value = .ok (r, t)) : ReturnsPins t := by
  unfold insertEntryPins at h
  obtain ⟨⟨p, set, t₁⟩, hfind, h⟩ := bind_eq_ok.mp h
  obtain ⟨⟨s₁, u⟩, hmaintain, h⟩ := bind_eq_ok.mp h
  -- the leaf is the root, and nothing else is in the list
  obtain ⟨rfl, rfl, rfl⟩ : p = s.rootPage ∧ set = [] ∧ t₁ = [.read s.rootPage] := by
    cases hfuel : s.fuel with
    | zero =>
      rw [hfuel] at hfind
      cases hfind
    | succ fuel =>
      rw [hfuel, insertFindPins, if_pos hleaf] at hfind
      cases hfind
      exact ⟨rfl, rfl, rfl⟩
  have hpage : (s.insertInto s.rootPage key value).page s.rootPage =
      (s.page s.rootPage).insert key value := by
    simp [insertInto, modify, set]
  have hparent : ((s.insertInto s.rootPage key value).page s.rootPage).parent = -1 := by
    rw [hpage, parent_insert]
    exact of_decide_eq_true hroot
  obtain ⟨rfl, rfl⟩ := maintainParentPins_root hparent hmaintain
  have hleaf₁ : ((s.insertInto s.rootPage key value).page s.rootPage).isLeaf = true := by
    rw [hpage, isLeaf_insert, hleaf]
  refine .of_nested ?_
  dsimp only at h
  split at h
  · obtain ⟨⟨s₂, v⟩, hinto, h⟩ := bind_eq_ok.mp h
    cases h
    obtain ⟨n, rfl⟩ := insertIntoParentPins_root (by rw [split_parent _ hleaf₁, hparent]) hinto
    rw [splitLeaf_spec hleaf₁]
    simp [splitPins, hleaf₁, Nested]
  · cases h
    simp [Nested]

variable [DecidableEq K]

/-- **Which calls return their pins**, in a tree of any height. -/
theorem returnsPins_iff (s : IxIndexHandle K) (hroot : (s.page s.rootPage).isRootPage = true)
    (call : IndexCall K) (t : List (PinEvent Int)) (hcall : call.events s = .ok t) :
    ReturnsPins t ↔ call.StaysOnRoot s := by
  cases call with
  | getValue key =>
    obtain ⟨⟨r, u⟩, hu, rfl⟩ := map_eq_ok.mp hcall
    unfold getValuePins at hu
    obtain ⟨⟨p, t⟩, hfind, hu⟩ := bind_eq_ok.mp hu
    by_cases hleaf : (s.page s.rootPage).isLeaf = true
    · obtain ⟨rfl, rfl⟩ := findLeafPagePins_leaf hleaf hfind
      dsimp only at hu
      cases hkey : (s.page s.rootPage).leafLookup key with
      | none =>
        rw [hkey] at hu
        cases hu
        exact iff_of_true (.of_nested (by simp [Nested])) ⟨hleaf, hkey⟩
      | some rid =>
        rw [hkey] at hu
        cases hu
        refine iff_of_false (fun h => ?_) fun h => ?_
        · -- the record id is read without a pin
          have := h.covered
          simp [Covered, PinEvent.apply] at this
        · rw [h.2] at hkey
          cases hkey
    · refine iff_of_false ?_ fun h => hleaf h.1
      dsimp only at hu
      cases hkey : (s.page p).leafLookup key with
      | none =>
        rw [hkey] at hu
        cases hu
        exact not_returnsPins_search hleaf hfind rfl
      | some rid =>
        rw [hkey] at hu
        cases hu
        exact not_returnsPins_search hleaf hfind rfl
  | isKeyExist key =>
    obtain ⟨⟨r, u⟩, hu, rfl⟩ := map_eq_ok.mp hcall
    obtain ⟨⟨p, t⟩, hfind, hu⟩ := bind_eq_ok.mp hu
    cases hu
    by_cases hleaf : (s.page s.rootPage).isLeaf = true
    · obtain ⟨rfl, rfl⟩ := findLeafPagePins_leaf hleaf hfind
      exact iff_of_true (.of_nested (by simp [Nested])) hleaf
    · exact iff_of_false (not_returnsPins_search hleaf hfind rfl) hleaf
  | lowerBound key =>
    obtain ⟨⟨r, u⟩, hu, rfl⟩ := map_eq_ok.mp hcall
    obtain ⟨⟨p, t⟩, hfind, hu⟩ := bind_eq_ok.mp hu
    cases hu
    by_cases hleaf : (s.page s.rootPage).isLeaf = true
    · obtain ⟨rfl, rfl⟩ := findLeafPagePins_leaf hleaf hfind
      exact iff_of_true (.of_nested (by simp [Nested])) hleaf
    · exact iff_of_false (not_returnsPins_search hleaf hfind rfl) hleaf
  | upperBound key =>
    obtain ⟨⟨r, u⟩, hu, rfl⟩ := map_eq_ok.mp hcall
    obtain ⟨⟨p, t⟩, hfind, hu⟩ := bind_eq_ok.mp hu
    by_cases hleaf : (s.page s.rootPage).isLeaf = true
    · obtain ⟨rfl, rfl⟩ := findLeafPagePins_leaf hleaf hfind
      refine iff_of_true (.of_nested ?_) hleaf
      dsimp only at hu
      split at hu
      · cases hu
        simp [leafEndPins, Nested]
      · cases hu
        simp [Nested]
    · refine iff_of_false ?_ hleaf
      dsimp only at hu
      split at hu
      · cases hu
        rw [List.append_assoc, List.append_assoc]
        exact not_returnsPins_search hleaf hfind rfl
      · cases hu
        exact not_returnsPins_search hleaf hfind rfl
  | insertEntry key value =>
    obtain ⟨⟨r, u⟩, hu, rfl⟩ := map_eq_ok.mp hcall
    by_cases hleaf : (s.page s.rootPage).isLeaf = true
    · exact iff_of_true (returnsPins_insert hroot hleaf hu) hleaf
    · exact iff_of_false (not_returnsPins_insert hleaf hu) hleaf
  | next c =>
    obtain ⟨⟨r, u⟩, hu, rfl⟩ := map_eq_ok.mp hcall
    obtain ⟨c', -, hu⟩ := bind_eq_ok.mp hu
    cases hu
    exact iff_of_false (fun h => absurd (excess_eq_zero h.balanced) (by simp)) id
  | rid c =>
    cases hcall
    unfold getRidPins
    dsimp only
    split
    · rename_i hslot
      exact iff_of_true (.of_nested (by simp [Nested])) hslot
    · rename_i hslot
      refine iff_of_false (fun h => ?_) hslot
      have := h.covered
      simp [Covered, PinEvent.apply] at this

end Calls

/-- The theorem for the insertion that splits the root of a tree which is a single leaf. -/
theorem returnsPins_seventh_key : ∃ (s : IxIndexHandle (IxKey [(.string, 512)])) (t : List (PinEvent Int)),
    (create 6).insertEntries (charKeys 6) = .ok s ∧
      (IndexCall.insertEntry (charKey 6) ⟨1, 6⟩).events s = .ok t ∧ .write 4 ∈ t ∧
      (ReturnsPins t ↔ (IndexCall.insertEntry (charKey 6) ⟨1, 6⟩).StaysOnRoot s) := by
  have hrun : ((create 6).insertEntries (charKeys 6)).toOption.map (fun s => decide (
      (s.page s.rootPage).isRootPage = true ∧
      ((IndexCall.insertEntry (charKey 6) ⟨1, 6⟩).events s).toOption.map
        (fun t => decide (.write 4 ∈ t)) = some true)) = some true := by
    decide +kernel
  obtain ⟨s, hs, heq⟩ := toOption_map_eq_some.mp hrun
  rw [decide_eq_true_eq] at heq
  obtain ⟨t, ht, hmem⟩ := toOption_map_eq_some.mp heq.2
  exact ⟨s, t, hs, ht, of_decide_eq_true hmem, returnsPins_iff s heq.1 _ t ht⟩

/-- **A lookup takes the pin of somebody else**: in a tree of seven keys, where each page is pinned once,
    `get_value` leaves the root without a pin. -/
theorem unpins_twice : ∃ (s : IxIndexHandle (IxKey [(.string, 512)])) (t : List (PinEvent Int)),
    (create 6).insertEntries (charKeys 7) = .ok s ∧ (s.page s.rootPage).isRootPage = true ∧
      (IndexCall.getValue (charKey 3)).events s = .ok t ∧ ¬ ReturnsPins t ∧
      pinsAfter (fun _ => 1) t s.rootPage = 0 := by
  have hrun : ((create 6).insertEntries (charKeys 7)).toOption.map (fun s => decide (
      (s.page s.rootPage).isRootPage = true ∧
      ((IndexCall.getValue (charKey 3)).events s).toOption.map
        (fun t => decide (pinsAfter (fun _ => 1) t s.rootPage = 0)) = some true)) = some true := by
    decide +kernel
  obtain ⟨s, hs, heq⟩ := toOption_map_eq_some.mp hrun
  rw [decide_eq_true_eq] at heq
  obtain ⟨t, ht, hpins⟩ := toOption_map_eq_some.mp heq.2
  have hzero := of_decide_eq_true hpins
  refine ⟨s, t, hs, heq.1, ht, fun h => ?_, hzero⟩
  rw [h.kept] at hzero
  cases hzero

end IxIndexHandle

end Rmdb
