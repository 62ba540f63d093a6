import Rmdb.Index.BTree
import Rmdb.Index.IxCompare
import Rmdb.Lib.Transition

namespace Rmdb

open Lib Std

namespace IxIndexHandle

/-!
# Runs of `insert_entry` on a fresh index

* `createIndex` — `IxManager::create_index`, and the index opened;
* `insertEntries` — a sequence of insertions;
* `insertEntries_btree` — after each of them the index is a B+ tree, and `get_value` finds the first
  record id inserted under a key;
* `getValue_nan` — a NaN is found although it was never inserted.
-/

section Runs

variable {K : Type} [Inhabited K]

/-- `IxManager::create_index`, and the index opened. -/
def createIndex (cols : List IxCol) : Except IxError (IxIndexHandle K) :=
  let len := colTotLen cols
  if ixMaxColLen < len then .error (.rmdbError s!"Invalid column length: {len}")
  else if orderOf len ≤ 2 then .error .assertion
  else .ok (create (orderOf len))

theorem createIndex_ok {cols : List IxCol} {s : IxIndexHandle K} (h : createIndex cols = .ok s) :
    ∃ btreeOrder, 3 ≤ btreeOrder ∧ s = create btreeOrder := by
  unfold createIndex at h
  dsimp only at h
  split at h
  · cases h
  · split at h
    · cases h
    · cases h
      exact ⟨_, by omega, rfl⟩

/-- `create_index` succeeds on keys that are not too long. -/
theorem createIndex_eq {cols : List IxCol} (h : colTotLen cols ≤ ixMaxColLen) :
    (createIndex cols : Except IxError (IxIndexHandle K)) = .ok (create (orderOf (colTotLen cols))) := by
  unfold createIndex
  dsimp only
  rw [if_neg (Nat.not_lt.mpr h), if_neg]
  unfold orderOf pageSize ixPageHdrSize
  unfold ixMaxColLen at h
  have hdiv : (4096 - 24) / (512 + 8) ≤ (4096 - 24) / (colTotLen cols + 8) :=
    Nat.div_le_div_left (by omega) (by omega)
  omega

variable [Ord K] [DecidableEq K]

/-- `insert_entry` for each pair of a list. -/
def insertEntries (s : IxIndexHandle K) (ops : List (K × Rid)) : Except IxError (IxIndexHandle K) :=
  ops.foldlM (fun s op => (s.insertEntry op.1 op.2).map Prod.snd) s

/-! ### The record of calls only grows -/

section Calls

variable {s s' : IxIndexHandle K}

omit [Inhabited K] [Ord K] in
theorem insertCalls_maintainParent {fuel : Nat} {p : Int} (h : maintainParent fuel s p = .ok s') :
    s'.insertCalls = s.insertCalls := by
  induction fuel generalizing s p with
  | zero => cases h
  | succ fuel ih =>
    rw [maintainParent] at h
    split at h
    · cases h
      rfl
    · obtain ⟨rank, -, h⟩ := bind_eq_ok.mp h
      split at h
      · cases h
        rfl
      · dsimp only at h
        rw [ih h]
        rfl

omit [Ord K] [DecidableEq K] in
theorem insertCalls_split (s : IxIndexHandle K) (p : Int) :
    (s.split p).2.insertCalls = s.insertCalls := by
  have hloop : ∀ (l : List Nat) (q : Int) (t : IxIndexHandle K),
      (l.foldl (fun s i => s.maintainChild q i) t).insertCalls = t.insertCalls := by
    intro l q
    induction l with
    | nil => exact fun _ => rfl
    | cons i l ih =>
      intro t
      rw [List.foldl_cons, ih]
      unfold maintainChild
      split <;> rfl
  unfold split
  dsimp only
  split
  · split <;> rfl
  · dsimp only
    rw [hloop]
    rfl

omit [DecidableEq K] in
theorem insertCalls_insertIntoParent {fuel : Nat} {p q : Int}
    (h : insertIntoParent fuel s p q = .ok s') : s.insertCalls ⊆ s'.insertCalls := by
  induction fuel generalizing s s' p q with
  | zero => cases h
  | succ fuel ih =>
    rw [insertIntoParent] at h
    split at h
    · cases h
      exact List.Subset.refl _
    · dsimp only at h
      split at h
      · obtain ⟨s₁, hs₁, h⟩ := bind_eq_ok.mp h
        have hsub := ih hs₁
        rw [insertCalls_split] at hsub
        cases h
        have hcalls : s.insertCalls ⊆ s₁.insertCalls :=
          fun c hc => hsub (List.mem_append_left _ hc)
        split <;> exact hcalls
      · cases h
        exact List.subset_append_left _ _

theorem insertCalls_insertEntry {k : K} {v : Rid} {p : Int} (h : s.insertEntry k v = .ok (p, s')) :
    s.insertCalls ⊆ s'.insertCalls := by
  unfold insertEntry at h
  obtain ⟨q, -, h⟩ := bind_eq_ok.mp h
  obtain ⟨s₁, hs₁, h⟩ := bind_eq_ok.mp h
  have hcalls := insertCalls_maintainParent hs₁
  have hsub : s.insertCalls ⊆ s₁.insertCalls := by
    rw [hcalls]
    exact List.subset_append_left _ _
  split at h
  · obtain ⟨s₂, hs₂, h⟩ := bind_eq_ok.mp h
    have hsub₂ : (s₁.split q).2.insertCalls ⊆ s₂.insertCalls := insertCalls_insertIntoParent hs₂
    rw [insertCalls_split] at hsub₂
    cases h
    have hcalls₂ : s.insertCalls ⊆ s₂.insertCalls := fun c hc => hsub₂ (hsub hc)
    split <;> exact hcalls₂
  · cases h
    exact hsub

end Calls

/-! ### Runs -/

theorem insertEntries_snoc {s s' : IxIndexHandle K} {ops : List (K × Rid)} {op : K × Rid} :
    s.insertEntries (ops ++ [op]) = .ok s' ↔
      ∃ s₁ p, s.insertEntries ops = .ok s₁ ∧ s₁.insertEntry op.1 op.2 = .ok (p, s') := by
  unfold insertEntries
  rw [foldlM_snoc_eq_ok]
  refine exists_congr fun s₁ => ?_
  constructor
  · rintro ⟨hrun, hop⟩
    cases hins : s₁.insertEntry op.1 op.2 with
    | error e =>
      rw [hins] at hop
      cases hop
    | ok r =>
      rw [hins] at hop
      cases hop
      exact ⟨r.1, hrun, rfl⟩
  · rintro ⟨p, hrun, hop⟩
    refine ⟨hrun, ?_⟩
    rw [hop]
    rfl

variable [TransOrd K]

/-- **The invariant along a run**, and what the tree contains if the calls on the leaves add their
    pairs, too. -/
theorem tree_insertEntries_inner {btreeOrder : Nat} (horder : 3 ≤ btreeOrder) {ops : List (K × Rid)}
    {s : IxIndexHandle K} (hrun : (create btreeOrder).insertEntries ops = .ok s)
    (hinner : InnerCallsAdd s) : ∃ leaves levels, Tree s leaves levels ∧
      (CallsAdd s → ∀ k, lookup k (s.contents leaves) = lookup k ops) := by
  induction ops using List.reverseRecOn generalizing s with
  | nil =>
    cases hrun
    exact ⟨[2], [], tree_create horder, fun _ _ => rfl⟩
  | append_singleton ops op ih =>
    obtain ⟨s₁, p, hrun₁, hop⟩ := insertEntries_snoc.mp hrun
    have hsub := insertCalls_insertEntry hop
    obtain ⟨leaves, levels, htree, hlook⟩ := ih hrun₁ fun c hc => hinner c (hsub hc)
    obtain ⟨p', s', hop', -, hspec⟩ := insertEntry_spec htree op.1 op.2
    rw [hop] at hop'
    cases hop'
    obtain ⟨leaves', levels', htree', hins⟩ := hspec hinner
    refine ⟨leaves', levels', htree', fun hcalls k => ?_⟩
    rw [hins hcalls k, hlook (fun c hc => hcalls c (hsub hc)) k, lookup_append, lookup_cons, lookup_nil]

theorem tree_insertEntries {btreeOrder : Nat} (horder : 3 ≤ btreeOrder) {ops : List (K × Rid)}
    {s : IxIndexHandle K} (hrun : (create btreeOrder).insertEntries ops = .ok s)
    (hcalls : CallsAdd s) : ∃ leaves levels, Tree s leaves levels ∧
      ∀ k, lookup k (s.contents leaves) = lookup k ops := by
  obtain ⟨leaves, levels, htree, hlook⟩ := tree_insertEntries_inner horder hrun hcalls.inner
  exact ⟨leaves, levels, htree, hlook hcalls⟩

end Runs

/-- **Insertions keep a B+ tree.** After every call of a sequence in which the calls of
    `IxNodeHandle::insert` add their pairs, the index is a B+ tree, `get_value` returns the first
    record id that was inserted under a key, and the next insertion ends. -/
theorem insertEntries_btree (cols : List IxCol) (s₀ s : IxIndexHandle (IxKey cols))
    (hcreate : createIndex cols = .ok s₀) (ops : List (IxKey cols × Rid))
    (hrun : s₀.insertEntries ops = .ok s) (hcalls : CallsAdd s) :
    IsBTree s ∧ (∀ k, s.getValue k = .ok (lookup k ops)) ∧
      ∀ k v, ∃ p s', s.insertEntry k v = .ok (p, s') := by
  obtain ⟨btreeOrder, horder, rfl⟩ := createIndex_ok hcreate
  obtain ⟨leaves, levels, htree, hlook⟩ := tree_insertEntries horder hrun hcalls
  refine ⟨htree.isBTree, fun k => ?_, fun k v => ?_⟩
  · rw [htree.getValue_eq, hlook]
  · obtain ⟨p, s', hins, -⟩ := insertEntry_spec htree k v
    exact ⟨p, s', hins⟩

/-- A key of an `INT` index. -/
def intKey (n : Nat) : IxKey [(.int, 4)] :=
  ⟨leBytes n 4, rfl, ⟨fun h => (by cases h), trivial⟩⟩

/-- The theorem at the insertion of 7 and 5, and of 7 again. -/
theorem insertEntries_btree_seven_five : ∃ s, (create 338).insertEntries
      [(intKey 7, ⟨1, 0⟩), (intKey 5, ⟨1, 1⟩), (intKey 7, ⟨1, 2⟩)] = .ok s ∧
    IsBTree s ∧ s.getValue (intKey 7) = .ok (some ⟨1, 0⟩) := by
  have hcalls : ∀ s, (create 338).insertEntries
      [(intKey 7, ⟨1, 0⟩), (intKey 5, ⟨1, 1⟩), (intKey 7, ⟨1, 2⟩)] = .ok s → CallsAdd s := by
    intro s hs
    cases hs
    decide +kernel
  obtain ⟨s, hs⟩ : ∃ s, (create 338).insertEntries
      [(intKey 7, ⟨1, 0⟩), (intKey 5, ⟨1, 1⟩), (intKey 7, ⟨1, 2⟩)] = .ok s := ⟨_, rfl⟩
  have h := insertEntries_btree [(.int, 4)] (create 338) s rfl _ hs (hcalls s hs)
  exact ⟨s, hs, h.1, h.2.1 (intKey 7)⟩

/-- A key of a `FLOAT` index. -/
def floatKey (bytes : List UInt8) : RawKey [(.float, 4)] := ⟨bytes⟩

/-- **A NaN that was never inserted is found.** After 2.0 and 1.0, `get_value` of a NaN returns the
    record id of 1.0, which is not even the first one whose key compares equal. -/
theorem getValue_nan : ∃ s₀ s : IxIndexHandle (RawKey [(.float, 4)]),
    createIndex [(.float, 4)] = .ok s₀ ∧
    s₀.insertEntries [(floatKey [0, 0, 0, 0x40], ⟨1, 0⟩), (floatKey [0, 0, 0x80, 0x3F], ⟨1, 1⟩)] =
      .ok s ∧ CallsAdd s ∧
    s.getValue (floatKey [0, 0, 0xC0, 0x7F]) = .ok (some ⟨1, 1⟩) ∧
    lookup (floatKey [0, 0, 0xC0, 0x7F])
      [(floatKey [0, 0, 0, 0x40], ⟨1, 0⟩), (floatKey [0, 0, 0x80, 0x3F], ⟨1, 1⟩)] =
        some (⟨1, 0⟩ : Rid) := by
  refine ⟨_, _, rfl, rfl, ?_, rfl, rfl⟩
  decide +kernel

end IxIndexHandle

end Rmdb
