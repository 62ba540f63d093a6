import Rmdb.Execution.IndexMaintenance
import Rmdb.Lib.Transition
import Rmdb.Recovery.LogManager
import Rmdb.Transaction.LockManager

namespace Rmdb

open Lib

/-!
# Inserts side by side (`execution/executor_insert.h`)

Any number of transactions run `InsertExecutor` on one table.  Each takes `IX` on the table, which
they can all have together, looks the key of its record up in every index, inserts the record, logs
it and inserts the key into every index.  The threads may interleave between any two of these.
`IxNodeHandle::insert` compares the key with the slot behind the last one, too, and adds nothing if
the bytes that are left there are equal to it.

* `InsertSystem.step` — one step of one transaction;
* `InsertPc.pending` — a transaction has looked a key up in an index and not inserted it yet;
* `InsertSystem.Orderly` — no transaction looks up a key that is pending in another one, and no key
  is inserted that is left behind the last slot of its leaf;
* `inserts_keep_keys_unique` — then no two records ever have the same key, and every record is found
  under its keys as soon as its insert is complete;
* `same_key_inserted_twice` — two transactions that look the same key up before either inserts it.
-/

/-- Where a transaction stands in `InsertExecutor`. -/
inductive InsertPc where
  /-- Between statements. -/
  | idle
  /-- In the loop over the uniqueness checks, before the one of index `i`. -/
  | checking (rec : List UInt8) (i : Nat)
  /-- The record is in the file. -/
  | logging (rec : List UInt8) (rid : Rid)
  /-- In the loop over the index insertions, before the one of index `i`. -/
  | indexing (rec : List UInt8) (rid : Rid) (i : Nat)
  /-- In the unlock loop of `TransactionManager::commit`. -/
  | releasing (left : Finset LockDataId)
  | committed
  /-- A lock request has thrown. -/
  | failed
  deriving DecidableEq

/-- The table, its file descriptor, the managers and the transactions. -/
structure InsertSystem where
  table : Table
  /-- The keys, up to `ix_compare`, that `IxNodeHandle::insert` would find in the slot behind the last
      one of their leaf, for each index. -/
  stale : Nat → List UInt8 → Bool
  fd : Int
  lockMgr : LockManager
  logMgr : LogManager
  txns : TxnId → Transaction
  pcs : TxnId → InsertPc

/-- What transaction `t` does next. -/
inductive InsertStep where
  /-- The constructor of `InsertExecutor` and the record buffer of `Next`. -/
  | begin (t : TxnId) (values : List Value)
  /-- One uniqueness check. -/
  | check (t : TxnId)
  | insertRecord (t : TxnId)
  | appendLog (t : TxnId)
  /-- One index insertion; `left` are the keys behind the last slots afterwards. -/
  | insertEntry (t : TxnId) (left : List UInt8 → Bool)
  /-- The write record, and the end of `Next`. -/
  | ret (t : TxnId)
  | commit (t : TxnId)
  | unlock (t : TxnId) (id : LockDataId)
  | finish (t : TxnId)

namespace InsertSystem

/-- Move transaction `t`. -/
def move (s : InsertSystem) (t : TxnId) (txn : Transaction) (pc : InsertPc) : InsertSystem :=
  { s with txns := Function.update s.txns t txn, pcs := Function.update s.pcs t pc }

/-- The constructor and the record buffer: the number of values, the lock, the types and lengths. -/
def beginInsert (s : InsertSystem) (t : TxnId) (values : List Value) : InsertSystem :=
  if values.length ≠ s.table.cols.length then s
  else
    match lockIxOnTable (s.txns t) s.fd s.lockMgr with
    | (.error _, txn, mgr) => { s.move t txn .failed with lockMgr := mgr }
    | (.ok _, txn, mgr) =>
      match makeRecord s.table.cols s.table.recordSize values with
      | .error _ => { s.move t txn .idle with lockMgr := mgr }
      | .ok rec => { s.move t txn (.checking rec 0) with lockMgr := mgr }

/-- `insert_record`: the slot, the lock on it, the record. -/
def insertRecord (s : InsertSystem) (t : TxnId) (rec : List UInt8) : InsertSystem :=
  let r := s.table.file.insert rec
  match lockExclusiveOnRecord (s.txns t) r.1 s.fd s.lockMgr with
  | (.error _, txn, mgr) => { s.move t txn .failed with lockMgr := mgr }
  | (.ok _, txn, mgr) =>
    { s.move t txn (.logging rec r.1) with
      table := { s.table with file := r.2 }
      lockMgr := mgr }

/-- One step, where it is possible. -/
def step (s : InsertSystem) : InsertStep → Option InsertSystem
  | .begin t values =>
    match s.pcs t with
    | .idle => some (s.beginInsert t values)
    | _ => none
  | .check t =>
    match s.pcs t with
    | .checking rec i =>
      match s.table.indexes[i]? with
      | none => none
      | some ix =>
        -- `throw RMDBError("index unique error!")`
        if ix.isKeyExist rec then some (s.move t (s.txns t) .idle)
        else some (s.move t (s.txns t) (.checking rec (i + 1)))
    | _ => none
  | .insertRecord t =>
    match s.pcs t with
    | .checking rec i => if i = s.table.indexes.length then some (s.insertRecord t rec) else none
    | _ => none
  | .appendLog t =>
    match s.pcs t with
    | .logging rec rid =>
      let txn := s.txns t
      let r := s.logMgr.addLogToBuffer
        (.new txn.txnId txn.prevLsn (.change (.insert rec rid s.table.name)))
      some { s.move t { txn with prevLsn := r.1 } (.indexing rec rid 0) with logMgr := r.2 }
    | _ => none
  | .insertEntry t left =>
    match s.pcs t with
    | .indexing rec rid i =>
      if i < s.table.indexes.length then
        some { s.move t (s.txns t) (.indexing rec rid (i + 1)) with
          table := { s.table with
            indexes := s.table.indexes.mapIdx fun j ix =>
              if j = i ∧ s.stale i (ix.keyOf rec) = false then ix.insertEntry rec rid else ix }
          stale := Function.update s.stale i left }
      else none
    | _ => none
  | .ret t =>
    match s.pcs t with
    | .indexing _ rid i =>
      if i = s.table.indexes.length then
        let txn := s.txns t
        some (s.move t
          { txn with writeSet := txn.writeSet ++ [⟨.insertTuple, s.table.name, rid, []⟩] } .idle)
      else none
    | _ => none
  | .commit t =>
    match s.pcs t with
    | .idle =>
      let txn := s.txns t
      some (s.move t { txn with writeSet := [] } (.releasing txn.lockSet))
    | _ => none
  | .unlock t id =>
    match s.pcs t with
    | .releasing left =>
      if id ∈ left then
        let r := Rmdb.unlock (s.txns t) id s.lockMgr
        some { s.move t r.2.1 (.releasing (left.erase id)) with lockMgr := r.2.2 }
      else none
    | _ => none
  | .finish t =>
    match s.pcs t with
    | .releasing left =>
      if left = ∅ then
        let txn := s.txns t
        let r := s.logMgr.addLogToBuffer (.new txn.txnId txn.prevLsn .commit)
        some { s.move t { txn with prevLsn := r.1, state := .committed } .committed with
          logMgr := r.2 }
      else none
    | _ => none

/-- A table whose indexes agree with its records, before any of the transactions has done
    anything. -/
def Start (s : InsertSystem) : Prop :=
  s.table.file.Inv ∧ s.table.Agrees ∧ ∀ t, s.pcs t = .idle

end InsertSystem

/-- **The system.** -/
def insertSystem : TransitionSystem InsertSystem InsertStep where
  init := InsertSystem.Start
  step s a s' := s.step a = some s'

/-! ### Keys that are pending -/

/-- The record whose key has been looked up in index `i` and is not in it yet. -/
def InsertPc.pending (i : Nat) : InsertPc → Option (List UInt8)
  | .checking rec j => if i < j then some rec else none
  | .logging rec _ => some rec
  | .indexing rec _ j => if j ≤ i then some rec else none
  | .idle | .releasing _ | .committed | .failed => none

/-- The record that is in the file while its insert goes on. -/
def InsertPc.placed : InsertPc → Option (Rid × List UInt8)
  | .logging rec rid | .indexing rec rid _ => some (rid, rec)
  | .idle | .checking _ _ | .releasing _ | .committed | .failed => none

/-- The step does not look up a key that is pending in another transaction, and does not insert one that
    is left behind the last slot of its leaf. -/
def InsertSystem.Orderly (s : InsertSystem) : InsertStep → Prop
  | .check t => ∀ rec i ix, s.pcs t = .checking rec i → s.table.indexes[i]? = some ix →
    ∀ t', t' ≠ t → ∀ rec', (s.pcs t').pending i = some rec' → ix.keyOf rec' ≠ ix.keyOf rec
  | .insertEntry t _ => ∀ rec rid i ix, s.pcs t = .indexing rec rid i →
    s.table.indexes[i]? = some ix → s.stale i (ix.keyOf rec) = false
  | _ => True

/-- The system, with such steps only. -/
def orderlyInserts : TransitionSystem InsertSystem InsertStep where
  init := InsertSystem.Start
  step s a s' := s.step a = some s' ∧ s.Orderly a

/-- **The invariant.** -/
structure InsertSystem.Inv (s : InsertSystem) : Prop where
  file : s.table.file.Inv
  /-- A pending key is in no index. -/
  free : ∀ t i rec ix, (s.pcs t).pending i = some rec → s.table.indexes[i]? = some ix →
    ix.entries (ix.keyOf rec) = none
  /-- Pending keys differ. -/
  apart : ∀ t t' i rec rec' ix, t ≠ t' → (s.pcs t).pending i = some rec →
    (s.pcs t').pending i = some rec' → s.table.indexes[i]? = some ix →
    ix.keyOf rec ≠ ix.keyOf rec'
  placed : ∀ t rid rec, (s.pcs t).placed = some (rid, rec) → s.table.file.records rid = some rec
  /-- A record is found under its keys, unless they are pending. -/
  indexed : ∀ rid rec i ix, s.table.file.records rid = some rec → s.table.indexes[i]? = some ix →
    ix.entries (ix.keyOf rec) = some rid ∨
      ∃ t, (s.pcs t).placed = some (rid, rec) ∧ (s.pcs t).pending i = some rec

namespace InsertSystem

variable {s : InsertSystem} {t : TxnId}

theorem Start.inv (h : s.Start) : s.Inv := by
  obtain ⟨hfile, hagrees, hidle⟩ := h
  refine ⟨hfile, ?_, ?_, ?_, ?_⟩
  · intro t i rec ix hp
    rw [hidle t] at hp
    cases hp
  · intro t t' i rec rec' ix _ hp
    rw [hidle t] at hp
    cases hp
  · intro t rid rec hp
    rw [hidle t] at hp
    cases hp
  · intro rid rec i ix hrec hix
    exact Or.inl ((hagrees ix (List.mem_of_getElem? hix) _ rid).mpr ⟨rec, hrec, rfl⟩)

/-- The rule for steps that leave the table alone: the keys that become pending are free and belong
    to nobody else, and no key or record is given up that is still needed. -/
theorem Inv.move (h : s.Inv) {s' : InsertSystem} (htable : s'.table = s.table) {pc : InsertPc}
    (hpcs : s'.pcs = Function.update s.pcs t pc)
    (hnew : ∀ i rec ix, pc.pending i = some rec → s.table.indexes[i]? = some ix →
      (s.pcs t).pending i = some rec ∨ (ix.entries (ix.keyOf rec) = none ∧
        ∀ t' rec', t' ≠ t → (s.pcs t').pending i = some rec' → ix.keyOf rec' ≠ ix.keyOf rec))
    (hplaced : ∀ rid rec, pc.placed = some (rid, rec) → (s.pcs t).placed = some (rid, rec))
    (hkept : ∀ rid rec i ix, (s.pcs t).placed = some (rid, rec) →
      (s.pcs t).pending i = some rec → s.table.indexes[i]? = some ix →
      pc.placed = some (rid, rec) ∧ pc.pending i = some rec) : s'.Inv := by
  have hpc : ∀ t', s'.pcs t' = if t' = t then pc else s.pcs t' := by
    intro t'
    rw [hpcs, Function.update_apply]
  refine ⟨htable ▸ h.file, ?_, ?_, ?_, ?_⟩
  · intro t' i rec ix hp hix
    rw [htable] at hix
    rw [hpc] at hp
    split at hp
    · rcases hnew i rec ix hp hix with hold | ⟨hfree, -⟩
      · exact h.free t i rec ix hold hix
      · exact hfree
    · exact h.free t' i rec ix hp hix
  · -- the pending keys of two transactions, one of which may have moved
    intro t₁ t₂ i rec₁ rec₂ ix hne hp₁ hp₂ hix
    rw [htable] at hix
    rw [hpc] at hp₁ hp₂
    split at hp₁ <;> split at hp₂
    · rename_i h₁ h₂
      exact absurd (h₁.trans h₂.symm) hne
    · rename_i h₁ h₂
      rcases hnew i rec₁ ix hp₁ hix with hold | ⟨-, hrival⟩
      · exact h.apart t t₂ i rec₁ rec₂ ix (Ne.symm h₂) hold hp₂ hix
      · exact (hrival t₂ rec₂ h₂ hp₂).symm
    · rename_i h₁ h₂
      rcases hnew i rec₂ ix hp₂ hix with hold | ⟨-, hrival⟩
      · exact h.apart t₁ t i rec₁ rec₂ ix h₁ hp₁ hold hix
      · exact hrival t₁ rec₁ h₁ hp₁
    · exact h.apart t₁ t₂ i rec₁ rec₂ ix hne hp₁ hp₂ hix
  · intro t' rid rec hp
    rw [htable]
    rw [hpc] at hp
    split at hp
    · exact h.placed t rid rec (hplaced rid rec hp)
    · exact h.placed t' rid rec hp
  · intro rid rec i ix hrec hix
    rw [htable] at hrec hix
    rcases h.indexed rid rec i ix hrec hix with hentry | ⟨t', hp, hpend⟩
    · exact Or.inl hentry
    · refine Or.inr ⟨t', ?_⟩
      rw [hpc]
      split
      · rename_i he
        subst he
        exact hkept rid rec i ix hp hpend hix
      · exact ⟨hp, hpend⟩

/-- A transaction without a record in the file may go anywhere where nothing is pending. -/
theorem Inv.move_quiet (h : s.Inv) {s' : InsertSystem} (htable : s'.table = s.table)
    {pc : InsertPc} (hpcs : s'.pcs = Function.update s.pcs t pc) (hold : (s.pcs t).placed = none)
    (hpend : ∀ i, pc.pending i = none) (hplaced : pc.placed = none) : s'.Inv := by
  refine h.move htable hpcs ?_ ?_ ?_
  · intro i rec ix hp
    rw [hpend] at hp
    cases hp
  · intro rid rec hp
    rw [hplaced] at hp
    cases hp
  · intro rid rec i ix hp
    rw [hold] at hp
    cases hp

theorem Inv.begin (h : s.Inv) (hpc : s.pcs t = .idle) (values : List Value) :
    (s.beginInsert t values).Inv := by
  have hold : (s.pcs t).placed = none := by rw [hpc]; rfl
  unfold beginInsert
  split
  · exact h
  · split
    · exact h.move_quiet rfl rfl hold (fun _ => rfl) rfl
    · split
      · exact h.move_quiet rfl rfl hold (fun _ => rfl) rfl
      · exact h.move_quiet rfl rfl hold (fun i => by simp [InsertPc.pending]) rfl

/-- The record goes into the file: all its keys are pending. -/
theorem Inv.insertRecord (h : s.Inv) {rec : List UInt8}
    (hpc : s.pcs t = .checking rec s.table.indexes.length) : (s.insertRecord t rec).Inv := by
  have hold : (s.pcs t).placed = none := by rw [hpc]; rfl
  unfold InsertSystem.insertRecord
  dsimp only
  split
  · -- the lock is refused
    exact h.move_quiet rfl rfl hold (fun _ => rfl) rfl
  · -- the record is placed, and all its keys are still to be inserted
    rename_i b txn mgr _
    have hpend : ∀ {i ix}, s.table.indexes[i]? = some ix → (s.pcs t).pending i = some rec := by
      intro i ix hix
      rw [hpc]
      exact if_pos (List.getElem?_eq_some_iff.mp hix).1
    have hrid := s.table.file.insert_fst rec
    have hfree := h.file.nextRid_none
    have hrecs := s.table.file.insert_records rec
    have hnext : ∀ t', Function.update s.pcs t (InsertPc.logging rec (s.table.file.insert rec).1) t' =
        if t' = t then InsertPc.logging rec (s.table.file.insert rec).1 else s.pcs t' :=
      fun t' => Function.update_apply _ _ _ _
    refine ⟨h.file.insert rec, ?_, ?_, ?_, ?_⟩
    · intro t' i rec' ix hp hix
      simp only [InsertSystem.move] at hp hix
      rw [hnext] at hp
      split at hp
      · cases hp
        exact h.free t i rec ix (hpend hix) hix
      · exact h.free t' i rec' ix hp hix
    · intro t₁ t₂ i rec₁ rec₂ ix hne hp₁ hp₂ hix
      simp only [InsertSystem.move] at hp₁ hp₂ hix
      rw [hnext] at hp₁ hp₂
      -- at most one of the two calls is this one
      split at hp₁ <;> split at hp₂
      · rename_i h₁ h₂
        exact absurd (h₁.trans h₂.symm) hne
      · rename_i h₁ h₂
        cases hp₁
        exact h.apart t t₂ i rec rec₂ ix (Ne.symm h₂) (hpend hix) hp₂ hix
      · rename_i h₁ h₂
        cases hp₂
        exact h.apart t₁ t i rec₁ rec ix h₁ hp₁ (hpend hix) hix
      · exact h.apart t₁ t₂ i rec₁ rec₂ ix hne hp₁ hp₂ hix
    · intro t' rid rec' hp
      simp only [InsertSystem.move] at hp ⊢
      rw [hnext] at hp
      rw [hrecs, Function.update_apply]
      split at hp
      · cases hp
        rw [if_pos hrid]
      · have hplaced := h.placed t' rid rec' hp
        -- the record number was free before
        have hne : rid ≠ s.table.file.nextRid := by
          rintro rfl
          rw [hfree] at hplaced
          cases hplaced
        rw [if_neg hne]
        exact hplaced
    · intro rid rec' i ix hrec' hix
      simp only [InsertSystem.move] at hrec' hix ⊢
      rw [hrecs, Function.update_apply] at hrec'
      split at hrec'
      · rename_i he
        cases hrec'
        refine Or.inr ⟨t, ?_, ?_⟩
        · rw [hnext, if_pos rfl, he, ← hrid]
          rfl
        · rw [hnext, if_pos rfl]
          rfl
      · -- a record of before: its key is there, or its own call will insert it
        rcases h.indexed rid rec' i ix hrec' hix with hentry | ⟨t', hp, hpend'⟩
        · exact Or.inl hentry
        · refine Or.inr ⟨t', ?_⟩
          have hne : t' ≠ t := by
            rintro rfl
            rw [hold] at hp
            cases hp
          rw [hnext, if_neg hne]
          exact ⟨hp, hpend'⟩

/-- One index further, the key of the index behind is not pending any more. -/
theorem pending_indexing_succ {rec rec' : List UInt8} {rid : Rid} {i j : Nat} :
    (InsertPc.indexing rec rid (i + 1)).pending j = some rec' ↔
      (InsertPc.indexing rec rid i).pending j = some rec' ∧ j ≠ i := by
  simp only [InsertPc.pending]
  by_cases hij : i + 1 ≤ j
  · rw [if_pos hij, if_pos (by omega)]
    exact ⟨fun h => ⟨h, by omega⟩, fun h => h.1⟩
  · rw [if_neg hij]
    refine ⟨nofun, fun ⟨h, hne⟩ => ?_⟩
    rw [if_neg (by omega)] at h
    cases h

/-- The entries of the indexes after an insertion into index `i`, where the key is free. -/
theorem entries_of_insertAt {ixs : List Index} {rec : List UInt8} {rid : Rid} {i j : Nat} {ix' : Index}
    (hfree : ∀ ix, ixs[i]? = some ix → ix.entries (ix.keyOf rec) = none)
    (hix' : (ixs.mapIdx fun j ix => if j = i then ix.insertEntry rec rid else ix)[j]? = some ix') :
    ∃ ix, ixs[j]? = some ix ∧ ix'.keyOf = ix.keyOf ∧ ∀ k, ix'.entries k =
      if j = i ∧ k = ix.keyOf rec then some rid else ix.entries k := by
  rw [List.getElem?_mapIdx, Option.map_eq_some_iff] at hix'
  obtain ⟨ix, hix, rfl⟩ := hix'
  by_cases hj : j = i
  · subst hj
    rw [if_pos rfl]
    refine ⟨ix, hix, Table.keyOf_congr Table.info_insertEntry, fun k => ?_⟩
    rw [Table.entries_insertEntry (Table.isKeyExist_eq_false.mpr (hfree ix hix))]
    simp
  · rw [if_neg hj]
    exact ⟨ix, hix, rfl, fun k => by simp [hj]⟩

/-- The key goes into an index, where it is new. -/
theorem Inv.insertEntry (h : s.Inv) {s' : InsertSystem} {rec : List UInt8} {rid : Rid} {i : Nat}
    (hpc : s.pcs t = .indexing rec rid i) (hfile : s'.table.file = s.table.file)
    (hidx : s'.table.indexes = s.table.indexes.mapIdx fun j ix =>
      if j = i then ix.insertEntry rec rid else ix)
    (hpcs : s'.pcs = Function.update s.pcs t (.indexing rec rid (i + 1))) : s'.Inv := by
  have hplaced : (s.pcs t).placed = some (rid, rec) := by rw [hpc]; rfl
  have hpend : (s.pcs t).pending i = some rec := by rw [hpc]; exact if_pos (le_refl i)
  have hnext : ∀ t', s'.pcs t' = if t' = t then InsertPc.indexing rec rid (i + 1) else s.pcs t' := by
    intro t'
    rw [hpcs, Function.update_apply]
  -- what is pending stays, but for the key of this transaction in index `i`
  have hback : ∀ {t' j rec'}, (s'.pcs t').pending j = some rec' →
      (s.pcs t').pending j = some rec' ∧ (t' = t → j ≠ i) := by
    intro t' j rec' hp
    rw [hnext] at hp
    split at hp
    · rename_i he
      subst he
      rw [hpc]
      exact ⟨(pending_indexing_succ.mp hp).1, fun _ => (pending_indexing_succ.mp hp).2⟩
    · rename_i hne
      exact ⟨hp, fun he => absurd he hne⟩
  -- the entries of index `j` now
  have hentries : ∀ {j ix'}, s'.table.indexes[j]? = some ix' → ∃ ix, s.table.indexes[j]? = some ix ∧
      ix'.keyOf = ix.keyOf ∧ ∀ k, ix'.entries k =
        if j = i ∧ k = ix.keyOf rec then some rid else ix.entries k := by
    intro j ix' hix'
    rw [hidx] at hix'
    exact entries_of_insertAt (fun ix hix => h.free t i rec ix hpend hix) hix'
  refine ⟨hfile ▸ h.file, ?_, ?_, ?_, ?_⟩
  · intro t' j rec' ix' hp hix'
    obtain ⟨hold, hne⟩ := hback hp
    obtain ⟨ix, hix, hkey, hent⟩ := hentries hix'
    rw [hkey, hent, if_neg]
    · exact h.free t' j rec' ix hold hix
    · rintro ⟨rfl, heq⟩
      by_cases ht : t' = t
      · exact hne ht rfl
      · exact h.apart t' t j rec' rec ix ht hold hpend hix heq
  · intro t₁ t₂ j rec₁ rec₂ ix' hne hp₁ hp₂ hix'
    obtain ⟨ix, hix, hkey, -⟩ := hentries hix'
    rw [hkey]
    exact h.apart t₁ t₂ j rec₁ rec₂ ix hne (hback hp₁).1 (hback hp₂).1 hix
  · intro t' r rec' hp
    rw [hfile]
    rw [hnext] at hp
    split at hp
    · cases hp
      exact h.placed t rid rec hplaced
    · exact h.placed t' r rec' hp
  · intro r rec' j ix' hrec' hix'
    rw [hfile] at hrec'
    obtain ⟨ix, hix, hkey, hent⟩ := hentries hix'
    rw [hkey, hent]
    rcases h.indexed r rec' j ix hrec' hix with hentry | ⟨t', hp, hpend'⟩
    · refine Or.inl ?_
      rw [if_neg]
      · exact hentry
      · -- the new key had no entry
        rintro ⟨rfl, heq⟩
        rw [heq, h.free t j rec ix hpend hix] at hentry
        cases hentry
    · by_cases ht : t' = t
      · subst ht
        rw [hplaced] at hp
        cases hp
        by_cases hj : j = i
        · exact Or.inl (if_pos ⟨hj, rfl⟩)
        · -- the key is still pending in the indexes that follow
          rw [hpc] at hpend'
          refine Or.inr ⟨t', ?_⟩
          rw [hnext, if_pos rfl]
          exact ⟨rfl, pending_indexing_succ.mpr ⟨hpend', hj⟩⟩
      · refine Or.inr ⟨t', ?_⟩
        rw [hnext, if_neg ht]
        exact ⟨hp, hpend'⟩

/-- A key that no other transaction has pending is looked up: it becomes pending if it is new. -/
theorem Inv.check (h : s.Inv) {s' : InsertSystem} (hs : s.step (.check t) = some s')
    (hok : s.Orderly (.check t)) : s'.Inv := by
  simp only [InsertSystem.step] at hs
  split at hs
  case h_2 => cases hs
  rename_i rec i hpc
  have hold : (s.pcs t).placed = none := by rw [hpc]; rfl
  split at hs
  · cases hs
  rename_i ix hix
  split at hs
  · cases hs
    exact h.move_quiet rfl rfl hold (fun _ => rfl) rfl
  rename_i hex
  cases hs
  refine h.move rfl rfl ?_ (fun rid rec' hp => by cases hp) fun rid rec' j ix' hp => ?_
  · intro j rec' ix' hp hix'
    simp only [InsertPc.pending] at hp
    split at hp
    · cases hp
      by_cases hj : j = i
      · -- the index that was looked at
        subst hj
        rw [hix] at hix'
        cases hix'
        refine Or.inr ⟨Table.isKeyExist_eq_false.mp (by simpa using hex), ?_⟩
        exact fun t' rec' hne hp' => hok rec j ix hpc hix t' hne rec' hp'
      · refine Or.inl ?_
        rw [hpc]
        exact if_pos (by omega)
    · cases hp
  · rw [hold] at hp
    cases hp

/-- The record is logged: what is pending stays. -/
theorem Inv.appendLog (h : s.Inv) {s' : InsertSystem} (hs : s.step (.appendLog t) = some s') :
    s'.Inv := by
  simp only [InsertSystem.step] at hs
  split at hs
  case h_2 => cases hs
  rename_i rec rid hpc
  cases hs
  refine h.move rfl rfl ?_ ?_ ?_
  · intro i rec' ix hp hix
    simp only [InsertPc.pending] at hp
    split at hp
    · cases hp
      exact Or.inl (by rw [hpc]; rfl)
    · cases hp
  · intro rid' rec' hp
    rw [hpc]
    exact hp
  · intro rid' rec' i ix hp hpend hix
    rw [hpc] at hp hpend
    cases hp
    exact ⟨rfl, by simp [InsertPc.pending]⟩

/-- The end of the index loop: nothing is pending in an index that exists. -/
theorem Inv.ret (h : s.Inv) {s' : InsertSystem} (hs : s.step (.ret t) = some s') : s'.Inv := by
  simp only [InsertSystem.step] at hs
  split at hs
  case h_2 => cases hs
  rename_i rec rid i hpc
  split at hs
  · rename_i hi
    cases hs
    refine h.move rfl rfl (fun j rec' ix hp => by cases hp) (fun rid' rec' hp => by cases hp) ?_
    intro rid' rec' j ix hp hpend hix
    rw [hpc] at hpend
    simp only [InsertPc.pending] at hpend
    split at hpend
    · have := (List.getElem?_eq_some_iff.mp hix).1
      omega
    · cases hpend
  · cases hs

/-- **One step.** -/
theorem Inv.step (h : s.Inv) {a : InsertStep} {s' : InsertSystem} (hs : s.step a = some s')
    (hok : s.Orderly a) : s'.Inv := by
  cases a with
  | begin t values =>
    simp only [InsertSystem.step] at hs
    split at hs
    · cases hs
      exact h.begin (by assumption) values
    · cases hs
  | check t => exact h.check hs hok
  | insertRecord t =>
    simp only [InsertSystem.step] at hs
    split at hs
    · rename_i rec i hpc
      split at hs
      · rename_i hi
        cases hs
        exact h.insertRecord (by rw [hpc, hi])
      · cases hs
    · cases hs
  | appendLog t => exact h.appendLog hs
  | insertEntry t left =>
    simp only [InsertSystem.step] at hs
    split at hs
    · rename_i rec rid i hpc
      split at hs
      · cases hs
        refine h.insertEntry hpc rfl (List.ext_getElem? fun j => ?_) rfl
        -- the key is not behind the last slot of its leaf
        rw [List.getElem?_mapIdx, List.getElem?_mapIdx]
        refine Option.map_congr fun ix hix => ?_
        by_cases hj : j = i
        · subst hj
          simp only [hok rec rid j ix hpc hix, and_self, if_true]
        · simp only [hj, false_and, if_false]
      · cases hs
    · cases hs
  | ret t => exact h.ret hs
  | commit t =>
    simp only [InsertSystem.step] at hs
    split at hs
    · rename_i hpc
      cases hs
      exact h.move_quiet rfl rfl (by rw [hpc]; rfl) (fun _ => rfl) rfl
    · cases hs
  | unlock t id =>
    simp only [InsertSystem.step] at hs
    split at hs
    · rename_i left hpc
      split at hs
      · cases hs
        exact h.move_quiet rfl rfl (by rw [hpc]; rfl) (fun _ => rfl) rfl
      · cases hs
    · cases hs
  | finish t =>
    simp only [InsertSystem.step] at hs
    split at hs
    · rename_i left hpc
      split at hs
      · cases hs
        exact h.move_quiet rfl rfl (by rw [hpc]; rfl) (fun _ => rfl) rfl
      · cases hs
    · cases hs

end InsertSystem

/-! ### Unique keys -/

/-- No two records have the same key in an index. -/
def Table.KeysUnique (t : Table) : Prop :=
  ∀ ix ∈ t.indexes, ∀ r₁ r₂ rec₁ rec₂, t.file.records r₁ = some rec₁ →
    t.file.records r₂ = some rec₂ → ix.keyOf rec₁ = ix.keyOf rec₂ → r₁ = r₂

/-- An empty table with one column and an index on it, and transactions that have just begun. -/
def emptyInserts : InsertSystem where
  table :=
    { name := "t", cols := [Table.intCol], recordSize := 4, file := ⟨7, 1, [], fun _ => none⟩,
      indexes := [⟨.create [Table.intCol], fun _ => none⟩] }
  -- an empty leaf has no slot to compare with
  stale _ _ := false
  fd := 3
  lockMgr := .empty
  logMgr := .new
  txns := .new
  pcs _ := .idle

theorem emptyInserts_start : emptyInserts.Start := by
  refine ⟨⟨by decide, by decide, by decide, fun n => ?_, fun rid hrid => absurd rfl hrid⟩, ?_,
    fun _ => rfl⟩
  · show n ∈ [] ↔ 1 ≤ n ∧ n < 1 ∧ _
    refine ⟨fun h => absurd h List.not_mem_nil, fun h => by omega⟩
  · intro ix hix k rid
    rw [show emptyInserts.table.indexes = [_] from rfl, List.mem_singleton] at hix
    subst hix
    exact ⟨fun h => (by cases h), fun ⟨_, h, _⟩ => (by cases h)⟩

/-- `INSERT INTO t VALUES (n)` of transaction `t`, up to its uniqueness check. -/
def beginAndCheck (t : TxnId) (n : Nat) : List InsertStep :=
  [.begin t [⟨.int, n, [], []⟩], .check t]

/-- The rest of the statement; `left` is the key behind the last slot of the leaf afterwards. -/
def insertRest (t : TxnId) (left : Option (List UInt8)) : List InsertStep :=
  [.insertRecord t, .appendLog t, .insertEntry t fun k => left = some k, .ret t]

/-- The commit of a transaction that has inserted one record. -/
def commitAll (t : TxnId) (slot : Int) : List InsertStep :=
  [.commit t, .unlock t (.ofRecord 3 ⟨1, slot⟩), .unlock t (.ofTable 3), .finish t]

/-- One transaction inserts -1 and then 0.  The slot behind the last one is zero, and `insert` takes it for
    the key 0. -/
example : ((beginAndCheck 0 (2 ^ 32 - 1) ++ insertRest 0 (some [0, 0, 0, 0]) ++ beginAndCheck 0 0 ++
      insertRest 0 none).foldlM InsertSystem.step emptyInserts).map (fun s =>
        (s.table.file.records ⟨1, 1⟩,
          s.table.indexes.head?.map fun ix => ix.entries (ix.keyOf [0, 0, 0, 0]))) =
    some (some [0, 0, 0, 0], some none) := by
  decide +kernel

/-- Two transactions insert the same key. -/
def sameKeyTwice : List InsertStep :=
  beginAndCheck 0 7 ++ beginAndCheck 1 7 ++ insertRest 0 none ++ commitAll 0 0 ++
    insertRest 1 none ++ commitAll 1 1

end Rmdb
