import Mathlib.Data.List.Perm.Basic
import Rmdb.Lib.Transition
import Rmdb.Transaction.LockManager

namespace Rmdb

open Lib

/-!
# The lock manager implements the compatibility matrix

The lock functions decide from a cached group mode and from a few counts.  This file shows that in
every reachable state the cache is the supremum of the modes in the queue (`QueueInv`), so that
each of these tests is the comparison with every other holder that it stands for:

* `DecisionOk` is what a decision has to be, and `*_ok` shows it for each of the six functions;
* `lockOn_inv` and `lockOn_grant` carry it through the shared frame;
* `unlock_inv` — the recomputed group mode is again the supremum;
* `reachable_inv` assembles the invariant over every interleaving.
-/

/-! ### The queue of one lock -/

/-- The invariant of a request queue. -/
structure QueueInv (reqs : List LockRequest) (group : GroupLockMode) : Prop where
  /-- At most one request per transaction. -/
  nodup : (reqs.map LockRequest.txnId).Nodup
  /-- The modes of different transactions are compatible. -/
  compat : ∀ a ∈ reqs, ∀ b ∈ reqs, a.txnId ≠ b.txnId →
    a.lockMode.compatible b.lockMode = true
  /-- The group mode is the least upper bound of the modes in the queue. -/
  lub : IsLUB {g | ∃ r ∈ reqs, r.lockMode.toGroup = g} group

/-- An empty queue has no group mode. -/
theorem QueueInv.empty : QueueInv [] .nonLock where
  nodup := by simp
  compat := by simp
  lub := by
    have h : {g : GroupLockMode | ∃ r ∈ ([] : List LockRequest), r.lockMode.toGroup = g} = ∅ := by
      simp
    rw [h]
    exact isLUB_empty

/-- The group mode is below a bound iff every request is. -/
theorem QueueInv.group_le_iff {reqs : List LockRequest} {group : GroupLockMode}
    (h : QueueInv reqs group) (g : GroupLockMode) :
    group ≤ g ↔ ∀ r ∈ reqs, r.lockMode.toGroup ≤ g := by
  rw [isLUB_le_iff h.lub]
  constructor
  · intro hg r hr
    exact hg ⟨r, hr, rfl⟩
  · rintro hg _ ⟨r, hr, rfl⟩
    exact hg r hr

/-- `NON_LOCK` means that the queue is empty. -/
theorem QueueInv.nonLock_iff {reqs : List LockRequest} {group : GroupLockMode}
    (h : QueueInv reqs group) : group = .nonLock ↔ reqs = [] := by
  constructor
  · intro hg
    have hle := (h.group_le_iff .nonLock).mp (le_of_eq hg)
    rw [List.eq_nil_iff_forall_not_mem]
    intro r hr
    exact r.lockMode.toGroup_ne_nonLock (le_bot_iff.mp (hle r hr))
  · rintro rfl
    exact le_bot_iff.mp ((h.group_le_iff .nonLock).mpr (by simp))

/-! ### The request of one transaction -/

/-- The transaction holds nothing: no request in the queue is its own. -/
theorem modeOf_none {q : LockRequestQueue} {t : TxnId} (h : q.modeOf t = none) :
    ∀ r ∈ q.requestQueue, r.txnId ≠ t := by
  intro r hr hrt
  rw [LockRequestQueue.modeOf, Option.map_eq_none_iff, List.find?_eq_none] at h
  exact h r hr (by simp [hrt])

/-- The transaction holds `own`: the queue splits at its one request. -/
theorem modeOf_some {q : LockRequestQueue} {t : TxnId} {own : LockMode} (h : q.modeOf t = some own)
    (hnd : (q.requestQueue.map LockRequest.txnId).Nodup) :
    ∃ l₁ r l₂, q.requestQueue = l₁ ++ r :: l₂ ∧ r.txnId = t ∧ r.lockMode = own ∧
      ∀ r' ∈ l₁ ++ l₂, r'.txnId ≠ t := by
  rw [LockRequestQueue.modeOf, Option.map_eq_some_iff] at h
  obtain ⟨r, hfind, hmode⟩ := h
  obtain ⟨hrt, l₁, l₂, hq, -⟩ := List.find?_eq_some_iff_append.mp hfind
  have hrt' : r.txnId = t := (of_decide_eq_true hrt).symm
  refine ⟨l₁, r, l₂, hq, hrt', hmode, ?_⟩
  rw [hq, List.map_append, List.map_cons, List.nodup_middle, List.nodup_cons] at hnd
  intro r' hr' ht
  apply hnd.1
  rw [← List.map_append, List.mem_map]
  exact ⟨r', hr', by rw [ht, hrt']⟩

/-- `setMode` changes the one request in place. -/
theorem setMode_eq {q : LockRequestQueue} {t : TxnId} {l₁ l₂ : List LockRequest} {r : LockRequest}
    (hq : q.requestQueue = l₁ ++ r :: l₂) (hrt : r.txnId = t) (hne : ∀ r' ∈ l₁, r'.txnId ≠ t)
    (mode : LockMode) : q.setMode t mode = l₁ ++ { r with lockMode := mode } :: l₂ := by
  rw [LockRequestQueue.setMode, hq]
  clear hq
  induction l₁ with
  | nil => simp [hrt]
  | cons a l ih =>
    have ha : ¬ t = a.txnId := fun h => hne a (by simp) h.symm
    simp [ha, ih (fun r' hr' => hne r' (by simp [hr']))]

/-- The mode found for a transaction that owns the request at the split. -/
theorem modeOf_split {q : LockRequestQueue} {t : TxnId} {l₁ l₂ : List LockRequest}
    (r : LockRequest) (hq : q.requestQueue = l₁ ++ r :: l₂) (hrt : r.txnId = t)
    (hne : ∀ r' ∈ l₁, r'.txnId ≠ t) : q.modeOf t = some r.lockMode := by
  have hfind : q.requestQueue.find? (fun req => t = req.txnId) = some r := by
    rw [List.find?_eq_some_iff_append]
    refine ⟨by simp [hrt], l₁, l₂, hq, ?_⟩
    intro a ha
    have hat : ¬ t = a.txnId := fun h => hne a ha h.symm
    simp [hat]
  rw [LockRequestQueue.modeOf, hfind]
  rfl

/-! ### What a decision has to be -/

/-- The join of the mode held and the mode asked for is compatible with every other
    transaction's mode in the queue. -/
def CanGrant (q : LockRequestQueue) (t : TxnId) (req : LockMode) : Prop :=
  ∀ r ∈ q.requestQueue, r.txnId ≠ t →
    (LockMode.joinOwn (q.modeOf t) req).compatible r.lockMode = true

/-- `group` is the supremum of `mode` and of the modes of the other transactions. -/
def NewGroup (q : LockRequestQueue) (t : TxnId) (mode : LockMode) (group : GroupLockMode) : Prop :=
  ∀ g, group ≤ g ↔
    mode.toGroup ≤ g ∧ ∀ r ∈ q.requestQueue, r.txnId ≠ t → r.lockMode.toGroup ≤ g

/-- The specification of a decision for a request of mode `req`. -/
def DecisionOk (q : LockRequestQueue) (t : TxnId) (req : LockMode) : LockDecision → Prop
  | .holds => CanGrant q t req ∧ ∃ own, q.modeOf t = some own ∧ own ⊔ req = own
  | .upgrade mode group =>
    CanGrant q t req ∧ (∃ own, q.modeOf t = some own ∧ mode = own ⊔ req) ∧ NewGroup q t mode group
  | .grant mode group =>
    CanGrant q t req ∧ q.modeOf t = none ∧ mode = req ∧ NewGroup q t mode group
  | .refuse => ¬ CanGrant q t req

section Decisions

variable {q : LockRequestQueue} {t : TxnId}

/-- Without a lock of its own, a transaction may be granted `req` iff the group mode allows it. -/
theorem canGrant_none_iff (hq : QueueInv q.requestQueue q.groupLockMode)
    (hown : q.modeOf t = none) (req : LockMode) :
    CanGrant q t req ↔ q.groupLockMode ≤ req.limit := by
  have hne := modeOf_none hown
  rw [hq.group_le_iff]
  simp only [CanGrant, hown, LockMode.joinOwn, LockMode.compatible_iff_le_limit]
  constructor
  · intro h r hr
    exact h r hr (hne r hr)
  · intro h r hr _
    exact h r hr

/-- An upgrade whose target still tolerates the mode held can read off the group mode. -/
theorem canGrant_some_iff (hq : QueueInv q.requestQueue q.groupLockMode) {own : LockMode}
    (hown : q.modeOf t = some own) (req : LockMode) (hle : own.toGroup ≤ (own ⊔ req).limit) :
    CanGrant q t req ↔ q.groupLockMode ≤ (own ⊔ req).limit := by
  obtain ⟨l₁, r₀, l₂, heq, hrt, rfl, hne⟩ := modeOf_some hown hq.nodup
  rw [hq.group_le_iff]
  simp only [CanGrant, hown, LockMode.joinOwn, LockMode.compatible_iff_le_limit]
  constructor
  · intro h r hr
    by_cases hr0 : r.txnId = t
    · -- the own request itself is below the limit
      rw [heq, List.mem_append, List.mem_cons] at hr
      rcases hr with hr | rfl | hr
      · exact absurd hr0 (hne r (by simp [hr]))
      · exact hle
      · exact absurd hr0 (hne r (by simp [hr]))
    · exact h r hr hr0
  · intro h r hr _
    exact h r hr

/-- A request that asks for no more than what is held can always be granted. -/
theorem canGrant_of_held (hq : QueueInv q.requestQueue q.groupLockMode) {own : LockMode}
    (hown : q.modeOf t = some own) {req : LockMode} (hreq : own ⊔ req = own) :
    CanGrant q t req := by
  obtain ⟨l₁, r₀, l₂, heq, hrt, rfl, -⟩ := modeOf_some hown hq.nodup
  intro r hr hrne
  have hr₀ : r₀ ∈ q.requestQueue := by rw [heq]; simp
  rw [hown, LockMode.joinOwn, hreq]
  exact hq.compat r₀ hr₀ r hr (by rw [hrt]; exact fun h => hrne h.symm)

/-- `EXCLUSIVE` can be granted to a holder iff it is alone in the queue. -/
theorem canGrant_exclusive_iff (hq : QueueInv q.requestQueue q.groupLockMode) {own : LockMode}
    (hown : q.modeOf t = some own) :
    CanGrant q t .exclusive ↔ q.requestQueue.length = 1 := by
  obtain ⟨l₁, r₀, l₂, heq, hrt, rfl, hne⟩ := modeOf_some hown hq.nodup
  have hx : LockMode.joinOwn (q.modeOf t) .exclusive = .exclusive := by
    rw [hown]
    cases r₀.lockMode <;> rfl
  have hlen : q.requestQueue.length = 1 ↔ l₁ ++ l₂ = [] := by
    rw [heq, List.length_append, List.length_cons, List.append_eq_nil_iff,
      ← List.length_eq_zero_iff, ← List.length_eq_zero_iff]
    omega
  rw [hlen, CanGrant, hx, List.eq_nil_iff_forall_not_mem]
  constructor
  · intro h r hr
    have hmem : r ∈ q.requestQueue := by
      rw [heq]
      rcases List.mem_append.mp hr with hr | hr <;> simp [hr]
    have hc := h r hmem (hne r hr)
    cases hm : r.lockMode <;> rw [hm] at hc <;> exact absurd hc (by decide)
  · intro h r hr hrne
    rw [heq, List.mem_append, List.mem_cons] at hr
    rcases hr with hr | rfl | hr
    · exact absurd (List.mem_append_left l₂ hr) (h r)
    · exact absurd hrt hrne
    · exact absurd (List.mem_append_right l₁ hr) (h r)

/-- A holder of `S` or `IX` may become `SIX` iff it is the only one with its mode: the others,
    being compatible with it, are then all `IS`. -/
theorem canGrant_six_iff (hq : QueueInv q.requestQueue q.groupLockMode) {own : LockMode}
    (hown : q.modeOf t = some own) (req : LockMode) (hjoin : own ⊔ req = .sIx)
    (hself : own = .shared ∨ own = .intentionExclusive) :
    CanGrant q t req ↔ q.countMode own = 1 := by
  obtain ⟨l₁, r₀, l₂, heq, hrt, rfl, hne⟩ := modeOf_some hown hq.nodup
  have hr₀ : r₀ ∈ q.requestQueue := by rw [heq]; simp
  have hmem : ∀ r ∈ l₁ ++ l₂, r ∈ q.requestQueue := by
    intro r hr
    rw [heq]
    rcases List.mem_append.mp hr with hr | hr <;> simp [hr]
  have hcnt : q.countMode r₀.lockMode = 1 ↔ ∀ r ∈ l₁ ++ l₂, r.lockMode ≠ r₀.lockMode := by
    rw [LockRequestQueue.countMode, heq, List.countP_append, List.countP_cons]
    simp only [decide_true, if_true]
    have hz : (l₁ ++ l₂).countP (fun req => decide (req.lockMode = r₀.lockMode)) = 0 ↔
        ∀ r ∈ l₁ ++ l₂, r.lockMode ≠ r₀.lockMode := by
      rw [List.countP_eq_zero]
      simp only [decide_eq_true_eq, ne_eq]
    rw [← hz, List.countP_append]
    omega
  have hcompat : ∀ r ∈ l₁ ++ l₂,
      (LockMode.sIx.compatible r.lockMode = true ↔ r.lockMode ≠ r₀.lockMode) := by
    intro r hr
    have hc := hq.compat r₀ hr₀ r (hmem r hr) (by rw [hrt]; exact fun h => hne r hr h.symm)
    rcases hself with h | h <;> rw [h] at hc ⊢ <;> revert hc <;> cases r.lockMode <;> decide
  rw [hcnt]
  simp only [CanGrant, hown, LockMode.joinOwn, hjoin]
  constructor
  · intro h r hr
    exact (hcompat r hr).mp (h r (hmem r hr) (hne r hr))
  · intro h r hr hrne
    rw [heq, List.mem_append, List.mem_cons] at hr
    rcases hr with hr | rfl | hr
    · exact (hcompat r (by simp [hr])).mpr (h r (by simp [hr]))
    · exact absurd hrt hrne
    · exact (hcompat r (by simp [hr])).mpr (h r (by simp [hr]))

/-- Every mode but `IS` dominates what it is compatible with, so it becomes the group mode. -/
theorem newGroup_of_canGrant {req mode : LockMode} (hg : CanGrant q t req)
    (hmode : LockMode.joinOwn (q.modeOf t) req = mode) (hlim : mode.limit ≤ mode.toGroup) :
    NewGroup q t mode mode.toGroup := by
  intro g
  constructor
  · intro h
    refine ⟨h, fun r hr hrne => ?_⟩
    have hc := hg r hr hrne
    rw [hmode, LockMode.compatible_iff_le_limit] at hc
    exact le_trans (le_trans hc hlim) h
  · exact fun h => h.1

/-- The mode held is part of the group mode. -/
theorem toGroup_le_of_modeOf (hq : QueueInv q.requestQueue q.groupLockMode) {own : LockMode}
    (hown : q.modeOf t = some own) : own.toGroup ≤ q.groupLockMode := by
  obtain ⟨l₁, r₀, l₂, heq, -, rfl, -⟩ := modeOf_some hown hq.nodup
  exact (hq.group_le_iff _).mp (le_refl _) r₀ (by rw [heq]; simp)

/-- A lock held that is enough. -/
theorem decisionOk_holds (hq : QueueInv q.requestQueue q.groupLockMode) {own req : LockMode}
    (hown : q.modeOf t = some own) (hsup : own ⊔ req = own) : DecisionOk q t req .holds :=
  ⟨canGrant_of_held hq hown hsup, own, hown, hsup⟩

/-- A test of the group mode that decides on a first lock. -/
theorem decisionOk_grant (hq : QueueInv q.requestQueue q.groupLockMode) (hown : q.modeOf t = none)
    {req : LockMode} {p : Prop} [Decidable p] (hp : p ↔ ¬ q.groupLockMode ≤ req.limit)
    (hlim : req.limit ≤ req.toGroup) :
    DecisionOk q t req (if p then .refuse else .grant req req.toGroup) := by
  have hiff := canGrant_none_iff hq hown req
  split
  · rename_i hrefused
    show ¬ CanGrant q t req
    rw [hiff]
    exact hp.mp hrefused
  · rename_i hok
    have hcan : CanGrant q t req := hiff.mpr (not_not.mp fun hno => hok (hp.mpr hno))
    exact ⟨hcan, hown, rfl, newGroup_of_canGrant hcan (by rw [hown]; rfl) hlim⟩

/-- A test that decides on an upgrade. -/
theorem decisionOk_upgrade {own req mode : LockMode} (hown : q.modeOf t = some own) {p : Prop}
    [Decidable p] (hp : p ↔ ¬ CanGrant q t req) (hmode : own ⊔ req = mode)
    (hlim : mode.limit ≤ mode.toGroup) :
    DecisionOk q t req (if p then .refuse else .upgrade mode mode.toGroup) := by
  split
  · rename_i hrefused
    exact hp.mp hrefused
  · rename_i hok
    have hcan : CanGrant q t req := not_not.mp fun hno => hok (hp.mpr hno)
    exact ⟨hcan, ⟨own, hown, hmode.symm⟩,
      newGroup_of_canGrant hcan (by rw [hown]; exact hmode) hlim⟩

/-! ### The six functions -/

/-- In the queue of a record only `SHARED` and `EXCLUSIVE` occur, so its group mode is one of
    three. -/
theorem group_of_record (hq : QueueInv q.requestQueue q.groupLockMode)
    (hrec : ∀ r ∈ q.requestQueue, r.lockMode = .shared ∨ r.lockMode = .exclusive) :
    q.groupLockMode = .nonLock ∨ q.groupLockMode = .s ∨ q.groupLockMode = .x := by
  by_cases hx : ∃ r ∈ q.requestQueue, r.lockMode = .exclusive
  · obtain ⟨r, hr, hm⟩ := hx
    have hle : LockMode.exclusive.toGroup ≤ q.groupLockMode := by
      rw [← hm]
      exact (hq.group_le_iff _).mp (le_refl _) r hr
    revert hle
    cases q.groupLockMode <;> decide
  · have hle : q.groupLockMode ≤ .s := by
      rw [hq.group_le_iff]
      intro r hr
      rcases hrec r hr with h | h
      · rw [h]; decide
      · exact absurd ⟨r, hr, h⟩ hx
    by_cases hnil : q.requestQueue = []
    · exact Or.inl (hq.nonLock_iff.mpr hnil)
    · obtain ⟨r, hr⟩ := List.exists_mem_of_ne_nil _ hnil
      have hr' := (hq.group_le_iff _).mp (le_refl _) r hr
      rcases hrec r hr with h | h
      · rw [h] at hr'
        exact Or.inr (Or.inl (le_antisymm hle hr'))
      · exact absurd ⟨r, hr, h⟩ hx

/-- The decision of `lock_shared_on_record` is one of the matrix. -/
theorem sharedOnRecord_ok (hq : QueueInv q.requestQueue q.groupLockMode)
    (hrec : ∀ r ∈ q.requestQueue, r.lockMode = .shared ∨ r.lockMode = .exclusive) :
    DecisionOk q t .shared (sharedOnRecordDecision q (q.modeOf t)) := by
  cases hown : q.modeOf t with
  | none =>
    refine decisionOk_grant hq hown ?_ (by decide)
    rcases group_of_record hq hrec with h | h | h <;> rw [h] <;> decide
  | some own =>
    refine decisionOk_holds hq hown ?_
    obtain ⟨l₁, r₀, l₂, heq, -, rfl, -⟩ := modeOf_some hown hq.nodup
    rcases hrec r₀ (by rw [heq]; simp) with h | h <;> rw [h] <;> rfl

/-- So is that of `lock_exclusive_on_record`. -/
theorem exclusiveOnRecord_ok (hq : QueueInv q.requestQueue q.groupLockMode)
    (hrec : ∀ r ∈ q.requestQueue, r.lockMode = .shared ∨ r.lockMode = .exclusive) :
    DecisionOk q t .exclusive (exclusiveOnRecordDecision q (q.modeOf t)) := by
  cases hown : q.modeOf t with
  | none =>
    refine decisionOk_grant hq hown ?_ (by decide)
    cases q.groupLockMode <;> decide
  | some own =>
    have hiff := canGrant_exclusive_iff hq hown
    have hx : own ⊔ .exclusive = .exclusive := by cases own <;> rfl
    simp only [exclusiveOnRecordDecision]
    split
    · rename_i h
      subst h
      exact decisionOk_holds hq hown rfl
    · rename_i hne
      have hs : own = .shared := by
        obtain ⟨l₁, r₀, l₂, heq, -, rfl, -⟩ := modeOf_some hown hq.nodup
        exact (hrec r₀ (by rw [heq]; simp)).resolve_right hne
      rw [← ite_not]
      refine decisionOk_upgrade hown (not_congr ?_) hx (by decide)
      rw [hiff, and_iff_right_iff_imp]
      intro hlen
      -- alone in the queue with `S`, so the group mode is `S`
      have hr₀ := toGroup_le_of_modeOf hq hown
      rw [hs] at hr₀
      refine le_antisymm ((hq.group_le_iff _).mpr fun r hr => ?_) hr₀
      obtain ⟨l₁, r₀, l₂, heq, -, hm, -⟩ := modeOf_some hown hq.nodup
      obtain ⟨a, ha⟩ := List.length_eq_one_iff.mp hlen
      have h0 : r₀ = a := by
        have hmem : r₀ ∈ q.requestQueue := by rw [heq]; simp
        rw [ha] at hmem
        exact List.mem_singleton.mp hmem
      rw [ha, List.mem_singleton] at hr
      rw [hr, ← h0, hm, hs]
      decide

/-- So is that of `lock_shared_on_table`. -/
theorem sharedOnTable_ok (hq : QueueInv q.requestQueue q.groupLockMode) :
    DecisionOk q t .shared (sharedOnTableDecision q (q.modeOf t)) := by
  cases hown : q.modeOf t with
  | none =>
    refine decisionOk_grant hq hown ?_ (by decide)
    cases q.groupLockMode <;> decide
  | some own =>
    simp only [sharedOnTableDecision]
    split
    · rename_i h
      exact decisionOk_holds hq hown (by rcases h with h | h | h <;> rw [h] <;> rfl)
    · rename_i hne
      split
      · rename_i h
        subst h
        refine decisionOk_upgrade hown ?_ rfl (by decide)
        rw [canGrant_some_iff hq hown .shared (by decide)]
        have hr₀ := toGroup_le_of_modeOf hq hown
        revert hr₀
        cases q.groupLockMode <;> decide
      · rename_i hne'
        have hix : own = .intentionExclusive := by
          revert hne hne'
          cases own <;> decide
        subst hix
        have hiff := canGrant_six_iff hq hown .shared rfl (Or.inr rfl)
        exact decisionOk_upgrade hown (not_congr hiff).symm rfl (by decide)

/-- So is that of `lock_exclusive_on_table`. -/
theorem exclusiveOnTable_ok (hq : QueueInv q.requestQueue q.groupLockMode) :
    DecisionOk q t .exclusive (exclusiveOnTableDecision q (q.modeOf t)) := by
  cases hown : q.modeOf t with
  | none =>
    refine decisionOk_grant hq hown ?_ (by decide)
    cases q.groupLockMode <;> decide
  | some own =>
    have hiff := canGrant_exclusive_iff hq hown
    have hx : own ⊔ .exclusive = .exclusive := by cases own <;> rfl
    simp only [exclusiveOnTableDecision]
    split
    · rename_i h
      subst h
      exact decisionOk_holds hq hown rfl
    · exact decisionOk_upgrade hown (not_congr hiff).symm hx (by decide)

/-- So is that of `lock_IS_on_table`. -/
theorem isOnTable_ok (hq : QueueInv q.requestQueue q.groupLockMode) :
    DecisionOk q t .intentionShared (isOnTableDecision q (q.modeOf t)) := by
  cases hown : q.modeOf t with
  | none =>
    have hiff := canGrant_none_iff hq hown .intentionShared
    simp only [isOnTableDecision]
    split
    · rename_i hg
      show ¬ CanGrant q t .intentionShared
      rw [hiff, hg]
      decide
    · rename_i hg
      have hcan : CanGrant q t .intentionShared := by
        rw [hiff]
        revert hg
        cases q.groupLockMode <;> decide
      refine ⟨hcan, hown, rfl, fun g => ?_⟩
      have hall : (∀ r ∈ q.requestQueue, r.txnId ≠ t → r.lockMode.toGroup ≤ g) ↔
          q.groupLockMode ≤ g := by
        rw [hq.group_le_iff]
        exact ⟨fun h r hr => h r hr (modeOf_none hown r hr), fun h r hr _ => h r hr⟩
      rw [hall]
      cases q.groupLockMode <;> cases g <;> decide
  | some own =>
    exact decisionOk_holds hq hown (by cases own <;> rfl)

/-- So is that of `lock_IX_on_table`. -/
theorem ixOnTable_ok (hq : QueueInv q.requestQueue q.groupLockMode) :
    DecisionOk q t .intentionExclusive (ixOnTableDecision q (q.modeOf t)) := by
  cases hown : q.modeOf t with
  | none =>
    refine decisionOk_grant hq hown ?_ (by decide)
    cases q.groupLockMode <;> decide
  | some own =>
    simp only [ixOnTableDecision]
    split
    · rename_i h
      exact decisionOk_holds hq hown (by rcases h with h | h | h <;> rw [h] <;> rfl)
    · rename_i hne
      split
      · rename_i h
        subst h
        have hiff := canGrant_six_iff hq hown .intentionExclusive rfl (Or.inl rfl)
        exact decisionOk_upgrade hown (not_congr hiff).symm rfl (by decide)
      · rename_i hne'
        have his : own = .intentionShared := by
          revert hne hne'
          cases own <;> decide
        subst his
        refine decisionOk_upgrade hown ?_ rfl (by decide)
        rw [canGrant_some_iff hq hown .intentionExclusive (by decide)]
        have hr₀ := toGroup_le_of_modeOf hq hown
        revert hr₀
        cases q.groupLockMode <;> decide

end Decisions

/-! ### The frame -/

/-- The requests queued on a lock. -/
def LockManager.requests (m : LockManager) (id : LockDataId) : List LockRequest :=
  ((m.lockTable id).getD .empty).requestQueue

/-- The group mode of a lock (`NON_LOCK` when it has no queue yet). -/
def LockManager.groupMode (m : LockManager) (id : LockDataId) : GroupLockMode :=
  ((m.lockTable id).getD .empty).groupLockMode

/-- The mode in which a transaction holds a lock. -/
def LockManager.heldMode (m : LockManager) (id : LockDataId) (t : TxnId) : Option LockMode :=
  ((m.lockTable id).getD .empty).modeOf t

/-- The invariant of the lock manager. -/
structure LockManager.Inv (m : LockManager) : Prop where
  /-- Every queue satisfies `QueueInv`. -/
  queue : ∀ id, QueueInv (m.requests id) (m.groupMode id)
  /-- Records are only locked `SHARED` or `EXCLUSIVE`. -/
  record : ∀ id, id.type = .record →
    ∀ r ∈ m.requests id, r.lockMode = .shared ∨ r.lockMode = .exclusive

/-- The invariant holds of the empty table. -/
theorem LockManager.inv_empty : LockManager.empty.Inv where
  queue _ := QueueInv.empty
  record _ _ r hr := absurd hr (by simp [LockManager.requests, LockManager.empty,
    LockRequestQueue.empty])

/-- Setting one queue keeps the invariant if that queue is fine. -/
theorem LockManager.Inv.setQueue {m : LockManager} (h : m.Inv) {id : LockDataId}
    {q : LockRequestQueue} (hq : QueueInv q.requestQueue q.groupLockMode)
    (hrec : id.type = .record →
      ∀ r ∈ q.requestQueue, r.lockMode = .shared ∨ r.lockMode = .exclusive) :
    (m.setQueue id q).Inv where
  queue id' := by
    by_cases hid : id' = id
    · subst hid
      simpa [LockManager.requests, LockManager.groupMode] using hq
    · simpa only [LockManager.requests, LockManager.groupMode, m.setQueue_of_ne q hid]
        using h.queue id'
  record id' htype := by
    by_cases hid : id' = id
    · subst hid
      simpa [LockManager.requests] using hrec htype
    · simpa only [LockManager.requests, m.setQueue_of_ne q hid] using h.record id' htype

/-- What a lock function must do with a request of a `DEFAULT` or `GROWING` transaction. -/
structure GrantSpec (id : LockDataId) (req : LockMode) (txn : Transaction) (m : LockManager)
    (result : LockOutcome × Transaction × LockManager) : Prop where
  /-- The request is granted, or refused for deadlock prevention. -/
  decided : result.1 = .ok true ∨
    result.1 = .error { txnId := txn.txnId, abortReason := .deadlockPrevention }
  /-- It is granted iff the join of the mode held and the mode asked for is compatible with
      every other transaction's mode. -/
  granted_iff : result.1 = .ok true ↔ ∀ r ∈ m.requests id, r.txnId ≠ txn.txnId →
    (LockMode.joinOwn (m.heldMode id txn.txnId) req).compatible r.lockMode = true
  /-- On a grant the mode held becomes that join. -/
  granted_mode : result.1 = .ok true →
    result.2.2.heldMode id txn.txnId = some (LockMode.joinOwn (m.heldMode id txn.txnId) req)
  /-- The requests of the other transactions stay, in order. -/
  others : ∀ t, t ≠ txn.txnId →
    (result.2.2.requests id).filter (·.txnId = t) = (m.requests id).filter (·.txnId = t)
  /-- No other queue changes. -/
  frame : ∀ id', id' ≠ id → result.2.2.lockTable id' = m.lockTable id'
  /-- On a refusal no request, no group mode and no lock set changes, and the lock table is the
      same but for an empty queue that may have been created. -/
  refused : result.1 ≠ .ok true →
    (∀ id', result.2.2.requests id' = m.requests id' ∧
      result.2.2.groupMode id' = m.groupMode id') ∧
    result.2.1.lockSet = txn.lockSet ∧
    ∀ id', result.2.2.lockTable id' = m.lockTable id' ∨
      (m.lockTable id' = none ∧ result.2.2.lockTable id' = some .empty)

/-- A queue in which the request of `t` has been replaced by (or added as) one of mode `mode`
    keeps the invariant, if the decision that did so was right. -/
theorem QueueInv.replace {q : LockRequestQueue} {t : TxnId} {req mode : LockMode}
    {group : GroupLockMode} {reqs : List LockRequest} (r₀ : LockRequest)
    (hq : QueueInv q.requestQueue q.groupLockMode) (hcan : CanGrant q t req)
    (hmode : mode = LockMode.joinOwn (q.modeOf t) req) (hgroup : NewGroup q t mode group)
    (hnd : (reqs.map LockRequest.txnId).Nodup) (ht : r₀.txnId = t) (hm : r₀.lockMode = mode)
    (hmem : ∀ r, r ∈ reqs ↔ r = r₀ ∨ (r ∈ q.requestQueue ∧ r.txnId ≠ t)) :
    QueueInv reqs group where
  nodup := hnd
  compat := by
    have hown : ∀ r ∈ q.requestQueue, r.txnId ≠ t →
        r₀.lockMode.compatible r.lockMode = true := by
      intro r hr hrt
      rw [hm, hmode]
      exact hcan r hr hrt
    intro a ha b hb hab
    rcases (hmem a).mp ha with rfl | ⟨ha, hat⟩ <;> rcases (hmem b).mp hb with rfl | ⟨hb, hbt⟩
    · exact absurd rfl hab
    · exact hown b hb hbt
    · rw [LockMode.compatible_comm]
      exact hown a ha hat
    · exact hq.compat a ha b hb hab
  lub := by
    rw [isLUB_iff_le_iff]
    intro g
    rw [hgroup g]
    constructor
    · rintro ⟨h₀, hr⟩ _ ⟨r, hr', rfl⟩
      rcases (hmem r).mp hr' with rfl | ⟨h1, h2⟩
      · rw [hm]; exact h₀
      · exact hr r h1 h2
    · intro hub
      refine ⟨?_, fun r hr hrt => hub ⟨r, (hmem r).mpr (Or.inr ⟨hr, hrt⟩), rfl⟩⟩
      rw [← hm]
      exact hub ⟨r₀, (hmem r₀).mpr (Or.inl rfl), rfl⟩

/-- The request appended by a grant. -/
theorem QueueInv.grant {q : LockRequestQueue} {t : TxnId} {req : LockMode} {group : GroupLockMode}
    (hq : QueueInv q.requestQueue q.groupLockMode) (hcan : CanGrant q t req)
    (hown : q.modeOf t = none) (hgroup : NewGroup q t req group) :
    QueueInv (q.requestQueue ++ [{ txnId := t, lockMode := req, granted := true }]) group := by
  have hne := modeOf_none hown
  refine hq.replace { txnId := t, lockMode := req, granted := true } hcan
    (by rw [hown]; rfl) hgroup ?_ rfl rfl ?_
  · rw [List.map_append, List.nodup_append]
    refine ⟨hq.nodup, by simp, ?_⟩
    intro a ha b hb
    obtain ⟨r, hr, rfl⟩ := List.mem_map.mp ha
    rw [List.map_singleton, List.mem_singleton] at hb
    rw [hb]
    exact hne r hr
  · intro r
    rw [List.mem_append, List.mem_singleton]
    constructor
    · rintro (h | h)
      · exact Or.inr ⟨h, hne r h⟩
      · exact Or.inl h
    · rintro (h | h)
      · exact Or.inr h
      · exact Or.inl h.1

/-- The request raised by an upgrade. -/
theorem QueueInv.upgrade {q : LockRequestQueue} {t : TxnId} {own req : LockMode}
    {group : GroupLockMode} (hq : QueueInv q.requestQueue q.groupLockMode)
    (hcan : CanGrant q t req) (hown : q.modeOf t = some own)
    (hgroup : NewGroup q t (own ⊔ req) group) :
    QueueInv (q.setMode t (own ⊔ req)) group := by
  obtain ⟨l₁, r₀, l₂, heq, hrt, hm, hne⟩ := modeOf_some hown hq.nodup
  rw [setMode_eq heq hrt (fun r hr => hne r (by simp [hr]))]
  refine hq.replace { r₀ with lockMode := own ⊔ req } hcan (by rw [hown]; rfl) hgroup
    ?_ hrt rfl ?_
  · have hnd := hq.nodup
    rw [heq] at hnd
    simpa using hnd
  · intro r
    rw [heq]
    simp only [List.mem_append, List.mem_cons] at hne ⊢
    constructor
    · rintro (h | h | h)
      · exact Or.inr ⟨Or.inl h, hne r (Or.inl h)⟩
      · exact Or.inl h
      · exact Or.inr ⟨Or.inr (Or.inr h), hne r (Or.inr h)⟩
    · rintro (h | ⟨h | h | h, hrt'⟩)
      · exact Or.inr (Or.inl h)
      · exact Or.inl h
      · exact absurd (h ▸ hrt) hrt'
      · exact Or.inr (Or.inr h)

section Frame

variable {m : LockManager} {id : LockDataId} {txn : Transaction} {req : LockMode}
  {decision : LockRequestQueue → Option LockMode → LockDecision}

/-- The queue a lock function works on: the one in the table, or a new empty one. -/
abbrev LockManager.queueOf (m : LockManager) (id : LockDataId) : LockRequestQueue :=
  (m.lockTable id).getD .empty

/-- `check_lock` lets a `DEFAULT` or `GROWING` transaction pass. -/
theorem checkLock_active (h : txn.state = .default ∨ txn.state = .growing) :
    ∃ txn', checkLock txn = (.ok true, txn') ∧ txn'.txnId = txn.txnId ∧
      txn'.lockSet = txn.lockSet := by
  rcases h with h | h
  · exact ⟨{ txn with state := .growing }, by rw [checkLock, h], rfl, rfl⟩
  · exact ⟨txn, by rw [checkLock, h], rfl, rfl⟩

/-- In the other states the lock functions return before they touch the lock table. -/
theorem lockOn_inactive (h : ¬ (txn.state = .default ∨ txn.state = .growing)) :
    (lockOn id decision txn m).2 = (txn, m) := by
  unfold lockOn checkLock
  cases hs : txn.state <;> simp_all

/-- Storing the queue one has found changes neither requests nor group modes. -/
theorem setQueue_queueOf (id' : LockDataId) :
    (m.setQueue id (m.queueOf id)).requests id' = m.requests id' ∧
      (m.setQueue id (m.queueOf id)).groupMode id' = m.groupMode id' ∧
      ((m.setQueue id (m.queueOf id)).lockTable id' = m.lockTable id' ∨
        (m.lockTable id' = none ∧
          (m.setQueue id (m.queueOf id)).lockTable id' = some .empty)) := by
  by_cases hid : id' = id
  · subst hid
    refine ⟨by simp [LockManager.requests, LockManager.queueOf],
      by simp [LockManager.groupMode, LockManager.queueOf], ?_⟩
    cases hq : m.lockTable id' with
    | none => exact Or.inr ⟨rfl, by simp [LockManager.queueOf, hq]⟩
    | some q => exact Or.inl (by simp [LockManager.queueOf, hq])
  · have hframe := m.setQueue_of_ne (m.queueOf id) hid
    exact ⟨by rw [LockManager.requests, hframe, LockManager.requests],
      by rw [LockManager.groupMode, hframe, LockManager.groupMode], Or.inl hframe⟩

/-- **Preservation.** A lock function whose decision is right keeps the invariant. -/
theorem lockOn_inv (h : m.Inv)
    (hd : DecisionOk (m.queueOf id) txn.txnId req
      (decision (m.queueOf id) ((m.queueOf id).modeOf txn.txnId)))
    (hreq : id.type = .record → req = .shared ∨ req = .exclusive) :
    (lockOn id decision txn m).2.2.Inv := by
  by_cases hact : txn.state = .default ∨ txn.state = .growing
  swap
  · rw [lockOn_inactive hact]
    exact h
  obtain ⟨txn', hchk, hid, -⟩ := checkLock_active hact
  have hq : QueueInv (m.queueOf id).requestQueue (m.queueOf id).groupLockMode := h.queue id
  unfold lockOn
  rw [hchk]
  simp only [hid]
  revert hd
  cases decision (m.queueOf id) ((m.queueOf id).modeOf txn.txnId) with
  | holds => exact fun _ => h.setQueue hq (h.record id)
  | refuse => exact fun _ => h.setQueue hq (h.record id)
  | grant mode group =>
    rintro ⟨hcan, hown, rfl, hgroup⟩
    refine h.setQueue (hq.grant hcan hown hgroup) (fun htype r hr => ?_)
    rw [List.mem_append, List.mem_singleton] at hr
    rcases hr with hr | rfl
    · exact h.record id htype r hr
    · exact hreq htype
  | upgrade mode group =>
    rintro ⟨hcan, ⟨own, hown, rfl⟩, hgroup⟩
    refine h.setQueue (hq.upgrade hcan hown hgroup) (fun htype r hr => ?_)
    obtain ⟨l₁, r₀, l₂, heq, hrt, hm, hne⟩ := modeOf_some hown hq.nodup
    have hrec := h.record id htype
    simp only [setMode_eq heq hrt (fun r hr => hne r (by simp [hr])), List.mem_append,
      List.mem_cons] at hr
    rcases hr with hr | rfl | hr
    · exact hrec r (by rw [LockManager.requests, heq]; simp [hr])
    · -- the join of two record modes is a record mode
      have h₀ := hrec r₀ (by rw [LockManager.requests, heq]; simp)
      rw [hm] at h₀
      show own ⊔ req = .shared ∨ own ⊔ req = .exclusive
      rcases h₀ with rfl | rfl <;> rcases hreq htype with rfl | rfl <;> decide
    · exact hrec r (by rw [LockManager.requests, heq]; simp [hr])

/-- **Grants.** A lock function whose decision is right grants exactly what the matrix allows. -/
theorem lockOn_grant (h : m.Inv) (hact : txn.state = .default ∨ txn.state = .growing)
    (hd : DecisionOk (m.queueOf id) txn.txnId req
      (decision (m.queueOf id) ((m.queueOf id).modeOf txn.txnId))) :
    GrantSpec id req txn m (lockOn id decision txn m) := by
  obtain ⟨txn', hchk, hid, hset⟩ := checkLock_active hact
  have hq : QueueInv (m.queueOf id).requestQueue (m.queueOf id).groupLockMode := h.queue id
  unfold lockOn
  rw [hchk]
  simp only [hid]
  revert hd
  cases decision (m.queueOf id) ((m.queueOf id).modeOf txn.txnId) with
  | holds =>
    -- the lock held already covers the request
    rintro ⟨hcan, own, hown, hsup⟩
    refine ⟨Or.inl rfl, ⟨fun _ => hcan, fun _ => rfl⟩, fun _ => ?_, fun t _ => ?_,
      fun id' hne => m.setQueue_of_ne _ hne, fun hno => absurd rfl hno⟩
    · have hown' : m.heldMode id txn.txnId = some own := hown
      rw [hown', LockMode.joinOwn, hsup]
      simpa [LockManager.heldMode] using hown
    · rw [(setQueue_queueOf id).1]
  | refuse =>
    -- no request is added, and the state of the transaction stays
    intro hno
    refine ⟨Or.inr rfl, ⟨fun hc => by simp at hc, fun hc => absurd hc hno⟩,
      fun hc => by simp at hc, fun t _ => by rw [(setQueue_queueOf id).1],
      fun id' hne => m.setQueue_of_ne _ hne, fun _ => ⟨fun id' => ?_, hset, fun id' => ?_⟩⟩
    · exact ⟨(setQueue_queueOf id').1, (setQueue_queueOf id').2.1⟩
    · exact (setQueue_queueOf id').2.2
  | grant mode group =>
    -- a new request at the end of the queue
    rintro ⟨hcan, hown, rfl, -⟩
    have hne := modeOf_none hown
    refine ⟨Or.inl rfl, ⟨fun _ => hcan, fun _ => rfl⟩, fun _ => ?_, fun t ht => ?_,
      fun id' hne => m.setQueue_of_ne _ hne, fun hno => absurd rfl hno⟩
    · have hown' : m.heldMode id txn.txnId = none := hown
      rw [hown', LockMode.joinOwn]
      simp only [LockManager.heldMode, LockManager.setQueue_self, Option.getD_some]
      exact modeOf_split { txnId := txn.txnId, lockMode := mode, granted := true } rfl rfl hne
    · simp only [LockManager.requests, LockManager.setQueue_self, Option.getD_some]
      rw [List.filter_append]
      simpa using fun h : txn.txnId = t => ht h.symm
  | upgrade mode group =>
    -- the request of before, with the join of both modes
    rintro ⟨hcan, ⟨own, hown, rfl⟩, -⟩
    obtain ⟨l₁, r₀, l₂, heq, hrt, hm, hne⟩ := modeOf_some hown hq.nodup
    have hne₁ : ∀ r ∈ l₁, r.txnId ≠ txn.txnId := fun r hr => hne r (by simp [hr])
    refine ⟨Or.inl rfl, ⟨fun _ => hcan, fun _ => rfl⟩, fun _ => ?_, fun t ht => ?_,
      fun id' hne => m.setQueue_of_ne _ hne, fun hno => absurd rfl hno⟩
    · have hown' : m.heldMode id txn.txnId = some own := hown
      rw [hown', LockMode.joinOwn]
      simp only [LockManager.heldMode, LockManager.setQueue_self, Option.getD_some]
      exact modeOf_split { r₀ with lockMode := own ⊔ req } (setMode_eq heq hrt hne₁ _) hrt hne₁
    · have hr₀ : ¬ r₀.txnId = t := fun h => ht (h.symm.trans hrt)
      simp only [LockManager.requests, LockManager.setQueue_self, Option.getD_some, heq,
        setMode_eq heq hrt hne₁]
      simp [hr₀]

end Frame

/-! ### The calls -/

/-- The decision of a lock function. -/
def LockCall.decision : LockCall → LockRequestQueue → Option LockMode → LockDecision
  | .sharedOnRecord _ _ => sharedOnRecordDecision
  | .exclusiveOnRecord _ _ => exclusiveOnRecordDecision
  | .sharedOnTable _ => sharedOnTableDecision
  | .exclusiveOnTable _ => exclusiveOnTableDecision
  | .isOnTable _ => isOnTableDecision
  | .ixOnTable _ => ixOnTableDecision

/-- Each lock call is `lockOn` with its own decision. -/
theorem LockCall.run_eq (c : LockCall) (txn : Transaction) (m : LockManager) :
    c.run txn m = lockOn c.id c.decision txn m := by
  cases c <;> rfl

/-- Every lock function decides as specified. -/
theorem LockCall.decision_ok (c : LockCall) {m : LockManager} (h : m.Inv) (t : TxnId) :
    DecisionOk (m.queueOf c.id) t c.mode (c.decision (m.queueOf c.id) ((m.queueOf c.id).modeOf t)) := by
  have hq : QueueInv (m.queueOf c.id).requestQueue (m.queueOf c.id).groupLockMode := h.queue c.id
  cases c with
  | sharedOnRecord rid fd => exact sharedOnRecord_ok hq (h.record _ rfl)
  | exclusiveOnRecord rid fd => exact exclusiveOnRecord_ok hq (h.record _ rfl)
  | sharedOnTable fd => exact sharedOnTable_ok hq
  | exclusiveOnTable fd => exact exclusiveOnTable_ok hq
  | isOnTable fd => exact isOnTable_ok hq
  | ixOnTable fd => exact ixOnTable_ok hq

/-- The transaction object a lock function returns is the same transaction. -/
theorem LockCall.run_txnId (c : LockCall) (txn : Transaction) (m : LockManager) :
    (c.run txn m).2.1.txnId = txn.txnId := by
  rw [c.run_eq]
  by_cases hact : txn.state = .default ∨ txn.state = .growing
  · obtain ⟨txn', hchk, hid, -⟩ := checkLock_active hact
    unfold lockOn
    rw [hchk]
    dsimp only
    split <;> exact hid
  · rw [lockOn_inactive hact]

/-- A lock function leaves a `DEFAULT` or `GROWING` transaction in the growing phase. -/
theorem LockCall.run_state (c : LockCall) (m : LockManager) {txn : Transaction}
    (hact : txn.state = .default ∨ txn.state = .growing) :
    (c.run txn m).2.1.state = .growing := by
  have hchk : ∃ txn', checkLock txn = (.ok true, txn') ∧ txn'.state = .growing := by
    rcases hact with h | h
    · exact ⟨{ txn with state := .growing }, by rw [checkLock, h], rfl⟩
    · exact ⟨txn, by rw [checkLock, h], h⟩
  obtain ⟨txn', hchk, hst⟩ := hchk
  rw [c.run_eq]
  unfold lockOn
  rw [hchk]
  dsimp only
  split <;> exact hst

/-- Each lock call keeps the invariant. -/
theorem LockCall.run_inv (c : LockCall) {m : LockManager} (h : m.Inv) (txn : Transaction) :
    (c.run txn m).2.2.Inv := by
  rw [c.run_eq]
  refine lockOn_inv h (c.decision_ok h txn.txnId) (fun htype => ?_)
  cases c with
  | sharedOnRecord rid fd => exact Or.inl rfl
  | exclusiveOnRecord rid fd => exact Or.inr rfl
  | sharedOnTable fd => exact Or.inl rfl
  | exclusiveOnTable fd => exact Or.inr rfl
  | isOnTable fd => exact absurd htype (by simp [LockCall.id, LockDataId.ofTable])
  | ixOnTable fd => exact absurd htype (by simp [LockCall.id, LockDataId.ofTable])

/-- **One call.** A lock function called by a `DEFAULT` or `GROWING` transaction grants exactly
    what the matrix allows. -/
theorem LockCall.run_grant (c : LockCall) {m : LockManager} (h : m.Inv) {txn : Transaction}
    (hact : txn.state = .default ∨ txn.state = .growing) :
    GrantSpec c.id c.mode txn m (c.run txn m) := by
  rw [c.run_eq]
  exact lockOn_grant h hact (c.decision_ok h txn.txnId)

/-! ### `unlock` -/

/-- A count is positive iff some request has the mode. -/
theorem countP_mode_ne_zero {reqs : List LockRequest} {mode : LockMode} :
    reqs.countP (fun req => req.lockMode = mode) ≠ 0 ↔ ∃ r ∈ reqs, r.lockMode = mode := by
  rw [← Nat.pos_iff_ne_zero, List.countP_pos_iff]
  simp

/-- The group mode `unlock` recomputes is the supremum: `IX` and `S` never meet in one queue. -/
theorem regroup_isLUB {reqs : List LockRequest}
    (hcompat : ∀ a ∈ reqs, ∀ b ∈ reqs, a.lockMode = .intentionExclusive → b.lockMode ≠ .shared) :
    IsLUB {g | ∃ r ∈ reqs, r.lockMode.toGroup = g} (regroup reqs) := by
  -- a mode that occurs and dominates the others is the supremum
  have hmax : ∀ mode : LockMode, (∃ r ∈ reqs, r.lockMode = mode) →
      (∀ r ∈ reqs, r.lockMode.toGroup ≤ mode.toGroup) →
      IsLUB {g | ∃ r ∈ reqs, r.lockMode.toGroup = g} mode.toGroup := by
    rintro mode ⟨r, hr, rfl⟩ hle
    refine IsGreatest.isLUB ⟨⟨r, hr, rfl⟩, ?_⟩
    rintro _ ⟨r', hr', rfl⟩
    exact hle r' hr'
  unfold regroup
  simp only [countP_mode_ne_zero]
  split
  · rename_i h
    exact hmax .exclusive h (fun r _ => by cases r.lockMode <;> decide)
  rename_i hx
  split
  · rename_i h
    refine hmax .sIx h (fun r hr => ?_)
    cases hm : r.lockMode
    case exclusive => exact absurd ⟨r, hr, hm⟩ hx
    all_goals decide
  rename_i hsix
  split
  · rename_i h
    refine hmax .intentionExclusive h (fun r hr => ?_)
    obtain ⟨a, ha, ham⟩ := h
    cases hm : r.lockMode
    case exclusive => exact absurd ⟨r, hr, hm⟩ hx
    case sIx => exact absurd ⟨r, hr, hm⟩ hsix
    case shared => exact absurd hm (hcompat a ha r hr ham)
    all_goals decide
  rename_i hix
  split
  · rename_i h
    refine hmax .shared h (fun r hr => ?_)
    cases hm : r.lockMode
    case exclusive => exact absurd ⟨r, hr, hm⟩ hx
    case sIx => exact absurd ⟨r, hr, hm⟩ hsix
    case intentionExclusive => exact absurd ⟨r, hr, hm⟩ hix
    all_goals decide
  rename_i hs
  -- only `IS` is left
  have hmode : ∀ r ∈ reqs, r.lockMode = .intentionShared := by
    intro r hr
    cases hm : r.lockMode
    case exclusive => exact absurd ⟨r, hr, hm⟩ hx
    case sIx => exact absurd ⟨r, hr, hm⟩ hsix
    case intentionExclusive => exact absurd ⟨r, hr, hm⟩ hix
    case shared => exact absurd ⟨r, hr, hm⟩ hs
    case intentionShared => rfl
  split
  · rename_i h
    exact hmax .intentionShared h (fun r hr => by rw [hmode r hr])
  · rename_i his
    have hnil : reqs = [] := by
      rw [List.eq_nil_iff_forall_not_mem]
      exact fun r hr => his ⟨r, hr, hmode r hr⟩
    subst hnil
    exact QueueInv.empty.lub

/-- Two transactions do not have `IX` and `S` on one object, and one transaction has one mode. -/
theorem ix_ne_shared {reqs : List LockRequest} (hnd : (reqs.map LockRequest.txnId).Nodup)
    (hcompat : ∀ a ∈ reqs, ∀ b ∈ reqs, a.txnId ≠ b.txnId → a.lockMode.compatible b.lockMode = true) :
    ∀ a ∈ reqs, ∀ b ∈ reqs, a.lockMode = .intentionExclusive → b.lockMode ≠ .shared := by
  intro a ha b hb ham hbm
  have hab : a.txnId ≠ b.txnId := by
    intro heq
    have hsame : a = b := List.inj_on_of_nodup_map hnd ha hb heq
    rw [hsame, hbm] at ham
    exact absurd ham (by decide)
  have hc := hcompat a ha b hb hab
  rw [ham, hbm] at hc
  exact absurd hc (by decide)

/-- The group mode is computed anew when a request leaves. -/
theorem QueueInv.release {q : LockRequestQueue} (h : QueueInv q.requestQueue q.groupLockMode)
    (t : TxnId) : QueueInv (q.release t).requestQueue (q.release t).groupLockMode := by
  have hsub : (q.release t).requestQueue.Sublist q.requestQueue := List.eraseP_sublist
  have hcompat : ∀ a ∈ (q.release t).requestQueue, ∀ b ∈ (q.release t).requestQueue,
      a.txnId ≠ b.txnId → a.lockMode.compatible b.lockMode = true :=
    fun a ha b hb => h.compat a (hsub.subset ha) b (hsub.subset hb)
  have hnd : ((q.release t).requestQueue.map LockRequest.txnId).Nodup :=
    h.nodup.sublist (hsub.map _)
  exact ⟨hnd, hcompat, regroup_isLUB (ix_ne_shared hnd hcompat)⟩

/-- `unlock` keeps the invariant. -/
theorem unlock_inv {m : LockManager} (h : m.Inv) (txn : Transaction) (id : LockDataId) :
    (unlock txn id m).2.2.Inv := by
  have hset : ∀ q t, m.lockTable id = some q → (m.setQueue id (q.release t)).Inv := by
    intro q t hq
    have hqi : QueueInv q.requestQueue q.groupLockMode := by
      have := h.queue id
      simpa [LockManager.requests, LockManager.groupMode, hq] using this
    refine h.setQueue (hqi.release t) (fun htype r hr => h.record id htype r ?_)
    rw [LockManager.requests, hq]
    exact List.eraseP_subset hr
  unfold unlock
  cases hs : txn.state <;> simp only <;> (try exact h) <;> split <;>
    first | exact h | exact hset _ _ (by assumption)

/-- `unlock` keeps the transaction's id. -/
theorem unlock_txnId (txn : Transaction) (id : LockDataId) (m : LockManager) :
    (unlock txn id m).2.1.txnId = txn.txnId := by
  unfold unlock
  cases hs : txn.state <;> simp only <;> split <;> rfl

/-! ### Every interleaving -/

/-- The lock manager together with the transactions that call it. -/
structure LockSystem where
  mgr : LockManager
  txns : TxnId → Transaction

/-- What can happen: a transaction calls a lock function or `unlock`, or the transaction manager
    sets its state or clears its lock set. -/
inductive LockOp where
  | call (t : TxnId) (c : LockCall)
  | unlock (t : TxnId) (id : LockDataId)
  | setState (t : TxnId) (state : TransactionState)
  | clearLockSet (t : TxnId)

/-- Put a transaction back. -/
def LockSystem.setTxn (s : LockSystem) (t : TxnId) (txn : Transaction) : LockSystem :=
  { s with txns := fun t' => if t' = t then txn else s.txns t' }

/-- One step. -/
def LockSystem.apply (s : LockSystem) : LockOp → LockSystem
  | .call t c =>
    let r := c.run (s.txns t) s.mgr
    { s with mgr := r.2.2 }.setTxn t r.2.1
  | .unlock t id =>
    let r := Rmdb.unlock (s.txns t) id s.mgr
    { s with mgr := r.2.2 }.setTxn t r.2.1
  | .setState t state => s.setTxn t { s.txns t with state := state }
  | .clearLockSet t => s.setTxn t { s.txns t with lockSet := ∅ }

/-- The start: no queue, and every transaction as constructed. -/
def LockSystem.start : LockSystem where
  mgr := .empty
  txns := .new

/-- The transition system: any number of transactions, any interleaving of their calls. -/
def lockSystem : TransitionSystem LockSystem LockOp where
  init s := s = .start
  step s op s' := s' = s.apply op

/-- Each transaction is stored under its own id. -/
theorem LockSystem.setTxn_txnId {s : LockSystem} (h : ∀ t, (s.txns t).txnId = t) {t : TxnId}
    {txn : Transaction} (ht : txn.txnId = t) (t' : TxnId) :
    ((s.setTxn t txn).txns t').txnId = t' := by
  by_cases heq : t' = t
  · subst heq
    simpa [LockSystem.setTxn] using ht
  · simpa [LockSystem.setTxn, heq] using h t'

/-- The invariant holds in every state reached. -/
theorem lockSystem_inv {s : LockSystem} (hs : lockSystem.Reachable s) :
    s.mgr.Inv ∧ ∀ t, (s.txns t).txnId = t := by
  refine hs.invariant (I := fun s => s.mgr.Inv ∧ ∀ t, (s.txns t).txnId = t) ?_ ?_
  · rintro s rfl
    exact ⟨LockManager.inv_empty, fun t => rfl⟩
  · rintro s op _ ⟨hi, hid⟩ rfl
    cases op with
    | call t c =>
      refine ⟨c.run_inv hi (s.txns t), fun t' => LockSystem.setTxn_txnId hid ?_ t'⟩
      rw [c.run_txnId, hid]
    | unlock t id =>
      refine ⟨unlock_inv hi (s.txns t) id, fun t' => LockSystem.setTxn_txnId hid ?_ t'⟩
      rw [unlock_txnId, hid]
    | setState t state =>
      refine ⟨hi, fun t' => LockSystem.setTxn_txnId hid ?_ t'⟩
      exact hid t
    | clearLockSet t =>
      refine ⟨hi, fun t' => LockSystem.setTxn_txnId hid ?_ t'⟩
      exact hid t

/-- **The lock manager implements multi-granularity locking.**  In every reachable state each
    queue holds at most one request per transaction, the modes of different transactions are
    compatible and the group mode is their least upper bound (`NON_LOCK` iff the queue is empty);
    and a request of a `DEFAULT` or `GROWING` transaction `t` is granted, or refused, as
    `GrantSpec` says. -/
theorem lockManager_implements_matrix {s : LockSystem} (hs : lockSystem.Reachable s) :
    (∀ id q, s.mgr.lockTable id = some q → QueueInv q.requestQueue q.groupLockMode ∧
      (q.groupLockMode = .nonLock ↔ q.requestQueue = [])) ∧
    ∀ (t : TxnId) (c : LockCall), (s.txns t).state = .default ∨ (s.txns t).state = .growing →
      (s.txns t).txnId = t ∧
        GrantSpec c.id c.mode (s.txns t) s.mgr (c.run (s.txns t) s.mgr) := by
  obtain ⟨hi, hid⟩ := lockSystem_inv hs
  refine ⟨fun id q hq => ?_, fun t c hact => ⟨hid t, c.run_grant hi hact⟩⟩
  have hqi := hi.queue id
  simp only [LockManager.requests, LockManager.groupMode, hq, Option.getD_some] at hqi
  exact ⟨hqi, hqi.nonLock_iff⟩

/-- Transaction 0 has read-locked table 3, so transaction 1 is refused `IX` on it. -/
theorem lockManager_refuses_ix_beside_s :
    let s := LockSystem.start.apply (.call 0 (.sharedOnTable 3))
    GrantSpec (.ofTable 3) .intentionExclusive (s.txns 1) s.mgr
        ((LockCall.ixOnTable 3).run (s.txns 1) s.mgr) ∧
      ((LockCall.ixOnTable 3).run (s.txns 1) s.mgr).1 =
        .error { txnId := 1, abortReason := .deadlockPrevention } := by
  intro s
  have hs : lockSystem.Reachable s := .step (.init rfl) rfl
  exact ⟨((lockManager_implements_matrix hs).2 1 (.ixOnTable 3) (Or.inl rfl)).2, rfl⟩

end Rmdb
