import Mathlib.Data.Fintype.Basic
import Mathlib.Order.Bounds.Basic
import Rmdb.Transaction.TxnDefs

namespace Rmdb

/-!
# Lock modes (`LockManager::LockMode`, `LockManager::GroupLockMode`)

The two enumerations of `lock_manager.h`, with the order and the compatibility matrix of
multi-granularity locking that the lock manager is meant to implement:

* `LockMode` is the join semilattice `IS < IX, S < SIX < X`;
* `GroupLockMode` adds the bottom `NON_LOCK`; `LockMode.toGroup` embeds the former;
* `compatible` is the IS/IX/S/SIX/X matrix, and `compatible_iff_le_limit` says it row by row:
  the modes compatible with `m` are exactly those below one group mode, `m.limit`.
-/

/-- `enum class LockMode`. -/
inductive LockMode where
  | shared
  | exclusive
  | intentionShared
  | intentionExclusive
  | sIx
  deriving DecidableEq, Repr

instance : Fintype LockMode where
  elems := {.shared, .exclusive, .intentionShared, .intentionExclusive, .sIx}
  complete m := by cases m <;> decide

/-- `enum class GroupLockMode`. -/
inductive GroupLockMode where
  | nonLock
  | is
  | ix
  | s
  | x
  | six
  deriving DecidableEq, Repr

instance : Fintype GroupLockMode where
  elems := {.nonLock, .is, .ix, .s, .x, .six}
  complete g := by cases g <;> decide

/-! ### The order on the group modes -/

/-- The order `NON_LOCK < IS < IX, S < SIX < X`, as a table. -/
def GroupLockMode.below : GroupLockMode → GroupLockMode → Bool
  | .nonLock, _ => true
  | .is, .nonLock => false
  | .is, _ => true
  | .ix, .ix | .ix, .six | .ix, .x => true
  | .s, .s | .s, .six | .s, .x => true
  | .six, .six | .six, .x => true
  | .x, .x => true
  | _, _ => false

/-- The join of two group modes. -/
def GroupLockMode.join (a b : GroupLockMode) : GroupLockMode :=
  if a.below b then b else if b.below a then a else .six

instance : PartialOrder GroupLockMode where
  le a b := a.below b = true
  le_refl a := by cases a <;> rfl
  le_trans := by decide
  le_antisymm := by decide

instance : DecidableRel (fun a b : GroupLockMode => a ≤ b) :=
  fun a b => inferInstanceAs (Decidable (a.below b = true))

instance : SemilatticeSup GroupLockMode where
  sup := GroupLockMode.join
  le_sup_left := by decide
  le_sup_right := by decide
  sup_le := by decide

instance : OrderBot GroupLockMode where
  bot := .nonLock
  bot_le a := by cases a <;> rfl

/-- The group mode of a queue that holds one request of this mode. -/
def LockMode.toGroup : LockMode → GroupLockMode
  | .shared => .s
  | .exclusive => .x
  | .intentionShared => .is
  | .intentionExclusive => .ix
  | .sIx => .six

theorem LockMode.toGroup_injective : Function.Injective LockMode.toGroup := by
  intro a b
  revert a b
  decide

/-- A held mode is never `NON_LOCK`. -/
theorem LockMode.toGroup_ne_nonLock (m : LockMode) : m.toGroup ≠ .nonLock := by
  cases m <;> decide

/-! ### The order on the lock modes -/

instance : PartialOrder LockMode where
  le a b := a.toGroup ≤ b.toGroup
  le_refl a := le_refl a.toGroup
  le_trans a b c := le_trans (a := a.toGroup)
  le_antisymm _ _ h₁ h₂ := LockMode.toGroup_injective (le_antisymm h₁ h₂)

instance : DecidableRel (fun a b : LockMode => a ≤ b) :=
  fun a b => inferInstanceAs (Decidable (a.toGroup ≤ b.toGroup))

/-- The join of two lock modes in `IS < IX, S < SIX < X`. -/
def LockMode.join (a b : LockMode) : LockMode :=
  if a ≤ b then b else if b ≤ a then a else .sIx

instance : SemilatticeSup LockMode where
  sup := LockMode.join
  le_sup_left := by decide
  le_sup_right := by decide
  sup_le := by decide

/-- The mode a transaction needs when it holds `own` (if anything) and asks for `req`. -/
def LockMode.joinOwn (own : Option LockMode) (req : LockMode) : LockMode :=
  match own with
  | none => req
  | some m => m ⊔ req

theorem LockMode.req_le_joinOwn (own : Option LockMode) (req : LockMode) :
    req ≤ LockMode.joinOwn own req := by
  cases own with
  | none => exact le_refl _
  | some m => exact le_sup_right

/-! ### Compatibility -/

/-- The compatibility matrix of multi-granularity locking. -/
def LockMode.compatible : LockMode → LockMode → Bool
  | .intentionShared, .exclusive => false
  | .intentionShared, _ => true
  | .intentionExclusive, .intentionShared => true
  | .intentionExclusive, .intentionExclusive => true
  | .shared, .intentionShared => true
  | .shared, .shared => true
  | .sIx, .intentionShared => true
  | _, _ => false

/-- The highest group mode a queue may have for a request of this mode to join it. -/
def LockMode.limit : LockMode → GroupLockMode
  | .intentionShared => .six
  | .intentionExclusive => .ix
  | .shared => .s
  | .sIx => .is
  | .exclusive => .nonLock

theorem LockMode.compatible_comm (a b : LockMode) : a.compatible b = b.compatible a := by
  revert a b
  decide

/-- Every row of the matrix is a down-set. -/
theorem LockMode.compatible_iff_le_limit (a b : LockMode) :
    a.compatible b = true ↔ b.toGroup ≤ a.limit := by
  revert a b
  decide

/-- What is compatible with a mode is compatible with every smaller one. -/
theorem LockMode.compatible_anti {a b c : LockMode} (h : a ≤ b) (hb : b.compatible c = true) :
    a.compatible c = true := by
  revert a b c
  decide

end Rmdb
