namespace Rmdb

/-!
# Shared identifiers (`defs.h`, `common/config.h`, `storage/page.h`)

The record identifier `Rid`, the page identifier `PageId` and the constants of `config.h` that
several components read.  The `int` fields are `Int`: `-1` is a legal value of most of them.
-/

/-- `struct Rid`: the place of a record in its table file. -/
structure Rid where
  pageNo : Int
  slotNo : Int
  deriving DecidableEq, Repr

/-- `struct PageId`: an open file and a page number in it. -/
structure PageId where
  fd : Int
  pageNo : Int
  deriving DecidableEq, Repr

/-- `INVALID_PAGE_ID`. -/
def invalidPageId : Int := -1

/-- `INVALID_LSN`. -/
def invalidLsn : Int := -1

/-- `PAGE_SIZE`. -/
def pageSize : Nat := 4096

/-- `txn_id_t`. -/
abbrev TxnId := Int

/-- `lsn_t`. -/
abbrev Lsn := Int

end Rmdb
