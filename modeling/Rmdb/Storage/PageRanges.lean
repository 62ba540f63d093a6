import Rmdb.Storage.DiskManager

namespace Rmdb

/-!
# The place of a page in its file

`write_page` and `read_page` address the `PAGE_SIZE` bytes from `page_no * PAGE_SIZE` on, and the
product is computed in `int` before it becomes an `off_t`.

* `InPage` — the offsets a page number addresses;
* `pageOffset_eq_iff` — for which page numbers the product is right;
* `pageOffset_eq_pageOffset_iff` — which page numbers have one offset;
* `Apart`, `apart_iff` — two pages have their own places exactly when both are below page `2^19`.
-/

namespace DiskManager

/-- The largest `page_id_t`. -/
def maxPageNo : Int := 2147483647

/-- The offset `i` is one of those that `write_page` and `read_page` address for the page. -/
def InPage (pageNo i : Int) : Prop := pageOffset pageNo ≤ i ∧ i < pageOffset pageNo + pageSize

/-- What it means that two pages of a file have places of their own: they begin at
    `page_no * PAGE_SIZE` and share no byte, and a write to the first page succeeds, is read back
    and is not seen by a reader of the second page. -/
structure Apart (p q : Int) : Prop where
  start : pageOffset p = p * pageSize
  start_other : pageOffset q = q * pageSize
  disjoint : ∀ i, InPage p i → ¬ InPage q i
  write : ∀ (d : DiskManager) (fd : Int) (path : String) (file : FileData),
    d.descriptors.lookup fd = some path → d.files path = some file →
    ∀ data : Nat → UInt8, (d.writePage fd p pageSize data).1 = .ok () ∧
      (∀ buf, (d.writePage fd p pageSize data).2.readPage fd p pageSize buf =
        (.ok (), fun i => if i < pageSize then data i else buf i)) ∧
      ∀ buf r, d.readPage fd q pageSize buf = (.ok (), r) →
        (d.writePage fd p pageSize data).2.readPage fd q pageSize buf = (.ok (), r)

/-! ### The product -/

theorem pageOffset_lt (n : Int) : pageOffset n < 2147483648 := by
  have h := Int.bmod_lt (x := n * pageSize) (m := 4294967296) (by decide)
  unfold pageOffset
  omega

/-- **The product is right** for the page numbers below `2^19` and no others. -/
theorem pageOffset_eq_iff {n : Int} (h0 : 0 ≤ n) : pageOffset n = n * pageSize ↔ n < maxPages := by
  constructor
  · intro heq
    have hlt := pageOffset_lt n
    rw [heq] at hlt
    simp only [pageSize, maxPages] at *
    omega
  · exact pageOffset_eq h0

/-- **Aliases**: the page numbers with one offset are those that differ by a multiple of `2^20`. -/
theorem pageOffset_eq_pageOffset_iff {m n : Int} :
    pageOffset m = pageOffset n ↔ (m - n) % 1048576 = 0 := by
  unfold pageOffset
  simp only [Int.bmod, pageSize]
  omega

theorem not_inPage_of_ne {p q i : Int} (hp : pageOffset p = p * pageSize)
    (hq : pageOffset q = q * pageSize) (hne : p ≠ q) (hi : InPage p i) : ¬ InPage q i := by
  unfold InPage at *
  rw [hp] at hi
  rw [hq]
  simp only [pageSize] at *
  omega

/-! ### Writing one page -/

section Write

variable {d : DiskManager} {fd p q : Int} {path : String} {file : FileData}

/-- A page that is read holds its bytes inside the file. -/
theorem size_of_readPage (hd : d.descriptors.lookup fd = some path) (hf : d.files path = some file)
    (h0 : 0 ≤ q) (h1 : q < maxPages) {buf r : Nat → UInt8}
    (hr : d.readPage fd q pageSize buf = (.ok (), r)) :
    (q * pageSize).toNat + pageSize ≤ file.size := by
  unfold readPage at hr
  rw [fileOf_eq hd hf] at hr
  dsimp only at hr
  rw [pageOffset_eq h0 h1, if_neg (by simp only [pageSize]; omega)] at hr
  split at hr
  · assumption
  · cases hr

/-- The file after the write of a page in reach. -/
theorem writePage_files (hd : d.descriptors.lookup fd = some path) (hf : d.files path = some file)
    (h0 : 0 ≤ p) (h1 : p < maxPages) (data : Nat → UInt8) :
    (d.writePage fd p pageSize data).2.descriptors.lookup fd = some path ∧
      (d.writePage fd p pageSize data).2.files path =
        some (file.write (p * pageSize).toNat pageSize data) := by
  rw [writePage_eq hd hf h0 h1]
  exact ⟨hd, Function.update_self _ _ _⟩

/-- What is written is read back. -/
theorem readPage_writePage (hd : d.descriptors.lookup fd = some path)
    (hf : d.files path = some file) (h0 : 0 ≤ p) (h1 : p < maxPages) (data buf : Nat → UInt8) :
    (d.writePage fd p pageSize data).2.readPage fd p pageSize buf =
      (.ok (), fun i => if i < pageSize then data i else buf i) := by
  obtain ⟨hd', hf'⟩ := writePage_files hd hf h0 h1 data
  rw [readPage_eq hd' hf' h0 h1 _ (FileData.size_le_write _ _ _ _).2]
  refine Prod.ext rfl (funext fun i => ?_)
  dsimp only
  split
  · exact FileData.byte_write_inside _ _ _ _ (by assumption)
  · rfl

/-- Another page in reach is read as before. -/
theorem readPage_writePage_of_ne (hd : d.descriptors.lookup fd = some path)
    (hf : d.files path = some file) (hp0 : 0 ≤ p) (hp1 : p < maxPages) (hq0 : 0 ≤ q)
    (hq1 : q < maxPages) (hne : p ≠ q) (data : Nat → UInt8) {buf r : Nat → UInt8}
    (hr : d.readPage fd q pageSize buf = (.ok (), r)) :
    (d.writePage fd p pageSize data).2.readPage fd q pageSize buf = (.ok (), r) := by
  have hsize := size_of_readPage hd hf hq0 hq1 hr
  obtain ⟨hd', hf'⟩ := writePage_files hd hf hp0 hp1 data
  rw [readPage_eq hd hf hq0 hq1 _ hsize] at hr
  rw [readPage_eq hd' hf' hq0 hq1 _ (Nat.le_trans hsize (FileData.size_le_write _ _ _ _).1), ← hr]
  refine Prod.ext rfl (funext fun i => ?_)
  dsimp only
  split
  · -- the byte lies in the other page
    apply FileData.byte_write_outside
    · omega
    · simp only [pageSize] at *
      omega
  · rfl

end Write

/-- **Two pages have their own places** exactly when the offsets of both fit in an `int`. -/
theorem apart_iff (p q : Int) (hp : 0 ≤ p ∧ p ≤ maxPageNo) (hq : 0 ≤ q ∧ q ≤ maxPageNo)
    (hne : p ≠ q) : Apart p q ↔ p < maxPages ∧ q < maxPages := by
  constructor
  · intro h
    exact ⟨(pageOffset_eq_iff hp.1).mp h.start, (pageOffset_eq_iff hq.1).mp h.start_other⟩
  · rintro ⟨hp1, hq1⟩
    have hstart := pageOffset_eq hp.1 hp1
    have hother := pageOffset_eq hq.1 hq1
    refine ⟨hstart, hother, fun i => not_inPage_of_ne hstart hother hne, ?_⟩
    intro d fd path file hd hf data
    refine ⟨?_, ?_, ?_⟩
    · rw [writePage_eq hd hf hp.1 hp1]
    · exact readPage_writePage hd hf hp.1 hp1 data
    · intro buf r hr
      exact readPage_writePage_of_ne hd hf hp.1 hp1 hq.1 hq1 hne data hr

/-- The theorem at the file header and the last page in reach. -/
theorem apart_zero_last : (0 : Int) ≠ 524287 ∧ Apart 0 524287 :=
  ⟨by decide, (apart_iff 0 524287 (by decide) (by decide) (by decide)).mpr (by decide)⟩

/-- **Page `2^20` is written over the file header.** -/
theorem not_apart_header : ¬ ∀ p q : Int, 0 ≤ p ∧ p ≤ maxPageNo → 0 ≤ q ∧ q ≤ maxPageNo → p ≠ q →
    Apart p q := by
  intro hall
  have hoffset : pageOffset 1048576 = pageOffset 0 :=
    pageOffset_eq_pageOffset_iff.mpr (by decide)
  have h := hall 1048576 0 (by decide) (by decide) (by decide)
  refine h.disjoint 0 ?_ ?_
  · unfold InPage
    rw [hoffset]
    decide
  · unfold InPage
    decide

end DiskManager

end Rmdb
