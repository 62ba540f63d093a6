import Rmdb.Storage.DiskManager
import Rmdb.Storage.PinnedFrames

namespace Rmdb

open Lib BufferPoolManager

/-!
# Calls that throw (`BufferPoolManager::fetch_page`, `new_page`)

Both take the victim out of its list and change the page table before the disk has done its part, and
neither undoes anything when it fails:

* a write-back that fails leaves the victim in neither list (`PinInv.dirty_victim`);
* a read that fails leaves the entry of the page that was not read (`fetchPage_read_error`), and the next
  fetch returns what is in the frame (`fetch_after_read_error`).

So the pool is left as it was just when nothing is thrown (`failed_io_iff`).
-/

namespace BufferPoolManager

variable {δ : Type}

/-- A frame that could be had before can be had afterwards. -/
def NoFrameLost (b b' : BufferPoolManager δ) : Prop :=
  ∀ f, f ∈ b.freeList ∨ f ∈ b.replacer.frames → f ∈ b'.freeList ∨ f ∈ b'.replacer.frames

/-- The next fetch of the page throws, or returns the bytes the disk has. -/
def OwnBytes (D : DiskOps δ) (b : BufferPoolManager δ) (p : PageId) : Prop :=
  ∀ f, (b.fetchPage D p).1 = .ok (some f) →
    ∀ buf, D.readPage (b.fetchPage D p).2.disk p buf = (.ok (), ((b.fetchPage D p).2.pages f).data)

/-- A `fetch_page` that throws leaves the pool usable. -/
def FetchUsable (D : DiskOps δ) (b : BufferPoolManager δ) (p : PageId) : Prop :=
  ∀ e, (b.fetchPage D p).1 = .error e →
    NoFrameLost b (b.fetchPage D p).2 ∧ (b.fetchPage D p).2.pageTable.lookup p = none ∧
      OwnBytes D (b.fetchPage D p).2 p

/-- A `new_page` that throws leaves the pool usable. -/
def NewUsable (D : DiskOps δ) (b : BufferPoolManager δ) (fd : Int) : Prop :=
  ∀ e, (b.newPage D fd).1 = .error e → NoFrameLost b (b.newPage D fd).2

/-- The disk does its part for `fetch_page`: the victim is clean or written back, and the page is read. -/
def FetchIo (D : DiskOps δ) (b : BufferPoolManager δ) (p : PageId) : Prop :=
  b.pageTable.lookup p = none → ∀ f b₁, b.findVictimPage = (some f, b₁) →
    b₁.WriteBackOk D f ∧ (D.readPage (b₁.writeBack D f) p (b₁.pages f).data).1 = .ok ()

/-- The disk does its part for `new_page`. -/
def NewIo (D : DiskOps δ) (b : BufferPoolManager δ) (fd : Int) : Prop :=
  ∀ f b₁, b.findVictimPage = (some f, b₁) →
    { b₁ with disk := (D.allocatePage b₁.disk fd).2 }.WriteBackOk D f

section Failures

variable {D : DiskOps δ} {b b₁ : BufferPoolManager δ} {f : FrameId} {p : PageId} {fd : Int}

/-- **A dirty victim** comes from the replacer, and is then in neither list. -/
theorem PinInv.dirty_victim (h : b.PinInv) (hv : b.findVictimPage = (some f, b₁))
    (hd : (b₁.pages f).isDirty = true) :
    f ∈ b.replacer.frames ∧ f ∉ b₁.freeList ∧ f ∉ b₁.replacer.frames := by
  obtain ⟨-, hpages, -, -, hfree⟩ := h.victim hv
  rw [hpages] at hd
  unfold findVictimPage at hv
  cases hlist : b.freeList with
  | cons g rest =>
    rw [hlist] at hv
    obtain ⟨hg, -⟩ := Prod.mk.inj hv
    obtain rfl := Option.some.inj hg
    have hclean := h.free_clean g (by rw [hlist]; exact List.mem_cons_self)
    rw [hd] at hclean
    cases hclean
  | nil =>
    rw [hlist] at hv
    obtain ⟨hf, rfl⟩ := Prod.mk.inj hv
    refine ⟨LRUReplacer.victim_mem hf, hfree, fun hmem => ?_⟩
    exact ((LRUReplacer.mem_victim_frames h.replacer hf f).mp hmem).2 rfl

/-- A write-back that fails. -/
theorem exists_write_error (hw : ¬ b.WriteBackOk D f) :
    (b.pages f).isDirty = true ∧ ∃ e, (D.writePage b.disk (b.pages f).id (b.pages f).data).1 = .error e := by
  unfold WriteBackOk at hw
  push Not at hw
  obtain ⟨hd, hne⟩ := hw
  refine ⟨hd, ?_⟩
  cases hres : (D.writePage b.disk (b.pages f).id (b.pages f).data).1 with
  | error e => exact ⟨e, rfl⟩
  | ok u => exact absurd hres hne

/-- `update_page` then changes nothing but the disk. -/
theorem updatePage_write_error {e : DiskError} (hd : (b.pages f).isDirty = true)
    (hw : (D.writePage b.disk (b.pages f).id (b.pages f).data).1 = .error e) (p : PageId)
    (o : Option FrameId) :
    b.updatePage D f p o =
      (.error e, { b with disk := (D.writePage b.disk (b.pages f).id (b.pages f).data).2 }) := by
  unfold updatePage
  simp only [hd, if_true, hw]

/-- **`fetch_page` whose write-back fails** loses the victim. -/
theorem PinInv.fetchPage_write_error (h : b.PinInv) (hp : b.pageTable.lookup p = none)
    (hv : b.findVictimPage = (some f, b₁)) (hw : ¬ b₁.WriteBackOk D f) :
    (∃ e, (b.fetchPage D p).1 = .error e) ∧ ¬ NoFrameLost b (b.fetchPage D p).2 := by
  obtain ⟨hd, e, he⟩ := exists_write_error hw
  obtain ⟨hmem, hfree, hframes⟩ := h.dirty_victim hv hd
  have hfetch : b.fetchPage D p =
      (.error e, { b₁ with disk := (D.writePage b₁.disk (b₁.pages f).id (b₁.pages f).data).2 }) := by
    unfold fetchPage
    simp only [hp, hv, updatePage_write_error hd he]
  rw [hfetch]
  refine ⟨⟨e, rfl⟩, fun hkept => ?_⟩
  rcases hkept f (Or.inr hmem) with hf | hf
  · exact hfree hf
  · exact hframes hf

/-- **`new_page` whose write-back fails** loses the victim too. -/
theorem PinInv.newPage_write_error (h : b.PinInv) (hv : b.findVictimPage = (some f, b₁))
    (hw : ¬ { b₁ with disk := (D.allocatePage b₁.disk fd).2 }.WriteBackOk D f) :
    (∃ e, (b.newPage D fd).1 = .error e) ∧ ¬ NoFrameLost b (b.newPage D fd).2 := by
  obtain ⟨hd, e, he⟩ := exists_write_error hw
  obtain ⟨hmem, hfree, hframes⟩ := h.dirty_victim hv hd
  have hnew : b.newPage D fd = (.error e, { b₁ with
      disk := (D.writePage (D.allocatePage b₁.disk fd).2 (b₁.pages f).id (b₁.pages f).data).2 }) := by
    unfold newPage
    simp only [hv, updatePage_write_error hd he]
  rw [hnew]
  refine ⟨⟨e, rfl⟩, fun hkept => ?_⟩
  rcases hkept f (Or.inr hmem) with hf | hf
  · exact hfree hf
  · exact hframes hf

/-- The frame of a page that could not be read: mapped, with what the read has left in it. -/
theorem fetchPage_read_error (hp : b.pageTable.lookup p = none) (hv : b.findVictimPage = (some f, b₁))
    (hw : b₁.WriteBackOk D f) {e : DiskError}
    (hr : (D.readPage (b₁.writeBack D f) p (b₁.pages f).data).1 = .error e) :
    (b.fetchPage D p).1 = .error e ∧ (b.fetchPage D p).2.pageTable.lookup p = some f ∧
      ((b.fetchPage D p).2.pages f).data = (D.readPage (b₁.writeBack D f) p (b₁.pages f).data).2 := by
  have htable : b₁.pageTable = b.pageTable := by
    unfold findVictimPage at hv
    split at hv
    · obtain ⟨-, rfl⟩ := Prod.mk.inj hv
      rfl
    · obtain ⟨-, rfl⟩ := Prod.mk.inj hv
      rfl
  have hnone : b₁.pageTable.lookup p ≠ none → p = (b₁.pages f).id := fun hne =>
    absurd (htable ▸ hp) hne
  unfold fetchPage
  rw [hp]
  simp only [hv, updatePage_some hw]
  simp only [setPage, Function.update_self, hr, Function.update_idem, true_and, and_true]
  rw [lookup_emplace_erase hnone, if_pos rfl]

/-- **The next fetch** returns it. -/
theorem fetch_after_read_error (hp : b.pageTable.lookup p = none) (hv : b.findVictimPage = (some f, b₁))
    (hw : b₁.WriteBackOk D f) {e : DiskError}
    (hr : (D.readPage (b₁.writeBack D f) p (b₁.pages f).data).1 = .error e) :
    ((b.fetchPage D p).2.fetchPage D p).1 = .ok (some f) ∧
      (((b.fetchPage D p).2.fetchPage D p).2.pages f).data =
        (D.readPage (b₁.writeBack D f) p (b₁.pages f).data).2 := by
  obtain ⟨-, hlook, hdata⟩ := fetchPage_read_error hp hv hw hr
  rw [fetchPage_hit hlook]
  refine ⟨rfl, ?_⟩
  simp [pinFrame, setPage, hdata]

/-- Where the disk does its part nothing is thrown. -/
theorem fetchPage_ok (hio : b.FetchIo D p) : ∃ r, (b.fetchPage D p).1 = .ok r := by
  unfold fetchPage
  cases hp : b.pageTable.lookup p with
  | some f => exact ⟨_, rfl⟩
  | none =>
    rcases hv : b.findVictimPage with ⟨_ | f, b₁⟩
    · exact ⟨_, rfl⟩
    · obtain ⟨hw, hr⟩ := hio hp f b₁ hv
      simp only [updatePage_some hw]
      simp only [setPage, Function.update_self, hr]
      exact ⟨_, rfl⟩

theorem newPage_ok (hio : b.NewIo D fd) : ∃ r, (b.newPage D fd).1 = .ok r := by
  unfold newPage
  rcases hv : b.findVictimPage with ⟨_ | f, b₁⟩
  · exact ⟨_, rfl⟩
  · simp only [updatePage_some (hio f b₁ hv)]
    exact ⟨_, rfl⟩

end Failures

end BufferPoolManager

/-- **When a failing call leaves the pool usable.**  In every reachable state, over any disk: exactly if
    the disk does its part, so that the call does not throw. -/
theorem failed_io_iff {δ : Type} {D : DiskOps δ} {b : BufferPoolManager δ}
    (hb : (poolRuns D).Reachable b) :
    (∀ p, b.FetchUsable D p ↔ b.FetchIo D p) ∧ ∀ fd, b.NewUsable D fd ↔ b.NewIo D fd := by
  have h := PinInv.of_reachable hb
  refine ⟨fun p => ⟨fun husable hp f b₁ hv => ?_, fun hio e he => ?_⟩,
    fun fd => ⟨fun husable f b₁ hv => ?_, fun hio e he => ?_⟩⟩
  · have hw : b₁.WriteBackOk D f := by
      by_contra hw
      obtain ⟨⟨e, he⟩, hlost⟩ := h.fetchPage_write_error hp hv hw
      exact hlost (husable e he).1
    refine ⟨hw, ?_⟩
    cases hr : (D.readPage (b₁.writeBack D f) p (b₁.pages f).data).1 with
    | ok u => rfl
    | error e =>
      -- the entry of the page stays
      obtain ⟨he, hlook, -⟩ := fetchPage_read_error hp hv hw hr
      rw [(husable e he).2.1] at hlook
      cases hlook
  · obtain ⟨r, hr⟩ := fetchPage_ok hio
    rw [hr] at he
    cases he
  · by_contra hw
    obtain ⟨⟨e, he⟩, hlost⟩ := h.newPage_write_error hv hw
    exact hlost (husable e he)
  · obtain ⟨r, hr⟩ := newPage_ok hio
    rw [hr] at he
    cases he

/-- On the ideal disk there is nothing to fail. -/
theorem failed_io_iff_one_fetch : onePinned.FetchUsable IdealDisk.ops ⟨4, 2⟩ := by
  have hreach : (poolRuns IdealDisk.ops).Reachable onePinned :=
    .step (a := .call (.fetch ⟨3, 1⟩)) (.init ⟨1, fun _ => 0, ⟨fun _ => .zero, fun _ => 0⟩, rfl⟩)
      ⟨trivial, rfl⟩
  exact ((failed_io_iff hreach).1 ⟨4, 2⟩).mpr fun _ _ _ _ => ⟨fun _ => rfl, rfl⟩

/-- A file of one page of sevens, open as 3. -/
def sevensDisk : DiskManager where
  files path := if path = "t" then some ⟨pageSize, fun _ => 7⟩ else none
  descriptors := [(3, "t")]
  path2fd path := if path = "t" then some 3 else none
  fd2path fd := if fd = 3 then some "t" else none
  fd2pageno _ := 1

/-- A pool of one frame that has fetched the page and unpinned it. -/
def sevensPool : BufferPoolManager DiskManager :=
  [PoolCall.fetch ⟨3, 0⟩, .unpin ⟨3, 0⟩ false].foldl (PoolCall.run DiskManager.ops)
    (.new 1 (fun _ => 0) sevensDisk)

/-- **A page beyond the end of the file.**  Its fetch throws, leaves an entry, and the next fetch returns
    the sevens of the page that was in the frame. -/
theorem fetch_beyond_end :
    (poolRuns DiskManager.ops).Reachable sevensPool ∧
    (sevensPool.fetchPage DiskManager.ops ⟨3, 1⟩).1 =
      .error (.internalError "DiskManager::read_page Error") ∧
    (sevensPool.fetchPage DiskManager.ops ⟨3, 1⟩).2.pageTable.lookup ⟨3, 1⟩ = some 0 ∧
    ((sevensPool.fetchPage DiskManager.ops ⟨3, 1⟩).2.fetchPage DiskManager.ops ⟨3, 1⟩).1 = .ok (some 0) ∧
    (((sevensPool.fetchPage DiskManager.ops ⟨3, 1⟩).2.fetchPage DiskManager.ops ⟨3, 1⟩).2.pages 0).data
      ⟨0, by decide⟩ = 7 ∧
    ¬ sevensPool.FetchUsable DiskManager.ops ⟨3, 1⟩ := by
  have herr : (sevensPool.fetchPage DiskManager.ops ⟨3, 1⟩).1 =
      .error (.internalError "DiskManager::read_page Error") := by decide
  have hlook : (sevensPool.fetchPage DiskManager.ops ⟨3, 1⟩).2.pageTable.lookup ⟨3, 1⟩ = some 0 := by decide
  refine ⟨?_, herr, hlook, by decide, by decide, fun husable => ?_⟩
  · exact .step (a := .call (.unpin ⟨3, 0⟩ false))
      (.step (a := .call (.fetch ⟨3, 0⟩)) (.init ⟨1, fun _ => 0, sevensDisk, rfl⟩) ⟨trivial, rfl⟩)
      ⟨trivial, rfl⟩
  · have hnone := (husable _ herr).2.1
    rw [hlook] at hnone
    cases hnone

/-- The next fetch of the page beyond the end. -/
theorem BufferPoolManager.fetch_after_read_error_sevens :
    ((sevensPool.fetchPage DiskManager.ops ⟨3, 1⟩).2.fetchPage DiskManager.ops ⟨3, 1⟩).1 = .ok (some 0) :=
  (fetch_after_read_error (b := sevensPool) (D := DiskManager.ops) (p := ⟨3, 1⟩) (f := 0) (by decide) rfl
    (fun h => absurd h (by decide)) (e := .internalError "DiskManager::read_page Error") (by decide)).1

end Rmdb
