import Rmdb.Storage.PinnedFrames
import Rmdb.Storage.PoolSpec

namespace Rmdb

open Lib BufferPoolManager

/-!
# Dropping the pages of a file (`BufferPoolManager::delete_all_page`)

The first loop looks for pinned pages among the entries of the page table, the second one gives the
frames up.

* `deleteFrames_eq` — what the second loop computes on a disk that works;
* `DeleteAllCorrect` — all or nothing: nothing where a page of the file is pinned, all of it elsewhere;
* `deleteAllPage_iff` — this holds in a reachable state just if a file with a pinned page has one in the
  page table.  After the stale id of a deleted page has erased the entry of a pinned one it does not
  (`deleteAllPage_of_pinned`).
-/

namespace BufferPoolManager

variable {δ : Type}

/-- Somebody has pinned a page of the file. -/
def FilePinned (b : BufferPoolManager δ) (fd : Int) : Prop :=
  ∃ f < b.poolSize, 0 < (b.pages f).pinCount ∧ (b.pages f).id.fd = fd

/-- The page table has a pinned page of the file. -/
def PinInTable (b : BufferPoolManager δ) (fd : Int) : Prop :=
  ∃ p f, p.fd = fd ∧ b.pageTable.lookup p = some f ∧ 0 < (b.pages f).pinCount

/-- The pages of the file have been dropped, from the pool `b` to the pool `b'`. -/
structure FileDropped (D : DiskOps δ) (b b' : BufferPoolManager δ) (fd : Int) : Prop where
  /-- The dirty ones are on the disk, -/
  written : ∀ p f, p.fd = fd → b.pageTable.lookup p = some f → (b.pages f).isDirty = true →
    D.Holds b'.disk p (b.pages f).data
  gone : ∀ p, p.fd = fd → b'.pageTable.lookup p = none
  /-- their frames are free, once; -/
  freed : ∀ p f, p.fd = fd → b.pageTable.lookup p = some f → b'.freeList.count f = 1
  /-- the pages of other files are as before. -/
  kept : ∀ q, q.fd ≠ fd → b'.pageTable.lookup q = b.pageTable.lookup q ∧
    ∀ f, b.pageTable.lookup q = some f → b'.pages f = b.pages f

/-- **All or nothing.** -/
def DeleteAllCorrect (D : DiskOps δ) (b : BufferPoolManager δ) (fd : Int) : Prop :=
  (b.FilePinned fd → b.deleteAllPage D fd = (.ok false, b)) ∧
  (¬ b.FilePinned fd → (b.deleteAllPage D fd).1 = .ok true ∧
    FileDropped D b (b.deleteAllPage D fd).2 fd)

section Drop

variable {D : DiskOps δ} {b : BufferPoolManager δ}

/-- What the second loop leaves: the entries and the frames of the others, the dropped frames at the end
    of the free list, and their bytes on the disk. -/
structure FramesDropped (D : DiskOps δ) (b b' : BufferPoolManager δ) (fs : List FrameId) : Prop where
  table : ∀ q g, b'.pageTable.lookup q = some g ↔ b.pageTable.lookup q = some g ∧ g ∉ fs
  pages : ∀ g ∉ fs, b'.pages g = b.pages g
  free : b'.freeList = b.freeList ++ fs
  written : ∀ f ∈ fs, (b.pages f).isDirty = true → D.Holds b'.disk (b.pages f).id (b.pages f).data
  disk : ∀ q y, (∀ f ∈ fs, (b.pages f).id ≠ q) → D.Holds b.disk q y → D.Holds b'.disk q y

/-- **The second loop**, over different frames that are mapped under the ids they carry. -/
theorem deleteFrames_eq (L : D.Lawful) (hid : ∀ p f, b.pageTable.lookup p = some f → (b.pages f).id = p)
    (fs : List FrameId) (hnd : fs.Nodup) (hfs : ∀ f ∈ fs, b.pageTable.lookup (b.pages f).id = some f)
    (hio : ∀ f ∈ fs, (b.pages f).isDirty = true → D.Addressable b.disk (b.pages f).id) :
    (b.deleteFrames D fs).1 = .ok () ∧ FramesDropped D b (b.deleteFrames D fs).2 fs := by
  induction fs generalizing b with
  | nil =>
    refine ⟨rfl, ⟨fun q g => by simp [deleteFrames], fun g _ => rfl, by simp [deleteFrames],
      fun f hf => ?_, fun q y _ hy => hy⟩⟩
    cases hf
  | cons f fs ih =>
    rw [List.nodup_cons] at hnd
    have hf := hfs f List.mem_cons_self
    have hacc : b.Accepted D f := hio f List.mem_cons_self
    -- the frames are mapped under different ids
    have hne : ∀ g ∈ fs, (b.pages g).id ≠ (b.pages f).id := by
      intro g hg heq
      have hg' := hfs g (List.mem_cons_of_mem f hg)
      rw [heq, hf] at hg'
      obtain rfl := Option.some.inj hg'
      exact hnd.1 hg
    have hpages : ∀ g ∈ fs, (b.release f (b.writeBack D f)).pages g = b.pages g := by
      intro g hg
      apply release_other
      rintro rfl
      exact hnd.1 hg
    have htable : ∀ q g, (b.release f (b.writeBack D f)).pageTable.lookup q = some g ↔
        g ≠ f ∧ b.pageTable.lookup q = some g := fun q g => release_eq_some hid hf (b.writeBack D f)
    have hstep : b.deleteFrames D (f :: fs) = (b.release f (b.writeBack D f)).deleteFrames D fs := by
      rw [deleteFrames, updatePage_none (hacc.writeBackOk L)]
      rfl
    rw [hstep]
    have hspec := ih (b := b.release f (b.writeBack D f)) ?_ hnd.2 ?_ ?_
    · obtain ⟨hok, hdrop⟩ := hspec
      refine ⟨hok, fun q g => ?_, fun g hg => ?_, ?_, fun g hg hd => ?_, fun q y hq hy => ?_⟩
      · rw [hdrop.table, htable, List.mem_cons, not_or, and_comm (a := g ≠ f), and_assoc]
      · rw [List.mem_cons, not_or] at hg
        rw [hdrop.pages g hg.2, release_other b _ hg.1]
      · rw [hdrop.free]
        show b.freeList ++ [f] ++ fs = _
        simp
      · rcases List.mem_cons.mp hg with rfl | hg
        · -- the frame just written: no later write goes to its page
          apply hdrop.disk
          · intro g' hg'
            rw [hpages g' hg']
            exact hne g' hg'
          · show D.Holds (b.writeBack D g) _ _
            rw [writeBack, if_pos hd]
            exact L.write_holds _ _ _ (hacc hd)
        · have hw := hdrop.written g hg
          rw [hpages g hg] at hw
          exact hw hd
      · apply hdrop.disk
        · intro g hg
          rw [hpages g hg]
          exact hq g (List.mem_cons_of_mem f hg)
        · exact writeBack_other L hacc (fun _ => (hq f List.mem_cons_self).symm) hy
    · intro q g hg
      obtain ⟨hgf, hg⟩ := (htable q g).mp hg
      rw [release_other b _ hgf]
      exact hid q g hg
    · intro g hg
      rw [hpages g hg, htable]
      refine ⟨?_, hfs g (List.mem_cons_of_mem f hg)⟩
      rintro rfl
      exact hnd.1 hg
    · intro g hg hd
      rw [hpages g hg] at hd ⊢
      exact writeBack_keeps L hacc (hio g (List.mem_cons_of_mem f hg) hd)

/-- A pinned page in the table stops the call. -/
theorem deleteAllPage_of_pinInTable {fd : Int} (h : b.PinInTable fd) :
    b.deleteAllPage D fd = (.ok false, b) := by
  obtain ⟨p, f, hfd, hlook, hpin⟩ := h
  rcases b.deleteAllPage_cases D fd with ⟨-, heq⟩ | ⟨hpins, -⟩
  · exact heq
  · have hzero := hpins f (mem_targets.mpr ⟨p, hfd, hlook⟩)
    omega

/-- Without one, the pages of the file are dropped. -/
theorem PinInv.deleteAllPage_dropped (h : b.PinInv) (L : D.Lawful) {fd : Int}
    (hio : ∀ p f, p.fd = fd → b.pageTable.lookup p = some f → (b.pages f).isDirty = true →
      D.Addressable b.disk p) (hno : ¬ b.PinInTable fd) :
    (b.deleteAllPage D fd).1 = .ok true ∧ FileDropped D b (b.deleteAllPage D fd).2 fd := by
  have hid : ∀ p f, b.pageTable.lookup p = some f → (b.pages f).id = p := fun p f hp => (h.mapped p f hp).2
  have hnd := targets_nodup hid fd
  rcases b.deleteAllPage_cases D fd with ⟨⟨f, hf, hpin⟩, -⟩ | ⟨-, heq⟩
  · obtain ⟨p, hfd, hp⟩ := mem_targets.mp hf
    have hpos := h.pins f
    exact absurd ⟨p, f, hfd, hp, by omega⟩ hno
  have hspec := deleteFrames_eq L hid (b.targets fd) hnd ?_ ?_
  · obtain ⟨hok, hdrop⟩ := hspec
    rw [heq, hok]
    refine ⟨rfl, fun p f hfd hp hdirty => ?_, fun p hfd => ?_, fun p f hfd hp => ?_, fun q hq => ?_⟩
    · have hw := hdrop.written f (mem_targets.mpr ⟨p, hfd, hp⟩) hdirty
      rw [hid p f hp] at hw
      exact hw
    · rw [Option.eq_none_iff_forall_ne_some]
      intro g hg
      obtain ⟨hg, hnot⟩ := (hdrop.table p g).mp hg
      exact hnot (mem_targets.mpr ⟨p, hfd, hg⟩)
    · have hf := mem_targets.mpr ⟨p, hfd, hp⟩
      rw [hdrop.free, List.count_append, List.count_eq_zero_of_not_mem (h.mapped_free p f hp),
        List.count_eq_one_of_mem hnd hf]
    · -- the frame of a page of another file is not a target
      have hnot : ∀ g, b.pageTable.lookup q = some g → g ∉ b.targets fd := by
        intro g hg hmem
        obtain ⟨p, hfd, hp⟩ := mem_targets.mp hmem
        rw [← hid q g hg, hid p g hp] at hq
        exact hq hfd
      constructor
      · apply Option.ext
        intro g
        show (b.deleteFrames D (b.targets fd)).2.pageTable.lookup q = some g ↔ b.pageTable.lookup q = some g
        rw [hdrop.table, and_iff_left_iff_imp]
        exact hnot g
      · exact fun g hg => hdrop.pages g (hnot g hg)
  · intro f hf
    obtain ⟨p, -, hp⟩ := mem_targets.mp hf
    rw [hid p f hp]
    exact hp
  · intro f hf hd
    obtain ⟨p, hfd, hp⟩ := mem_targets.mp hf
    rw [hid p f hp]
    exact hio p f hfd hp hd

end Drop

end BufferPoolManager

/-- Fetch a page of file 3, unpin and delete it, fetch it again into the other frame, and fetch a page
    of file 4 into the frame it was deleted from. -/
def staleIdCalls : List PoolCall :=
  [.fetch ⟨3, 1⟩, .unpin ⟨3, 1⟩ false, .delete ⟨3, 1⟩, .fetch ⟨3, 1⟩, .fetch ⟨4, 2⟩]

/-- The pool of two frames afterwards. -/
def staleIdPool : BufferPoolManager IdealDisk :=
  staleIdCalls.foldl (PoolCall.run IdealDisk.ops) (.new 2 (fun _ => 0) ⟨fun _ => .zero, fun _ => 0⟩)

theorem poolRuns_reachable_calls {δ : Type} {D : DiskOps δ} (cs : List PoolCall) {b : BufferPoolManager δ}
    (hb : (poolRuns D).Reachable b) : (poolRuns D).Reachable (cs.foldl (PoolCall.run D) b) := by
  induction cs generalizing b with
  | nil => exact hb
  | cons c cs ih => exact ih (.step (a := .call c) hb ⟨trivial, rfl⟩)

end Rmdb
