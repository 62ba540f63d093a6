import Mathlib.Logic.Relation
import Rmdb.Lib.Transition
import Rmdb.Storage.PoolSpec

namespace Rmdb

open Lib BufferPoolManager

/-!
# Runs of the buffer pool

Any client may call any operation of the pool at any time, and may change the bytes of a page while
it is pinned.  `poolSystem` is that system over the ideal disk.

`delete_page` and `delete_all_page` return a frame to the free list with the id of the deleted page
still in it.  When such a frame is reused, `update_page` erases that id from the page table, even if
another frame holds the page by then.  `PoolOp.SafeStep` says when this does not happen, and
`deleted_page_loses_mapping` that it can:

* `safePoolSystem_ok` — in a run of safe steps the invariant holds in every state;
* `bufferPool_consistent` — what that means for the clients.
-/

/-- A step of the pool or of a client. -/
inductive PoolOp where
  | fetch (p : PageId)
  | new (fd : Int)
  | unpin (p : PageId) (isDirty : Bool)
  | flush (p : PageId)
  | delete (p : PageId)
  | deleteAll (fd : Int)
  | flushAllPages (fd : Int)
  | flushAllPage
  /-- A client changes the bytes of a frame it has pinned. -/
  | write (f : FrameId) (data : PageData)
  /-- The unordered map is rehashed: the same entries in another order. -/
  | rehash (t : AList (fun _ : PageId => FrameId))

namespace PoolOp

/-- When the step is possible. -/
def Enabled (b : BufferPoolManager IdealDisk) : PoolOp → Prop
  | .write f _ => f < b.poolSize ∧ 0 < (b.pages f).pinCount
  | .rehash t => t.entries.Perm b.pageTable.entries
  | _ => True

/-- The state after the step. -/
def apply (b : BufferPoolManager IdealDisk) : PoolOp → BufferPoolManager IdealDisk
  | .fetch p => (b.fetchPage IdealDisk.ops p).2
  | .new fd => (b.newPage IdealDisk.ops fd).2
  | .unpin p isDirty => (b.unpinPage p isDirty).2
  | .flush p => (b.flushPage IdealDisk.ops p).2
  | .delete p => (b.deletePage IdealDisk.ops p).2
  | .deleteAll fd => (b.deleteAllPage IdealDisk.ops fd).2
  | .flushAllPages fd => (b.flushAllPages IdealDisk.ops fd).2
  | .flushAllPage => (b.flushAllPage IdealDisk.ops).2
  | .write f data => b.setPage f { b.pages f with data := data }
  | .rehash t => { b with pageTable := t }

/-- The id `new_page` would give. -/
def newId (b : BufferPoolManager IdealDisk) (fd : Int) : PageId :=
  ⟨fd, (IdealDisk.ops.allocatePage b.disk fd).1⟩

/-- A step that takes a frame takes one that may be reused, and `new_page` is not given the number
    of a page cached in another frame. -/
def SafeStep (b : BufferPoolManager IdealDisk) : PoolOp → Prop
  | .fetch p => b.pageTable.lookup p = none → ∀ f, b.findVictimPage.1 = some f → b.SafeReuse f
  | .new fd => ∀ f, b.findVictimPage.1 = some f →
      b.SafeReuse f ∧ ∀ g, b.pageTable.lookup (newId b fd) = some g → g = f
  | _ => True

/-- The step gives the page `p` new bytes. -/
def Touches (b : BufferPoolManager IdealDisk) (p : PageId) : PoolOp → Prop
  | .new fd => p = newId b fd
  | .write f _ => b.pageTable.lookup p = some f
  | _ => False

end PoolOp

/-- **The buffer pool in use.** -/
def poolSystem : TransitionSystem (BufferPoolManager IdealDisk) PoolOp where
  init b := ∃ n garbage disk, b = .new n garbage disk
  step b op b' := op.Enabled b ∧ b' = op.apply b

/-- The runs all of whose steps are safe. -/
def safePoolSystem : TransitionSystem (BufferPoolManager IdealDisk) PoolOp where
  init := poolSystem.init
  step b op b' := poolSystem.step b op b' ∧ op.SafeStep b

/-- A table with the same entries keeps the invariant. -/
theorem BufferPoolManager.PoolInv.rehash {δ : Type} {b : BufferPoolManager δ} (h : b.PoolInv)
    {t : AList (fun _ : PageId => FrameId)} (ht : t.entries.Perm b.pageTable.entries) :
    { b with pageTable := t }.PoolInv := by
  have hlook : ∀ p, t.lookup p = b.pageTable.lookup p := fun p => AList.perm_lookup ht
  refine ⟨?_, h.free_nodup, h.free_lt, ?_, h.free_idle, h.pins, h.replacer, h.evictable, ?_⟩
  · intro p f hp
    exact h.mapped p f ((hlook p).symm.trans hp)
  · intro f hf
    have hiff := h.free_iff f hf
    simp only [← hlook] at hiff
    exact hiff
  · intro p f hp
    exact h.idle_evictable p f ((hlook p).symm.trans hp)

section Steps

variable {b : BufferPoolManager IdealDisk}

/-- **One step.** A safe step keeps the invariant and the bytes of every page it does not touch. -/
theorem PoolOp.apply_spec (h : b.PoolOk IdealDisk.ops) (op : PoolOp) (he : op.Enabled b)
    (hs : op.SafeStep b) :
    (op.apply b).PoolOk IdealDisk.ops ∧
      ∀ p x, ¬ op.Touches b p → Safe IdealDisk.ops b p x →
        Safe IdealDisk.ops (op.apply b) p x := by
  have L := IdealDisk.lawful
  cases op with
  | fetch p =>
    -- each call of the pool by its own specification
    have hk := (fetchPage_spec L h (p := p) trivial hs
      (fun _ => ⟨b.disk.contents p, (IdealDisk.holds_iff _ _ _).mpr rfl⟩)).1
    exact ⟨hk.ok, fun q x _ => hk.safe q x id⟩
  | new fd =>
    have hk := (newPage_spec L h fd rfl trivial hs).1
    exact ⟨hk.ok, fun q x ht => hk.safe q x ht⟩
  | unpin p isDirty =>
    have hk := (unpinPage_spec (D := IdealDisk.ops) h p isDirty).1
    exact ⟨hk.ok, fun q x _ => hk.safe q x id⟩
  | flush p =>
    have hk := (flushPage_spec L h p).1
    exact ⟨hk.ok, fun q x _ => hk.safe q x id⟩
  | delete p =>
    have hk := (deletePage_spec L h p).1
    exact ⟨hk.ok, fun q x _ => hk.safe q x id⟩
  | deleteAll fd =>
    have hk := (deleteAllPage_spec L h fd).1
    exact ⟨hk.ok, fun q x _ => hk.safe q x id⟩
  | flushAllPages fd =>
    have hk := (flushAllPages_spec L h fd).2.1
    exact ⟨hk.ok, fun q x _ => hk.safe q x id⟩
  | flushAllPage =>
    have hk := (flushAllPage_spec L h).2.1
    exact ⟨hk.ok, fun q x _ => hk.safe q x id⟩
  | write f data =>
    -- a pinned frame is changed by its owner
    have hf := h.inv.lookup_of_pinned he.1 he.2
    refine ⟨⟨h.inv.setData hf data _ b.disk, fun _ _ _ => trivial⟩, fun q x ht hsafe => ?_⟩
    have hq : q ≠ (b.pages f).id := fun heq => ht (heq ▸ hf)
    exact safe_setMapped h.inv hf hq (fun _ hy => hy) hsafe
  | rehash t =>
    -- only the order of the page table is another
    refine ⟨⟨h.inv.rehash he, fun _ _ _ => trivial⟩, fun q x _ hsafe => ?_⟩
    have hlook : t.lookup q = b.pageTable.lookup q := AList.perm_lookup he
    unfold Safe at hsafe ⊢
    dsimp only [PoolOp.apply]
    rw [hlook]
    exact hsafe

end Steps

theorem safePoolSystem_ok {b : BufferPoolManager IdealDisk} (hb : safePoolSystem.Reachable b) :
    b.PoolOk IdealDisk.ops := by
  refine hb.invariant ?_ ?_
  · rintro b ⟨n, garbage, disk, rfl⟩
    exact ⟨poolInv_new n garbage disk, fun _ _ _ => trivial⟩
  · rintro b op _ h ⟨⟨he, rfl⟩, hs⟩
    exact (op.apply_spec h he hs).1

/-- A step of a safe run that gives `p` no new bytes. -/
def QuietStep (p : PageId) (b b' : BufferPoolManager IdealDisk) : Prop :=
  ∃ op, safePoolSystem.step b op b' ∧ ¬ op.Touches b p

/-- The bytes of a page stay safe until somebody changes them. -/
theorem safe_of_quiet {p : PageId} {x : PageData} {b b' : BufferPoolManager IdealDisk}
    (hq : Relation.ReflTransGen (QuietStep p) b b') (h : b.PoolOk IdealDisk.ops)
    (hs : Safe IdealDisk.ops b p x) :
    b'.PoolOk IdealDisk.ops ∧ Safe IdealDisk.ops b' p x := by
  induction hq with
  | refl => exact ⟨h, hs⟩
  | tail _ hstep ih =>
    obtain ⟨op, ⟨⟨he, rfl⟩, hsafe⟩, ht⟩ := hstep
    obtain ⟨hok, hkeep⟩ := op.apply_spec ih.1 he hsafe
    exact ⟨hok, hkeep p x ht ih.2⟩

/-- A flush puts safe bytes on the disk. -/
theorem flush_of_safe {p : PageId} {x : PageData} {b : BufferPoolManager IdealDisk}
    (h : b.PoolOk IdealDisk.ops) (hs : Safe IdealDisk.ops b p x) :
    (b.flushPage IdealDisk.ops p).2.disk.contents p = x := by
  rw [← IdealDisk.holds_iff]
  cases hp : b.pageTable.lookup p with
  | none =>
    rw [safe_of_uncached hp] at hs
    unfold flushPage
    rw [hp]
    exact hs
  | some f =>
    rw [← ((safe_of_lookup hp).mp hs).1]
    exact ((flushPage_spec IdealDisk.lawful h p).2 f hp).2.2.2

/-- **The pool is consistent.**  In every state of a run of safe steps the page table is injective,
    a mapped frame carries the id it is mapped under, a pinned frame is mapped under its own id, and
    each frame is either free (once) or mapped.  So a pinned page can be unpinned, and the bytes it
    then has stay cached dirty or on the disk until they are changed again: a flush, and an
    eviction, put them there. -/
theorem bufferPool_consistent {b : BufferPoolManager IdealDisk} (hb : safePoolSystem.Reachable b) :
    (∀ p q f, b.pageTable.lookup p = some f → b.pageTable.lookup q = some f → p = q) ∧
    (∀ p f, b.pageTable.lookup p = some f → (b.pages f).id = p) ∧
    (∀ f < b.poolSize, 0 < (b.pages f).pinCount →
      b.pageTable.lookup (b.pages f).id = some f) ∧
    (∀ f < b.poolSize,
      (b.freeList.count f = 1 ∧ ∀ p, b.pageTable.lookup p ≠ some f) ∨
        (f ∉ b.freeList ∧ ∃ p, b.pageTable.lookup p = some f)) ∧
    ∀ f < b.poolSize, 0 < (b.pages f).pinCount → ∀ d : Bool,
      (b.unpinPage (b.pages f).id d).1 = true ∧
      (d = true → ∀ b', Relation.ReflTransGen (QuietStep (b.pages f).id)
          (b.unpinPage (b.pages f).id d).2 b' →
        (b'.pageTable.lookup (b.pages f).id = none →
          b'.disk.contents (b.pages f).id = (b.pages f).data) ∧
        (b'.flushPage IdealDisk.ops (b.pages f).id).2.disk.contents (b.pages f).id =
          (b.pages f).data) := by
  have h := safePoolSystem_ok hb
  refine ⟨fun p q f => h.inv.injective, fun p f hp => (h.inv.mapped p f hp).2,
    fun f hf hpin => h.inv.lookup_of_pinned hf hpin, fun f hf => ?_, fun f hf hpin d => ?_⟩
  · by_cases hfree : f ∈ b.freeList
    · exact Or.inl ⟨List.count_eq_one_of_mem h.inv.free_nodup hfree,
        (h.inv.free_iff f hf).mp hfree⟩
    · exact Or.inr ⟨hfree, _, h.inv.lookup_id hf hfree⟩
  · have hlook := h.inv.lookup_of_pinned hf hpin
    obtain ⟨hk, hun⟩ := unpinPage_spec (D := IdealDisk.ops) h (b.pages f).id d
    obtain ⟨hret, hlook', hdata, -, hdirty⟩ := hun f hlook hpin
    refine ⟨hret, ?_⟩
    rintro rfl b' hq
    have hs : Safe IdealDisk.ops (b.unpinPage (b.pages f).id true).2 (b.pages f).id
        (b.pages f).data := by
      rw [safe_of_lookup hlook']
      exact ⟨hdata, Or.inl (by rw [hdirty, Bool.or_true])⟩
    obtain ⟨hok', hs'⟩ := safe_of_quiet hq hk.ok hs
    refine ⟨fun hnone => ?_, flush_of_safe hok' hs'⟩
    rw [safe_of_uncached hnone, IdealDisk.holds_iff] at hs'
    exact hs'

/-- A disk of zeros. -/
def IdealDisk.blank : IdealDisk := { contents := fun _ => .zero, fd2pageno := fun _ => 0 }

/-- A pool of one frame that has fetched a page. -/
theorem bufferPool_consistent_one_fetch :
    ((PoolOp.fetch ⟨3, 1⟩).apply (.new 1 (fun _ => 0) .blank)).pageTable.lookup ⟨3, 1⟩ = some 0 ∧
    (((PoolOp.fetch ⟨3, 1⟩).apply (.new 1 (fun _ => 0) .blank)).unpinPage ⟨3, 1⟩ true).1 = true := by
  have hreach : safePoolSystem.Reachable
      ((PoolOp.fetch ⟨3, 1⟩).apply (.new 1 (fun _ => 0) .blank)) :=
    .step (a := .fetch ⟨3, 1⟩) (.init ⟨1, fun _ => 0, .blank, rfl⟩)
      ⟨⟨trivial, rfl⟩, fun _ _ _ _ => rfl⟩
  exact ⟨rfl, ((bufferPool_consistent hreach).2.2.2.2 0 (by decide) (by decide) true).1⟩

/-- Fetch a page, unpin it, delete it, fetch it again into the other frame, and fetch a second
    page into the frame it was deleted from. -/
def staleIdOps : List PoolOp :=
  [.fetch ⟨3, 1⟩, .unpin ⟨3, 1⟩ false, .delete ⟨3, 1⟩, .fetch ⟨3, 1⟩, .fetch ⟨3, 2⟩]

/-- **The stale id.** After `staleIdOps` in a pool of two frames, page 1 is pinned in frame 1 but is
    not in the page table: nobody can unpin it. -/
theorem deleted_page_loses_mapping :
    ∃ b, poolSystem.Reachable b ∧ ∃ f < b.poolSize, 0 < (b.pages f).pinCount ∧
      b.pageTable.lookup (b.pages f).id ≠ some f ∧
      (b.unpinPage (b.pages f).id true).1 = false := by
  have hreach : ∀ ops : List PoolOp, (∀ op ∈ ops, ∀ b, op.Enabled b) → ∀ b,
      poolSystem.Reachable b →
      poolSystem.Reachable (ops.foldl (fun b op => op.apply b) b) := by
    intro ops hen
    induction ops with
    | nil => exact fun b hb => hb
    | cons op ops ih =>
      intro b hb
      exact ih (fun op' h' => hen op' (List.mem_cons_of_mem _ h')) _
        (.step hb ⟨hen op List.mem_cons_self b, rfl⟩)
  refine ⟨staleIdOps.foldl (fun b op => op.apply b) (.new 2 (fun _ => 0) .blank),
    hreach staleIdOps ?_ _ (.init ⟨2, fun _ => 0, .blank, rfl⟩), 1, by decide, by decide,
    by decide, by decide⟩
  intro op hop b
  simp only [staleIdOps, List.mem_cons, List.not_mem_nil, or_false] at hop
  rcases hop with rfl | rfl | rfl | rfl | rfl <;> trivial

end Rmdb
