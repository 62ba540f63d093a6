import Rmdb.Lib.Transition
import Rmdb.Storage.PoolInvariant

namespace Rmdb

open Lib BufferPoolManager

/-!
# Pinned frames are left alone

The disk may fail in any way: nothing is assumed about `DiskOps`.  A frame may then be lost, or be cached
under an id that another frame has, and `PoolInv` does not survive.  `PinInv` does: it is what keeps a
pinned frame out of the two lists from which `find_victim_page` takes frames.

* `PoolCall.run_spec` — each call keeps `PinInv`, and what it does to each frame (`FrameStep`);
* `poolRuns` — calls in any order, while clients write to frames, other components use the disk, and the
  page table is rehashed;
* `pinned_frames_kept` — in each state of a run no pinned frame is a victim, no pin count is negative,
  and no call takes the page or the bytes of a pinned frame.
-/

namespace BufferPoolManager

variable {δ : Type}

/-- **What every call keeps**, whatever the disk does. -/
structure PinInv (b : BufferPoolManager δ) : Prop where
  /-- A mapped frame exists and carries the id it is mapped under, -/
  mapped : ∀ p f, b.pageTable.lookup p = some f → f < b.poolSize ∧ (b.pages f).id = p
  /-- and it is not free. -/
  mapped_free : ∀ p f, b.pageTable.lookup p = some f → f ∉ b.freeList
  free_nodup : b.freeList.Nodup
  /-- The free frames and those of the replacer are unpinned, the free ones clean as well. -/
  free : ∀ f ∈ b.freeList, f < b.poolSize ∧ (b.pages f).pinCount = 0
  free_clean : ∀ f ∈ b.freeList, (b.pages f).isDirty = false
  evictable : ∀ f ∈ b.replacer.frames, f < b.poolSize ∧ (b.pages f).pinCount = 0
  pins : ∀ f, 0 ≤ (b.pages f).pinCount
  replacer : b.replacer.Inv

/-- The invariant holds of a new pool. -/
theorem pinInv_new (n : Nat) (garbage : FrameId → Int) (disk : δ) : (new n garbage disk).PinInv where
  mapped p f h := by simp [new] at h
  mapped_free p f h := by simp [new] at h
  free_nodup := List.nodup_range
  free f h := ⟨List.mem_range.mp h, rfl⟩
  free_clean f _ := rfl
  evictable f h := by simp [new, LRUReplacer.new, LRUReplacer.frames] at h
  pins f := Int.le_refl 0
  replacer := LRUReplacer.inv_new

/-- What all but the pinning and unpinning itself leaves: the pin counts, and the pages and bytes of the
    pinned frames. -/
structure HoldsPinned (b b' : BufferPoolManager δ) : Prop where
  pins : ∀ g, (b'.pages g).pinCount = (b.pages g).pinCount
  held : ∀ g, 0 < (b.pages g).pinCount →
    (b'.pages g).id = (b.pages g).id ∧ (b'.pages g).data = (b.pages g).data

theorem HoldsPinned.refl (b : BufferPoolManager δ) : HoldsPinned b b :=
  ⟨fun _ => rfl, fun _ _ => ⟨rfl, rfl⟩⟩

/-- One step after another. -/
theorem HoldsPinned.trans {b₁ b₂ b₃ : BufferPoolManager δ} (h₁ : HoldsPinned b₁ b₂)
    (h₂ : HoldsPinned b₂ b₃) : HoldsPinned b₁ b₃ := by
  refine ⟨fun g => (h₂.pins g).trans (h₁.pins g), fun g hg => ?_⟩
  have hg₂ : 0 < (b₂.pages g).pinCount := by rw [h₁.pins g]; exact hg
  exact ⟨(h₂.held g hg₂).1.trans (h₁.held g hg).1, (h₂.held g hg₂).2.trans (h₁.held g hg).2⟩

section Pieces

variable {b : BufferPoolManager δ} {f : FrameId}

/-- A new descriptor for an unpinned frame, or new flags for any. -/
theorem holdsPinned_setPage {b₁ : BufferPoolManager δ} (hpages : b₁.pages = b.pages) {page : Page}
    (hpin : page.pinCount = (b.pages f).pinCount)
    (hheld : 0 < (b.pages f).pinCount → page.id = (b.pages f).id ∧ page.data = (b.pages f).data) :
    HoldsPinned b (b₁.setPage f page) := by
  refine ⟨fun g => ?_, fun g hg => ?_⟩
  · by_cases hgf : g = f
    · simp [setPage, hgf, hpin]
    · simp [setPage, hgf, hpages]
  · by_cases hgf : g = f
    · subst hgf
      simpa [setPage] using hheld hg
    · simp [setPage, hgf, hpages]

/-- Other bytes or flags of a frame. -/
theorem PinInv.setPage (h : b.PinInv) {page : Page} (hid : page.id = (b.pages f).id)
    (hpin : page.pinCount = (b.pages f).pinCount)
    (hdirty : page.isDirty = true → (b.pages f).isDirty = true) : (b.setPage f page).PinInv := by
  have hids : ∀ g, ((b.setPage f page).pages g).id = (b.pages g).id := by
    intro g
    by_cases hgf : g = f <;> simp [BufferPoolManager.setPage, hgf, hid]
  have hpins : ∀ g, ((b.setPage f page).pages g).pinCount = (b.pages g).pinCount := by
    intro g
    by_cases hgf : g = f <;> simp [BufferPoolManager.setPage, hgf, hpin]
  refine ⟨fun p g hg => ?_, h.mapped_free, h.free_nodup, fun g hg => ?_, fun g hg => ?_, fun g hg => ?_,
    fun g => ?_, h.replacer⟩
  · rw [hids]
    exact h.mapped p g hg
  · rw [hpins]
    exact h.free g hg
  · have hclean := h.free_clean g hg
    by_cases hgf : g = f
    · subst hgf
      simpa [BufferPoolManager.setPage, hclean] using hdirty
    · simpa [BufferPoolManager.setPage, hgf] using hclean
  · rw [hpins]
    exact h.evictable g hg
  · rw [hpins]
    exact h.pins g

/-- The disk does not matter. -/
theorem PinInv.setDisk (h : b.PinInv) (disk : δ) : { b with disk := disk }.PinInv :=
  ⟨h.mapped, h.mapped_free, h.free_nodup, h.free, h.free_clean, h.evictable, h.pins, h.replacer⟩

/-- Entries may go, and be reordered. -/
theorem PinInv.restrict (h : b.PinInv) (disk : δ) {t : AList (fun _ : PageId => FrameId)}
    (ht : ∀ q g, t.lookup q = some g → b.pageTable.lookup q = some g) :
    { b with disk := disk, pageTable := t }.PinInv :=
  ⟨fun q g hq => h.mapped q g (ht q g hq), fun q g hq => h.mapped_free q g (ht q g hq), h.free_nodup,
    h.free, h.free_clean, h.evictable, h.pins, h.replacer⟩

/-- **A victim** is an unpinned frame of the pool, in neither list from now on unless the replacer knows
    it still. -/
theorem PinInv.victim (h : b.PinInv) {b₁ : BufferPoolManager δ}
    (hv : b.findVictimPage = (some f, b₁)) :
    b₁.PinInv ∧ b₁.pages = b.pages ∧ f < b₁.poolSize ∧ (b.pages f).pinCount = 0 ∧ f ∉ b₁.freeList := by
  unfold findVictimPage at hv
  cases hfree : b.freeList with
  | cons g rest =>
    rw [hfree] at hv
    obtain ⟨hg, rfl⟩ := Prod.mk.inj hv
    obtain rfl := Option.some.inj hg
    have hsub : ∀ x ∈ rest, x ∈ b.freeList := fun x hx => by rw [hfree]; exact List.mem_cons_of_mem g hx
    have hmem : g ∈ b.freeList := by rw [hfree]; exact List.mem_cons_self
    have hnd := h.free_nodup
    rw [hfree, List.nodup_cons] at hnd
    exact ⟨⟨h.mapped, fun p x hx hr => h.mapped_free p x hx (hsub x hr), hnd.2,
      fun x hx => h.free x (hsub x hx), fun x hx => h.free_clean x (hsub x hx), h.evictable, h.pins,
      h.replacer⟩, rfl, (h.free g hmem).1,
      (h.free g hmem).2, hnd.1⟩
  | nil =>
    rw [hfree] at hv
    obtain ⟨hf, rfl⟩ := Prod.mk.inj hv
    obtain ⟨hlt, hpin⟩ := h.evictable f (LRUReplacer.victim_mem hf)
    refine ⟨⟨h.mapped, ?_, ?_, ?_, ?_, fun g hg => ?_, h.pins, LRUReplacer.victim_inv h.replacer⟩, rfl,
      hlt, hpin, ?_⟩
    · simp
    · simp
    · simp
    · simp
    · exact h.evictable g ((LRUReplacer.mem_victim_frames h.replacer hf g).mp hg).1
    · simp

/-- **A frame that is not free gets another number of pins.**  The replacer may forget frames, and comes to
    know this one only if it is unpinned. -/
theorem PinInv.setPins (h : b.PinInv) (hf : f ∉ b.freeList) {page : Page} (hid : page.id = (b.pages f).id)
    (hpos : 0 ≤ page.pinCount) {r : LRUReplacer} (hr : r.Inv)
    (hself : f ∈ r.frames → f < b.poolSize ∧ page.pinCount = 0)
    (hframes : ∀ g, g ≠ f → g ∈ r.frames → g ∈ b.replacer.frames) :
    ({ b with replacer := r }.setPage f page).PinInv := by
  have hpage : ({ b with replacer := r }.setPage f page).pages f = page := by
    simp [BufferPoolManager.setPage]
  have hother : ∀ g, g ≠ f → ({ b with replacer := r }.setPage f page).pages g = b.pages g := by
    intro g hg
    simp [BufferPoolManager.setPage, hg]
  -- the free frames are others
  have hne : ∀ g ∈ b.freeList, g ≠ f := by
    rintro g hg rfl
    exact hf hg
  refine ⟨fun p g hg => ?_, h.mapped_free, h.free_nodup, fun g hg => ?_, fun g hg => ?_, fun g hg => ?_,
    fun g => ?_, hr⟩
  · by_cases hgf : g = f
    · rw [hgf, hpage, hid]
      exact h.mapped p f (hgf ▸ hg)
    · rw [hother g hgf]
      exact h.mapped p g hg
  · rw [hother g (hne g hg)]
    exact h.free g hg
  · rw [hother g (hne g hg)]
    exact h.free_clean g hg
  · by_cases hgf : g = f
    · rw [hgf, hpage]
      exact hself (hgf ▸ hg)
    · rw [hother g hgf]
      exact h.evictable g (hframes g hgf hg)
  · by_cases hgf : g = f
    · rw [hgf, hpage]
      exact hpos
    · rw [hother g hgf]
      exact h.pins g

/-- One more pin for a frame that is not free. -/
theorem PinInv.pinFrame (h : b.PinInv) (hf : f ∉ b.freeList) : (b.pinFrame f).PinInv := by
  have hpin := h.pins f
  have hframes := LRUReplacer.mem_pin_frames h.replacer f
  apply h.setPins hf
  · rfl
  · dsimp only
    omega
  · exact LRUReplacer.pin_inv h.replacer f
  · exact fun hmem => absurd rfl ((hframes f).mp hmem).2
  · exact fun g _ hmem => ((hframes g).mp hmem).1

/-- An unpinned frame that is not mapped goes to the free list. -/
theorem PinInv.give (h : b.PinInv) (hlt : f < b.poolSize) (hpin : (b.pages f).pinCount = 0)
    (hclean : (b.pages f).isDirty = false) (hf : f ∉ b.freeList)
    (hmap : ∀ p, b.pageTable.lookup p ≠ some f) :
    { b with freeList := b.freeList ++ [f] }.PinInv := by
  have hmem : ∀ g, g ∈ b.freeList ++ [f] → g ∈ b.freeList ∨ g = f := fun g hg =>
    (List.mem_append.mp hg).imp_right List.mem_singleton.mp
  refine ⟨h.mapped, fun p g hg hfree => ?_, ?_, fun g hg => ?_, fun g hg => ?_, h.evictable, h.pins,
    h.replacer⟩
  · rcases hmem g hfree with hfree | rfl
    · exact h.mapped_free p g hg hfree
    · exact hmap p hg
  · apply List.Nodup.append h.free_nodup (List.nodup_singleton f)
    simpa using hf
  · rcases hmem g hg with hg | rfl
    · exact h.free g hg
    · exact ⟨hlt, hpin⟩
  · rcases hmem g hg with hg | rfl
    · exact h.free_clean g hg
    · exact hclean

/-- An entry after `emplace` is the new one or an old one. -/
theorem lookup_emplace {t : AList (fun _ : PageId => FrameId)} {p q : PageId} {g : FrameId}
    (h : (emplace t p f).lookup q = some g) : q = p ∧ g = f ∨ t.lookup q = some g := by
  unfold emplace at h
  split at h
  · exact Or.inr h
  · by_cases hq : q = p
    · rw [hq, AList.lookup_insert] at h
      exact Or.inl ⟨hq, (Option.some.inj h).symm⟩
    · rw [AList.lookup_insert_ne hq] at h
      exact Or.inr h

/-- An entry after `erase` is an old one. -/
theorem lookup_erase_eq_some {t : AList (fun _ : PageId => FrameId)} {p q : PageId} {g : FrameId} :
    (t.erase p).lookup q = some g ↔ q ≠ p ∧ t.lookup q = some g := by
  by_cases hq : q = p
  · subst hq
    simp [AList.lookup_erase]
  · simp [hq, AList.lookup_erase_ne hq]

section Update

variable (D : DiskOps δ)

/-- `update_page` touches nothing but the frame, the page table and the disk. -/
theorem updatePage_frame (p : PageId) (o : Option FrameId) :
    (b.updatePage D f p o).2.poolSize = b.poolSize ∧
    (b.updatePage D f p o).2.freeList = b.freeList ∧
    (b.updatePage D f p o).2.replacer = b.replacer := by
  unfold updatePage
  dsimp only
  split
  · exact ⟨rfl, rfl, rfl⟩
  · split <;> exact ⟨rfl, rfl, rfl⟩

/-- The frame has the new page afterwards. -/
theorem updatePage_id (p : PageId) (g : FrameId) (hok : (b.updatePage D f p (some g)).1 = .ok ()) :
    ((b.updatePage D f p (some g)).2.pages f).id = p := by
  unfold updatePage at hok ⊢
  dsimp only at hok ⊢
  split
  · rename_i he
    rw [he] at hok
    cases hok
  · simp [setPage]

/-- **`update_page`** on an unpinned frame that is not free, for a new page or for none. -/
theorem PinInv.updatePage (h : b.PinInv) (hlt : f < b.poolSize) (hpin : (b.pages f).pinCount = 0)
    (hf : f ∉ b.freeList) (p : PageId) (o : Option FrameId) (ho : ∀ g, o = some g → g = f) :
    (b.updatePage D f p o).2.PinInv ∧ HoldsPinned b (b.updatePage D f p o).2 ∧
    (o = none → (b.updatePage D f p o).1 = .ok () → ((b.updatePage D f p o).2.pages f).isDirty = false ∧
      ∀ q, (b.updatePage D f p o).2.pageTable.lookup q ≠ some f) := by
  -- no entry of the frame is left when the id it carries is erased
  have hold : ∀ q, (b.pageTable.erase (b.pages f).id).lookup q ≠ some f := by
    intro q hq
    obtain ⟨hne, hq⟩ := lookup_erase_eq_some.mp hq
    exact hne (h.mapped q f hq).2.symm
  have hkeep : ∀ q g, (b.pageTable.erase (b.pages f).id).lookup q = some g →
      g ≠ f ∧ b.pageTable.lookup q = some g := by
    intro q g hq
    refine ⟨?_, (lookup_erase_eq_some.mp hq).2⟩
    rintro rfl
    exact hold q hq
  unfold BufferPoolManager.updatePage
  dsimp only
  split
  · exact ⟨h.setDisk _, ⟨fun _ => rfl, fun _ _ => ⟨rfl, rfl⟩⟩, fun _ he => by cases he⟩
  · split
    · -- the frame is given up
      refine ⟨?_, ?_, fun _ _ => ⟨by simp [BufferPoolManager.setPage], hold⟩⟩
      · exact (h.restrict _ fun q g hq => (hkeep q g hq).2).setPage rfl rfl (fun hd => by cases hd)
      · apply holdsPinned_setPage
        · rfl
        · rfl
        · exact fun _ => ⟨rfl, rfl⟩
    · -- the frame gets the page `p`
      rename_i g
      obtain rfl := ho g rfl
      refine ⟨⟨fun q x hq => ?_, fun q x hq => ?_, h.free_nodup, fun x hx => ?_, fun x hx => ?_,
        fun x hx => ?_, fun x => ?_, h.replacer⟩, ?_, fun he => by cases he⟩
      · rcases lookup_emplace hq with ⟨rfl, rfl⟩ | hq
        · exact ⟨hlt, by simp [BufferPoolManager.setPage]⟩
        · obtain ⟨hx, hq⟩ := hkeep q x hq
          simpa [BufferPoolManager.setPage, hx] using h.mapped q x hq
      · rcases lookup_emplace hq with ⟨rfl, rfl⟩ | hq
        · exact hf
        · exact h.mapped_free q x (hkeep q x hq).2
      · have hxg : x ≠ g := by
          rintro rfl
          exact hf hx
        simpa [BufferPoolManager.setPage, hxg] using h.free x hx
      · have hxg : x ≠ g := by
          rintro rfl
          exact hf hx
        simpa [BufferPoolManager.setPage, hxg] using h.free_clean x hx
      · by_cases hxg : x = g
        · simpa [BufferPoolManager.setPage, hxg] using ⟨hlt, hpin⟩
        · simpa [BufferPoolManager.setPage, hxg] using h.evictable x hx
      · by_cases hxg : x = g
        · simp [BufferPoolManager.setPage, hxg, hpin]
        · simpa [BufferPoolManager.setPage, hxg] using h.pins x
      · apply holdsPinned_setPage
        · rfl
        · rfl
        · exact fun hpos => absurd hpin (by omega)

end Update

end Pieces

section Calls

variable (D : DiskOps δ) {b : BufferPoolManager δ}

/-- The loop of `flush_all_pages` and `flush_all_page`. -/
theorem PinInv.flushEntries (h : b.PinInv) (skip : PageId → Page → Bool)
    (es : List (Σ _ : PageId, FrameId)) :
    (flushEntries D skip b es).2.PinInv ∧ HoldsPinned b (flushEntries D skip b es).2 := by
  induction es generalizing b with
  | nil => exact ⟨h, .refl b⟩
  | cons e es ih =>
    unfold BufferPoolManager.flushEntries
    split
    · exact ih h
    · dsimp only
      split
      · exact ⟨h.setDisk _, ⟨fun _ => rfl, fun _ _ => ⟨rfl, rfl⟩⟩⟩
      · have hclean : ({ b with disk := (D.writePage b.disk e.1 (b.pages e.2).data).2 }.setPage e.2
            { b.pages e.2 with isDirty := false }).PinInv :=
          (h.setDisk _).setPage rfl rfl (fun hd => by cases hd)
        obtain ⟨hinv, hheld⟩ := ih hclean
        refine ⟨hinv, HoldsPinned.trans ?_ hheld⟩
        apply holdsPinned_setPage
        · rfl
        · rfl
        · exact fun _ => ⟨rfl, rfl⟩

/-- The second loop of `delete_all_page`, over different frames that are unpinned and not free. -/
theorem PinInv.deleteFrames (h : b.PinInv) (fs : List FrameId) (hnd : fs.Nodup)
    (hfs : ∀ f ∈ fs, f < b.poolSize ∧ (b.pages f).pinCount = 0 ∧ f ∉ b.freeList) :
    (b.deleteFrames D fs).2.PinInv ∧ HoldsPinned b (b.deleteFrames D fs).2 := by
  induction fs generalizing b with
  | nil => exact ⟨h, .refl b⟩
  | cons f fs ih =>
    obtain ⟨hlt, hpin, hfree⟩ := hfs f List.mem_cons_self
    obtain ⟨hinv, hheld, hmap⟩ := h.updatePage D hlt hpin hfree (b.pages f).id none (fun _ hn => by cases hn)
    obtain ⟨hsize, hlist, -⟩ := b.updatePage_frame (f := f) D (b.pages f).id none
    unfold BufferPoolManager.deleteFrames
    rcases hu : b.updatePage D f (b.pages f).id none with ⟨e | u, b₁⟩
    · rw [hu] at hinv hheld
      exact ⟨hinv, hheld⟩
    · rw [hu] at hinv hheld hmap hsize hlist
      dsimp only at hinv hheld hmap hsize hlist ⊢
      have hgive : { b₁ with freeList := b₁.freeList ++ [f] }.PinInv :=
        hinv.give (hsize ▸ hlt) ((hheld.pins f).trans hpin) (hmap rfl rfl).1 (by rw [hlist]; exact hfree)
          (hmap rfl rfl).2
      rw [List.nodup_cons] at hnd
      have hrest : ∀ g ∈ fs, g < b₁.poolSize ∧ (b₁.pages g).pinCount = 0 ∧
          g ∉ b₁.freeList ++ [f] := by
        intro g hg
        obtain ⟨hglt, hgpin, hgfree⟩ := hfs g (List.mem_cons_of_mem f hg)
        refine ⟨by rw [hsize]; exact hglt, (hheld.pins g).trans hgpin, ?_⟩
        rw [hlist, List.mem_append, List.mem_singleton, not_or]
        refine ⟨hgfree, ?_⟩
        rintro rfl
        exact hnd.1 hg
      obtain ⟨hinv', hheld'⟩ := ih hgive hnd.2 hrest
      exact ⟨hinv', hheld.trans ⟨hheld'.pins, hheld'.held⟩⟩

end Calls

end BufferPoolManager

/-! ### The calls -/

/-- A call of the pool. -/
inductive PoolCall where
  | fetch (p : PageId)
  | new (fd : Int)
  | unpin (p : PageId) (isDirty : Bool)
  | flush (p : PageId)
  | delete (p : PageId)
  | deleteAll (fd : Int)
  | flushAllPages (fd : Int)
  | flushAllPage
  deriving DecidableEq, Repr

/-- The pool after a call, whether it returns or throws. -/
def PoolCall.run {δ : Type} (D : DiskOps δ) (b : BufferPoolManager δ) : PoolCall → BufferPoolManager δ
  | .fetch p => (b.fetchPage D p).2
  | .new fd => (b.newPage D fd).2
  | .unpin p isDirty => (b.unpinPage p isDirty).2
  | .flush p => (b.flushPage D p).2
  | .delete p => (b.deletePage D p).2
  | .deleteAll fd => (b.deleteAllPage D fd).2
  | .flushAllPages fd => (b.flushAllPages D fd).2
  | .flushAllPage => (b.flushAllPage D).2

/-- **What a call may do to a frame.**  A pinned frame keeps its page and its bytes, and pins come and go
    by the calls for them alone: `fetch_page` and `unpin_page` of the page the frame has, and `new_page`
    on a frame that was unpinned. -/
structure FrameStep (c : PoolCall) (page page' : Page) : Prop where
  held : 0 < page.pinCount → page'.id = page.id ∧ page'.data = page.data
  pins : page'.pinCount = page.pinCount ∨
    (c = .fetch page'.id ∧ page'.pinCount = page.pinCount + 1) ∨
    (c = .new page'.id.fd ∧ page.pinCount = 0 ∧ page'.pinCount = 1) ∨
    ∃ d, c = .unpin page.id d ∧ page'.pinCount = page.pinCount - 1

namespace PoolCall

variable {δ : Type} {D : DiskOps δ} {b : BufferPoolManager δ}

/-- A step that keeps the pinned frames is allowed to every call. -/
theorem frameStep_of_holds {b' : BufferPoolManager δ} (h : HoldsPinned b b') (c : PoolCall) (f : FrameId) :
    FrameStep c (b.pages f) (b'.pages f) :=
  ⟨h.held f, Or.inl (h.pins f)⟩

/-- The last step of `fetch_page` and `new_page`. -/
theorem frameStep_pinFrame {b' : BufferPoolManager δ} (h : HoldsPinned b b') {c : PoolCall} {g : FrameId}
    (hc : c = .fetch (b'.pages g).id ∨ c = .new (b'.pages g).id.fd ∧ (b.pages g).pinCount = 0)
    (f : FrameId) : FrameStep c (b.pages f) ((b'.pinFrame g).pages f) := by
  by_cases hfg : f = g
  · subst hfg
    have hself : (b'.pinFrame f).pages f = { b'.pages f with pinCount := (b'.pages f).pinCount + 1 } := by
      simp [pinFrame, setPage]
    rw [hself]
    refine ⟨h.held f, ?_⟩
    rcases hc with hc | ⟨hc, h0⟩
    · exact Or.inr (Or.inl ⟨hc, by rw [← h.pins f]⟩)
    · refine Or.inr (Or.inr (Or.inl ⟨hc, h0, ?_⟩))
      show (b'.pages f).pinCount + 1 = 1
      rw [h.pins f, h0]
      rfl
  · have hother : (b'.pinFrame g).pages f = b'.pages f := by
      simp [pinFrame, setPage, hfg]
    rw [hother]
    exact frameStep_of_holds h c f

/-- `fetch_page` keeps the invariant and does to each frame what it may. -/
theorem fetch_spec (h : b.PinInv) (p : PageId) :
    (b.fetchPage D p).2.PinInv ∧
      ∀ f, FrameStep (.fetch p) (b.pages f) ((b.fetchPage D p).2.pages f) := by
  unfold fetchPage
  cases hp : b.pageTable.lookup p with
  | some f =>
    refine ⟨h.pinFrame (h.mapped_free p f hp), frameStep_pinFrame (.refl b) (Or.inl ?_)⟩
    rw [(h.mapped p f hp).2]
  | none =>
    rcases hv : b.findVictimPage with ⟨_ | f, b₁⟩
    · dsimp only
      rw [findVictimPage_none hv]
      exact ⟨h, fun f => frameStep_of_holds (.refl b) _ f⟩
    · -- the frame is an unpinned one, in no list
      obtain ⟨h₁, hpages, hlt, hpin, hfree⟩ := h.victim hv
      rw [← hpages] at hpin
      have hb : HoldsPinned b b₁ := ⟨fun g => by rw [hpages], fun g _ => by rw [hpages]; exact ⟨rfl, rfl⟩⟩
      obtain ⟨hinv, hheld, -⟩ := h₁.updatePage D hlt hpin hfree p (some f) fun g hg =>
        (Option.some.inj hg).symm
      obtain ⟨-, hlist, -⟩ := b₁.updatePage_frame (f := f) D p (some f)
      have hid := updatePage_id (b := b₁) (f := f) D p f
      dsimp only
      rcases hu : b₁.updatePage D f p (some f) with ⟨e | u, b₂⟩
      · rw [hu] at hinv hheld
        exact ⟨hinv, frameStep_of_holds (hb.trans hheld) _⟩
      · rw [hu] at hinv hheld hlist hid
        dsimp only at hinv hheld hlist hid ⊢
        have hpin₂ : (b₂.pages f).pinCount = 0 := (hheld.pins f).trans hpin
        -- the bytes read, or those of a read that fails half way
        have hread : HoldsPinned b₂
            (b₂.setPage f { b₂.pages f with data := (D.readPage b₂.disk p (b₂.pages f).data).2 }) := by
          apply holdsPinned_setPage
          · rfl
          · rfl
          · exact fun hpos => absurd hpin₂ (by omega)
        have hinv' : (b₂.setPage f
            { b₂.pages f with data := (D.readPage b₂.disk p (b₂.pages f).data).2 }).PinInv :=
          hinv.setPage rfl rfl id
        have hheld' := (hb.trans hheld).trans hread
        split
        · exact ⟨hinv', frameStep_of_holds hheld' _⟩
        · refine ⟨hinv'.pinFrame (by rw [← hlist] at hfree; exact hfree),
            frameStep_pinFrame hheld' (Or.inl ?_)⟩
          simp [setPage, hid]

/-- So does `new_page`. -/
theorem new_spec (h : b.PinInv) (fd : Int) :
    (b.newPage D fd).2.PinInv ∧
      ∀ f, FrameStep (.new fd) (b.pages f) ((b.newPage D fd).2.pages f) := by
  unfold newPage
  rcases hv : b.findVictimPage with ⟨_ | f, b₁⟩
  · dsimp only
    rw [findVictimPage_none hv]
    exact ⟨h, fun f => frameStep_of_holds (.refl b) _ f⟩
  · obtain ⟨h₁, hpages, hlt, hpin, hfree⟩ := h.victim hv
    have h₁' := h₁.setDisk (D.allocatePage b₁.disk fd).2
    have hb : HoldsPinned b { b₁ with disk := (D.allocatePage b₁.disk fd).2 } :=
      ⟨fun g => by rw [hpages], fun g _ => by rw [hpages]; exact ⟨rfl, rfl⟩⟩
    have hpin₁ : (b₁.pages f).pinCount = 0 := by rw [hpages]; exact hpin
    dsimp only
    generalize hp : (⟨fd, (D.allocatePage b₁.disk fd).1⟩ : PageId) = p
    obtain ⟨hinv, hheld, -⟩ := h₁'.updatePage D hlt hpin₁ hfree p (some f) fun g hg =>
      (Option.some.inj hg).symm
    obtain ⟨-, hlist, -⟩ := updatePage_frame (b := { b₁ with disk := (D.allocatePage b₁.disk fd).2 })
      (f := f) D p (some f)
    have hid := updatePage_id (b := { b₁ with disk := (D.allocatePage b₁.disk fd).2 }) (f := f) D p f
    rcases hu : updatePage D { b₁ with disk := (D.allocatePage b₁.disk fd).2 } f p (some f) with
      ⟨e | u, b₂⟩
    · rw [hu] at hinv hheld
      exact ⟨hinv, frameStep_of_holds (hb.trans hheld) _⟩
    · rw [hu] at hinv hheld hlist hid
      dsimp only at hinv hheld hlist hid ⊢
      have hpin₂ : (b₂.pages f).pinCount = 0 := (hheld.pins f).trans hpin₁
      -- `reset_memory`
      have hreset : HoldsPinned b₂ (b₂.setPage f { b₂.pages f with data := .zero }) := by
        apply holdsPinned_setPage
        · rfl
        · rfl
        · exact fun hpos => absurd hpin₂ (by omega)
      have hinv' : (b₂.setPage f { b₂.pages f with data := .zero }).PinInv := hinv.setPage rfl rfl id
      refine ⟨hinv'.pinFrame (by rw [← hlist] at hfree; exact hfree),
        frameStep_pinFrame ((hb.trans hheld).trans hreset) (Or.inr ⟨?_, hpin⟩)⟩
      simp [setPage, hid, ← hp]

/-- So does `unpin_page`. -/
theorem unpin_spec (h : b.PinInv) (p : PageId) (d : Bool) :
    (b.unpinPage p d).2.PinInv ∧
      ∀ f, FrameStep (.unpin p d) (b.pages f) ((b.unpinPage p d).2.pages f) := by
  unfold unpinPage
  cases hp : b.pageTable.lookup p with
  | none => exact ⟨h, fun f => frameStep_of_holds (.refl b) _ f⟩
  | some g =>
    dsimp only
    obtain ⟨hlt, hid⟩ := h.mapped p g hp
    have hpin := h.pins g
    split
    · exact ⟨h, fun f => frameStep_of_holds (.refl b) _ f⟩
    · rename_i h0
      -- the replacer gets to know the frame only if the last pin has gone
      set r := if (b.pages g).pinCount - 1 = 0 then b.replacer.unpin g else b.replacer with hr
      have hrinv : r.Inv := by
        rw [hr]
        split
        · exact LRUReplacer.unpin_inv h.replacer g
        · exact h.replacer
      have hself : g ∈ r.frames → g < b.poolSize ∧ (b.pages g).pinCount - 1 = 0 := by
        intro hmem
        refine ⟨hlt, ?_⟩
        by_contra h1
        rw [hr, if_neg h1] at hmem
        exact absurd (h.evictable g hmem).2 h0
      have hframes : ∀ f, f ≠ g → f ∈ r.frames → f ∈ b.replacer.frames := by
        intro f hne hmem
        rw [hr] at hmem
        split at hmem
        · exact ((LRUReplacer.mem_unpin_frames h.replacer g f).mp hmem).resolve_right hne
        · exact hmem
      constructor
      · apply h.setPins (h.mapped_free p g hp)
        · rfl
        · dsimp only
          omega
        · exact hrinv
        · exact hself
        · exact hframes
      · intro f
        by_cases hf : f = g
        · subst hf
          refine ⟨fun _ => ?_, Or.inr (Or.inr (Or.inr ⟨d, ?_, ?_⟩))⟩
          · simp [setPage]
          · rw [hid]
          · simp [setPage]
        · refine ⟨fun _ => ?_, Or.inl ?_⟩
          · simp [setPage, hf]
          · simp [setPage, hf]

/-- `flush_page` keeps the pinned frames. -/
theorem flush_spec (h : b.PinInv) (p : PageId) :
    (b.flushPage D p).2.PinInv ∧ HoldsPinned b (b.flushPage D p).2 := by
  unfold flushPage
  cases b.pageTable.lookup p with
  | none => exact ⟨h, .refl b⟩
  | some f =>
    dsimp only
    split
    · exact ⟨h.setDisk _, ⟨fun _ => rfl, fun _ _ => ⟨rfl, rfl⟩⟩⟩
    · refine ⟨(h.setDisk _).setPage rfl rfl (fun hd => by cases hd), ?_⟩
      apply holdsPinned_setPage
      · rfl
      · rfl
      · exact fun _ => ⟨rfl, rfl⟩

/-- `delete_page` keeps them. -/
theorem delete_spec (h : b.PinInv) (p : PageId) :
    (b.deletePage D p).2.PinInv ∧ HoldsPinned b (b.deletePage D p).2 := by
  unfold deletePage
  cases hp : b.pageTable.lookup p with
  | none => exact ⟨h, .refl b⟩
  | some f =>
    dsimp only
    split
    · exact ⟨h, .refl b⟩
    · rename_i hpin
      rw [not_not] at hpin
      have hfree := h.mapped_free p f hp
      have hlt := (h.mapped p f hp).1
      obtain ⟨hinv, hheld, hmap⟩ := h.updatePage D hlt hpin hfree p none fun g hg => by cases hg
      obtain ⟨hsize, hlist, -⟩ := b.updatePage_frame (f := f) D p none
      rcases hu : b.updatePage D f p none with ⟨e | u, b₁⟩
      · rw [hu] at hinv hheld
        exact ⟨hinv, hheld⟩
      · rw [hu] at hinv hheld hmap hsize hlist
        dsimp only at hinv hheld hmap hsize hlist
        refine ⟨hinv.give (hsize ▸ hlt) ((hheld.pins f).trans hpin) (hmap rfl rfl).1 ?_ (hmap rfl rfl).2,
          hheld.pins, hheld.held⟩
        rw [hlist]
        exact hfree

/-- So does `delete_all_pages`. -/
theorem deleteAll_spec (h : b.PinInv) (fd : Int) :
    (b.deleteAllPage D fd).2.PinInv ∧ HoldsPinned b (b.deleteAllPage D fd).2 := by
  rcases b.deleteAllPage_cases D fd with ⟨-, heq⟩ | ⟨hpins, heq⟩
  · rw [heq]
    exact ⟨h, .refl b⟩
  · rw [heq]
    apply h.deleteFrames D _ (targets_nodup (fun p f hp => (h.mapped p f hp).2) fd)
    intro f hf
    obtain ⟨p, -, hp⟩ := mem_targets.mp hf
    exact ⟨(h.mapped p f hp).1, hpins f hf, h.mapped_free p f hp⟩

/-- **Each call.** -/
theorem run_spec (h : b.PinInv) (c : PoolCall) :
    (c.run D b).PinInv ∧ ∀ f, FrameStep c (b.pages f) ((c.run D b).pages f) := by
  have holds : ∀ {b'}, b'.PinInv ∧ HoldsPinned b b' →
      b'.PinInv ∧ ∀ f, FrameStep c (b.pages f) (b'.pages f) :=
    fun hb' => ⟨hb'.1, frameStep_of_holds hb'.2 c⟩
  cases c with
  | fetch p => exact fetch_spec h p
  | new fd => exact new_spec h fd
  | unpin p d => exact unpin_spec h p d
  | flush p => exact holds (flush_spec h p)
  | delete p => exact holds (delete_spec h p)
  | deleteAll fd => exact holds (deleteAll_spec h fd)
  | flushAllPages fd => exact holds (h.flushEntries D _ _)
  | flushAllPage => exact holds (h.flushEntries D _ _)

end PoolCall

/-! ### Runs -/

/-- A step: a call, or something that happens beside the calls. -/
inductive PoolStep (δ : Type) where
  | call (c : PoolCall)
  /-- Somebody writes to the bytes of a frame. -/
  | write (f : FrameId) (data : PageData)
  /-- Another component uses the disk. -/
  | disk (d : δ)
  /-- The unordered map is rehashed. -/
  | rehash (t : AList (fun _ : PageId => FrameId))

namespace PoolStep

variable {δ : Type}

def Allowed (b : BufferPoolManager δ) : PoolStep δ → Prop
  | .rehash t => t.entries.Perm b.pageTable.entries
  | _ => True

def apply (D : DiskOps δ) (b : BufferPoolManager δ) : PoolStep δ → BufferPoolManager δ
  | .call c => c.run D b
  | .write f data => b.setPage f { b.pages f with data := data }
  | .disk d => { b with disk := d }
  | .rehash t => { b with pageTable := t }

end PoolStep

/-- **The buffer pool over any disk**, in any state of a run from an empty pool. -/
def poolRuns {δ : Type} (D : DiskOps δ) : TransitionSystem (BufferPoolManager δ) (PoolStep δ) where
  init b := ∃ n garbage disk, b = .new n garbage disk
  step b s b' := s.Allowed b ∧ b' = s.apply D b

section Runs

variable {δ : Type} {D : DiskOps δ} {b b' : BufferPoolManager δ}

/-- **One step** keeps the invariant, and adds at most one pin to a frame. -/
theorem PoolStep.apply_spec (h : b.PinInv) (s : PoolStep δ) (hs : s.Allowed b) :
    (s.apply D b).PinInv ∧ ∀ f, ((s.apply D b).pages f).pinCount ≤ (b.pages f).pinCount + 1 := by
  cases s with
  | call c =>
    obtain ⟨hinv, hframe⟩ := c.run_spec (D := D) h
    refine ⟨hinv, fun f => ?_⟩
    show ((c.run D b).pages f).pinCount ≤ _
    rcases (hframe f).pins with hp | ⟨-, hp⟩ | ⟨-, h0, hp⟩ | ⟨_, -, hp⟩ <;> omega
  | write f data =>
    refine ⟨h.setPage rfl rfl id, fun g => ?_⟩
    have hpin : ((b.setPage f { b.pages f with data := data }).pages g).pinCount = (b.pages g).pinCount := by
      by_cases hg : g = f <;> simp [setPage, hg]
    show ((b.setPage f { b.pages f with data := data }).pages g).pinCount ≤ _
    omega
  | disk d =>
    refine ⟨h.setDisk d, fun g => ?_⟩
    show (b.pages g).pinCount ≤ _
    omega
  | rehash t =>
    have hlook : ∀ p, t.lookup p = b.pageTable.lookup p := fun p => AList.perm_lookup hs
    refine ⟨h.restrict b.disk fun q g hq => (hlook q).symm.trans hq, fun g => ?_⟩
    show (b.pages g).pinCount ≤ _
    omega

/-- The invariant holds in every state reached. -/
theorem PinInv.of_reachable (hb : (poolRuns D).Reachable b) : b.PinInv := by
  refine hb.invariant ?_ ?_
  · rintro b ⟨n, garbage, disk, rfl⟩
    exact pinInv_new n garbage disk
  · rintro b s _ h ⟨hs, rfl⟩
    exact (s.apply_spec h hs).1

/-- Along a run. -/
theorem PinInv.of_run {steps : List (PoolStep δ)} (h : b.PinInv) (hrun : (poolRuns D).Run b steps b') :
    b'.PinInv ∧ ∀ f, (b'.pages f).pinCount ≤ (b.pages f).pinCount + steps.length := by
  induction hrun with
  | nil => exact ⟨h, fun f => by simp⟩
  | snoc _ hstep ih =>
    obtain ⟨hs, rfl⟩ := hstep
    obtain ⟨hinv, hpins⟩ := ih
    obtain ⟨hinv', hpins'⟩ := PoolStep.apply_spec (D := D) hinv _ hs
    refine ⟨hinv', fun f => ?_⟩
    have hf := hpins f
    have hf' := hpins' f
    rw [List.length_append, List.length_singleton]
    omega

/-- **Pinned frames are safe.**  After any steps from the empty pool, on any disk and with any
    failures: no pinned frame is a victim; a pin count is between 0 and the number of the steps; and a
    call takes neither the page nor the bytes of a pinned frame, and changes its pin count only where it
    is the call for it. -/
theorem pinned_frames_kept {n : Nat} {garbage : FrameId → Int} {disk : δ} {steps : List (PoolStep δ)}
    (hrun : (poolRuns D).Run (.new n garbage disk) steps b) :
    (∀ f b₁, b.findVictimPage = (some f, b₁) → (b.pages f).pinCount = 0) ∧
    (∀ f, 0 ≤ (b.pages f).pinCount ∧ (b.pages f).pinCount ≤ steps.length) ∧
    ∀ c f, FrameStep c (b.pages f) ((PoolCall.run D b c).pages f) := by
  obtain ⟨hinv, hpins⟩ := PinInv.of_run (pinInv_new n garbage disk) hrun
  refine ⟨fun f b₁ hv => ?_, fun f => ⟨hinv.pins f, ?_⟩, fun c => (c.run_spec hinv).2⟩
  · obtain ⟨-, -, -, hpin, -⟩ := hinv.victim hv
    exact hpin
  · have hf := hpins f
    simpa [BufferPoolManager.new] using hf

/-- A pool of one frame that has fetched a page. -/
def onePinned : BufferPoolManager IdealDisk :=
  PoolCall.run IdealDisk.ops (.new 1 (fun _ => 0) ⟨fun _ => .zero, fun _ => 0⟩) (.fetch ⟨3, 1⟩)

/-- A second page finds no frame there. -/
theorem pinned_frames_kept_one_fetch :
    (onePinned.pages 0).pinCount = 1 ∧
      ∀ f, FrameStep (.fetch ⟨4, 2⟩) (onePinned.pages f)
        ((PoolCall.run IdealDisk.ops onePinned (.fetch ⟨4, 2⟩)).pages f) := by
  have hrun : (poolRuns IdealDisk.ops).Run (.new 1 (fun _ => 0) ⟨fun _ => .zero, fun _ => 0⟩)
      [.call (.fetch ⟨3, 1⟩)] onePinned :=
    .snoc (.nil _) ⟨trivial, rfl⟩
  exact ⟨by decide, (pinned_frames_kept hrun).2.2 _⟩

end Runs

end Rmdb
