import Rmdb.Storage.BufferPool

namespace Rmdb

/-!
# The invariant of the buffer pool

`PoolInv` ties the page table, the frames, the free list and the replacer together.  A frame is free
or mapped, never both; a mapped frame carries the id it is mapped under.

* `PoolInv.install` — a frame taken by `find_victim_page` and given to a page, the step `fetch_page`
  and `new_page` share.  It needs that `update_page`, when it erases the old id of the frame, erases
  the entry of this frame and no other one (`SafeReuse`);
* `PoolInv.release` — a frame returned to the free list;
* one lemma for each operation says what it computes on a disk that works.
-/

namespace BufferPoolManager

variable {δ : Type}

/-- The frame that would be taken next may be given to another page: if it comes from the free
    list, the id it still carries is not the id of a cached page. -/
def SafeReuse (b : BufferPoolManager δ) (f : FrameId) : Prop :=
  f ∈ b.freeList → b.pageTable.lookup (b.pages f).id = none

/-- **The invariant.** -/
structure PoolInv (b : BufferPoolManager δ) : Prop where
  /-- A mapped frame exists and carries the id it is mapped under. -/
  mapped : ∀ p f, b.pageTable.lookup p = some f → f < b.poolSize ∧ (b.pages f).id = p
  free_nodup : b.freeList.Nodup
  free_lt : ∀ f ∈ b.freeList, f < b.poolSize
  /-- The free frames are the unmapped ones. -/
  free_iff : ∀ f < b.poolSize, f ∈ b.freeList ↔ ∀ p, b.pageTable.lookup p ≠ some f
  /-- A free frame is neither pinned nor dirty. -/
  free_idle : ∀ f ∈ b.freeList, (b.pages f).pinCount = 0 ∧ (b.pages f).isDirty = false
  pins : ∀ f, 0 ≤ (b.pages f).pinCount
  replacer : b.replacer.Inv
  /-- Only unpinned frames can be evicted, -/
  evictable : ∀ f ∈ b.replacer.frames, f < b.poolSize ∧ (b.pages f).pinCount = 0
  /-- and every unpinned page can. -/
  idle_evictable : ∀ p f, b.pageTable.lookup p = some f → (b.pages f).pinCount = 0 →
    f ∈ b.replacer.frames

/-- The invariant holds of a new pool. -/
theorem poolInv_new (n : Nat) (garbage : FrameId → Int) (disk : δ) :
    (new n garbage disk).PoolInv where
  mapped p f h := by simp [new] at h
  free_nodup := List.nodup_range
  free_lt f h := List.mem_range.mp h
  free_iff f h := by simpa [new] using h
  free_idle f _ := ⟨rfl, rfl⟩
  pins f := Int.le_refl 0
  replacer := LRUReplacer.inv_new
  evictable f h := by simp [new, LRUReplacer.new, LRUReplacer.frames] at h
  idle_evictable p f h := by simp [new] at h

section Lookup

variable {b : BufferPoolManager δ}

/-- One frame is mapped under one id only. -/
theorem PoolInv.injective (h : b.PoolInv) {p q : PageId} {f : FrameId}
    (hp : b.pageTable.lookup p = some f) (hq : b.pageTable.lookup q = some f) : p = q := by
  rw [← (h.mapped p f hp).2, (h.mapped q f hq).2]

/-- A frame that is not free is mapped under the id it carries. -/
theorem PoolInv.lookup_id (h : b.PoolInv) {f : FrameId} (hf : f < b.poolSize)
    (hfree : f ∉ b.freeList) : b.pageTable.lookup (b.pages f).id = some f := by
  rw [h.free_iff f hf] at hfree
  push Not at hfree
  obtain ⟨p, hp⟩ := hfree
  rw [(h.mapped p f hp).2]
  exact hp

/-- A pinned frame is mapped under the id it carries. -/
theorem PoolInv.lookup_of_pinned (h : b.PoolInv) {f : FrameId} (hf : f < b.poolSize)
    (hpin : 0 < (b.pages f).pinCount) : b.pageTable.lookup (b.pages f).id = some f := by
  apply h.lookup_id hf
  intro hfree
  rw [(h.free_idle f hfree).1] at hpin
  omega

/-- A mapped frame is not free. -/
theorem PoolInv.not_free (h : b.PoolInv) {p : PageId} {f : FrameId}
    (hp : b.pageTable.lookup p = some f) : f ∉ b.freeList :=
  fun hfree => (h.free_iff f (h.mapped p f hp).1).mp hfree p hp

/-- The frames that `delete_all_page` collects. -/
def targets (b : BufferPoolManager δ) (fd : Int) : List FrameId :=
  (b.pageTable.entries.filter (fun e => e.1.fd = fd)).map Sigma.snd

/-- The frames that the page table holds for a file. -/
theorem mem_targets {fd : Int} {f : FrameId} :
    f ∈ b.targets fd ↔ ∃ p, p.fd = fd ∧ b.pageTable.lookup p = some f := by
  constructor
  · intro hf
    obtain ⟨⟨p, g⟩, he, rfl⟩ := List.mem_map.mp hf
    obtain ⟨he, hfd⟩ := List.mem_filter.mp he
    exact ⟨p, by simpa using hfd, AList.mem_lookup_iff.mpr he⟩
  · rintro ⟨p, hfd, hf⟩
    apply List.mem_map.mpr
    exact ⟨⟨p, f⟩, List.mem_filter.mpr ⟨AList.mem_lookup_iff.mp hf, by simpa using hfd⟩, rfl⟩

/-- Different entries name different frames. -/
theorem targets_nodup (hid : ∀ p f, b.pageTable.lookup p = some f → (b.pages f).id = p) (fd : Int) :
    (b.targets fd).Nodup := by
  have hkeys : (b.pageTable.entries.filter (fun e => e.1.fd = fd)).Nodup :=
    (List.Nodup.of_map _ b.pageTable.nodupKeys).filter _
  refine hkeys.map_on fun e he e' he' heq => ?_
  have hlook : ∀ e ∈ b.pageTable.entries.filter (fun e => e.1.fd = fd),
      b.pageTable.lookup e.1 = some e.2 := fun e he =>
    AList.mem_lookup_iff.mpr (List.mem_of_mem_filter he)
  obtain ⟨p, f⟩ := e
  obtain ⟨q, g⟩ := e'
  dsimp only at heq
  subst heq
  have hp := hid p f (hlook _ he)
  have hq := hid q f (hlook _ he')
  rw [hp] at hq
  rw [hq]

/-- **`delete_all_page`**: a pinned frame stops it. -/
theorem deleteAllPage_cases (D : DiskOps δ) (b : BufferPoolManager δ) (fd : Int) :
    ((∃ f ∈ b.targets fd, (b.pages f).pinCount ≠ 0) ∧ b.deleteAllPage D fd = (.ok false, b)) ∨
    ((∀ f ∈ b.targets fd, (b.pages f).pinCount = 0) ∧ b.deleteAllPage D fd =
      ((b.deleteFrames D (b.targets fd)).1.map fun _ => true, (b.deleteFrames D (b.targets fd)).2)) := by
  unfold deleteAllPage
  dsimp only
  split
  case isTrue hany =>
    obtain ⟨f, hf, hpin⟩ := List.any_eq_true.mp hany
    exact .inl ⟨⟨f, hf, by simpa using hpin⟩, rfl⟩
  case isFalse hany =>
    refine .inr ⟨fun f hf => ?_, ?_⟩
    · by_contra hpin
      exact hany (List.any_eq_true.mpr ⟨f, hf, by simpa using hpin⟩)
    · rw [targets]
      split
      · simp [*, Except.map]
      · simp [*, Except.map]

end Lookup

/-! ### Taking a frame -/

/-- What `find_victim_page` returns: a frame that is free, or evictable and mapped. -/
structure Taken (b : BufferPoolManager δ) (f : FrameId) (b₁ : BufferPoolManager δ) : Prop where
  eq : b₁ = { b with freeList := b₁.freeList, replacer := b₁.replacer }
  lt : f < b.poolSize
  pin : (b.pages f).pinCount = 0
  origin : f ∈ b.freeList ∨ b.pageTable.lookup (b.pages f).id = some f
  free_nodup : b₁.freeList.Nodup
  mem_free : ∀ g, g ∈ b₁.freeList ↔ g ∈ b.freeList ∧ g ≠ f
  replacer : b₁.replacer.Inv
  mem_frames : ∀ g, g ≠ f → (g ∈ b₁.replacer.frames ↔ g ∈ b.replacer.frames)

/-- What `find_victim_page` has done when it succeeds. -/
theorem PoolInv.taken {b b₁ : BufferPoolManager δ} (h : b.PoolInv) {f : FrameId}
    (hv : b.findVictimPage = (some f, b₁)) : Taken b f b₁ := by
  unfold findVictimPage at hv
  cases hfree : b.freeList with
  | cons g rest =>
    rw [hfree] at hv
    obtain ⟨hg, rfl⟩ := Prod.mk.inj hv
    have hgf : g = f := Option.some.inj hg
    subst hgf
    have hmem : g ∈ b.freeList := by rw [hfree]; exact List.mem_cons_self
    have hnd := h.free_nodup
    rw [hfree, List.nodup_cons] at hnd
    refine ⟨rfl, h.free_lt g hmem, (h.free_idle g hmem).1, Or.inl hmem, hnd.2, fun g' => ?_,
      h.replacer, fun g' _ => Iff.rfl⟩
    rw [hfree, List.mem_cons]
    constructor
    · exact fun hg' => ⟨Or.inr hg', fun heq => hnd.1 (heq ▸ hg')⟩
    · rintro ⟨hg' | hg', hne⟩
      · exact absurd hg' hne
      · exact hg'
  | nil =>
    rw [hfree] at hv
    obtain ⟨hf, rfl⟩ := Prod.mk.inj hv
    have hmem := LRUReplacer.victim_mem hf
    obtain ⟨hlt, hpin⟩ := h.evictable f hmem
    have hnf : f ∉ b.freeList := by simp [hfree]
    refine ⟨rfl, hlt, hpin, Or.inr (h.lookup_id hlt hnf), ?_, ?_,
      LRUReplacer.victim_inv h.replacer, fun g hne => ?_⟩
    · exact List.nodup_nil
    · intro g
      simp [hfree]
    · rw [LRUReplacer.mem_victim_frames h.replacer hf]
      exact ⟨fun hg => hg.1, fun hg => ⟨hg, hne⟩⟩

/-- A frame is found as long as some page is unpinned or some frame free. -/
theorem PoolInv.exists_victim {b : BufferPoolManager δ} (h : b.PoolInv) {f : FrameId}
    (hf : f < b.poolSize) (hpin : (b.pages f).pinCount = 0) :
    ∃ g b₁, b.findVictimPage = (some g, b₁) := by
  unfold findVictimPage
  cases hfree : b.freeList with
  | cons g rest => exact ⟨g, _, rfl⟩
  | nil =>
    have hmem : f ∈ b.replacer.frames :=
      h.idle_evictable _ f (h.lookup_id hf (by simp [hfree])) hpin
    cases hv : b.replacer.victim.1 with
    | some g => exact ⟨g, { b with freeList := [], replacer := b.replacer.victim.2 }, by simp [hv]⟩
    | none =>
      rw [LRUReplacer.victim_eq_none_iff] at hv
      rw [hv] at hmem
      cases hmem

/-- A search that fails has changed nothing. -/
theorem findVictimPage_none {b b₁ : BufferPoolManager δ} (hv : b.findVictimPage = (none, b₁)) :
    b₁ = b := by
  unfold findVictimPage at hv
  cases hfree : b.freeList with
  | cons g rest =>
    rw [hfree] at hv
    cases hv
  | nil =>
    rw [hfree] at hv
    obtain ⟨hvic, rfl⟩ := Prod.mk.inj hv
    have hsame : b.replacer.victim.2 = b.replacer := by
      unfold LRUReplacer.victim at hvic ⊢
      split at hvic
      · rfl
      · cases hvic
    rw [hsame, ← hfree]

/-- The frame `f` holds the page `p` from now on, with one more pin. -/
def install (b : BufferPoolManager δ) (f : FrameId) (p : PageId) (data : PageData) (disk : δ) :
    BufferPoolManager δ :=
  { b with pageTable := emplace (b.pageTable.erase (b.pages f).id) p f
           disk := disk
           replacer := b.replacer.pin f }.setPage f
    { id := p, data := data, isDirty := false, pinCount := (b.pages f).pinCount + 1 }

/-- The page table after `update_page`: if the new id is not in use elsewhere, it names the frame,
    the old id names nothing, and the rest is as before. -/
theorem lookup_emplace_erase {t : AList (fun _ : PageId => FrameId)} {old p : PageId}
    {f : FrameId} (hp : t.lookup p ≠ none → p = old) (q : PageId) :
    (emplace (t.erase old) p f).lookup q =
      if q = p then some f else if q = old then none else t.lookup q := by
  have hnone : (t.erase old).lookup p = none := by
    by_cases heq : p = old
    · rw [heq]
      exact AList.lookup_erase old t
    · rw [AList.lookup_erase_ne heq]
      by_contra hne
      exact heq (hp hne)
  unfold emplace
  rw [hnone]
  dsimp only
  by_cases hq : q = p
  · rw [if_pos hq, hq, AList.lookup_insert]
  · rw [if_neg hq, AList.lookup_insert_ne hq]
    by_cases hold : q = old
    · rw [if_pos hold, hold]
      exact AList.lookup_erase old t
    · rw [if_neg hold]
      exact AList.lookup_erase_ne hold

section Install

variable {b b₁ : BufferPoolManager δ} {f : FrameId} {p : PageId}

/-- The new id is free, or it is the very id the frame is giving up. -/
theorem Taken.new_id (h : b.PoolInv) (ht : Taken b f b₁)
    (hp : ∀ g, b.pageTable.lookup p = some g → g = f) :
    b.pageTable.lookup p ≠ none → p = (b.pages f).id := by
  intro hne
  obtain ⟨g, hg⟩ := Option.ne_none_iff_exists'.mp hne
  have hgf := hp g hg
  subst hgf
  exact (h.mapped p g hg).2.symm

/-- The page table after the frame has been taken and given to `p`. -/
theorem Taken.lookup_install (h : b.PoolInv) (ht : Taken b f b₁) (hsafe : b.SafeReuse f)
    (hp : ∀ g, b.pageTable.lookup p = some g → g = f) (data : PageData) (disk : δ) (q : PageId) :
    (b₁.install f p data disk).pageTable.lookup q =
      if q = p then some f else if b.pageTable.lookup q = some f then none
        else b.pageTable.lookup q := by
  have hpages : b₁.pages = b.pages := by rw [ht.eq]
  have htable : b₁.pageTable = b.pageTable := by rw [ht.eq]
  show (emplace (b₁.pageTable.erase (b₁.pages f).id) p f).lookup q = _
  rw [hpages, htable, lookup_emplace_erase (ht.new_id h hp)]
  by_cases hq : q = p
  · rw [if_pos hq, if_pos hq]
  rw [if_neg hq, if_neg hq]
  by_cases hold : q = (b.pages f).id
  · -- the erased entry is the one of `f`, or there is none
    rw [if_pos hold, hold]
    rcases ht.origin with hfree | hmap
    · rw [hsafe hfree]
      simp
    · rw [hmap]
      simp
  · rw [if_neg hold]
    by_cases hmap : b.pageTable.lookup q = some f
    · exact absurd (h.mapped q f hmap).2.symm hold
    · rw [if_neg hmap]

/-- The new page is found in its frame. -/
theorem Taken.lookup_install_self (h : b.PoolInv) (ht : Taken b f b₁) (hsafe : b.SafeReuse f)
    (hp : ∀ g, b.pageTable.lookup p = some g → g = f) (data : PageData) (disk : δ) :
    (b₁.install f p data disk).pageTable.lookup p = some f := by
  rw [ht.lookup_install h hsafe hp data disk, if_pos rfl]

/-- The entries of the other pages have been there before. -/
theorem Taken.lookup_of_install (h : b.PoolInv) (ht : Taken b f b₁) (hsafe : b.SafeReuse f)
    (hp : ∀ g, b.pageTable.lookup p = some g → g = f) {data : PageData} {disk : δ} {q : PageId} {g : FrameId}
    (hqp : q ≠ p) (hq : (b₁.install f p data disk).pageTable.lookup q = some g) :
    b.pageTable.lookup q = some g := by
  rw [ht.lookup_install h hsafe hp data disk, if_neg hqp] at hq
  split at hq
  · cases hq
  · exact hq

/-- The frame after it has been given to `p`. -/
theorem Taken.install_self (ht : Taken b f b₁) (data : PageData) (disk : δ) :
    (b₁.install f p data disk).pages f =
      { id := p, data := data, isDirty := false, pinCount := 1 } := by
  have hpages : b₁.pages f = b.pages f := by rw [ht.eq]
  simp [BufferPoolManager.install, setPage, hpages, ht.pin]

/-- The other frames are not touched. -/
theorem Taken.install_other (ht : Taken b f b₁) (data : PageData) (disk : δ) {g : FrameId}
    (hg : g ≠ f) : (b₁.install f p data disk).pages g = b.pages g := by
  have hpages : b₁.pages g = b.pages g := by rw [ht.eq]
  simp [BufferPoolManager.install, setPage, hg, hpages]

/-- **Reusing a frame.** The invariant survives `update_page` on a frame that may be reused. -/
theorem PoolInv.install (h : b.PoolInv) (ht : Taken b f b₁) (hsafe : b.SafeReuse f)
    (hp : ∀ g, b.pageTable.lookup p = some g → g = f) (data : PageData) (disk : δ) :
    (b₁.install f p data disk).PoolInv := by
  have hlook := ht.lookup_install h hsafe hp data disk
  have hsize : (b₁.install f p data disk).poolSize = b.poolSize := by
    show b₁.poolSize = b.poolSize
    rw [ht.eq]
  have hself := ht.install_self (p := p) data disk
  have hother : ∀ g, g ≠ f → (b₁.install f p data disk).pages g = b.pages g :=
    fun g hg => ht.install_other data disk hg
  have hfree : ∀ g, g ∈ (b₁.install f p data disk).freeList ↔ g ∈ b.freeList ∧ g ≠ f := ht.mem_free
  have hframes : ∀ g, g ∈ (b₁.install f p data disk).replacer.frames ↔
      g ∈ b.replacer.frames ∧ g ≠ f := by
    intro g
    show g ∈ (b₁.replacer.pin f).frames ↔ _
    rw [LRUReplacer.mem_pin_frames ht.replacer]
    constructor
    · exact fun hg => ⟨(ht.mem_frames g hg.2).mp hg.1, hg.2⟩
    · exact fun hg => ⟨(ht.mem_frames g hg.2).mpr hg.1, hg.2⟩
  -- an entry of the new table is the new one or an old one of another frame
  have hcases : ∀ q g, (b₁.install f p data disk).pageTable.lookup q = some g →
      (q = p ∧ g = f) ∨ (g ≠ f ∧ b.pageTable.lookup q = some g) := by
    intro q g hq
    rw [hlook] at hq
    split at hq
    · exact Or.inl ⟨‹q = p›, (Option.some.inj hq).symm⟩
    · split at hq
      · cases hq
      · refine Or.inr ⟨fun hgf => ?_, hq⟩
        rw [hgf] at hq
        contradiction
  refine ⟨?_, ht.free_nodup, ?_, ?_, ?_, ?_, LRUReplacer.pin_inv ht.replacer f, ?_, ?_⟩
  · intro q g hq
    rw [hsize]
    rcases hcases q g hq with ⟨rfl, rfl⟩ | ⟨hne, hq'⟩
    · exact ⟨ht.lt, by rw [hself]⟩
    · rw [hother g hne]
      exact h.mapped q g hq'
  · intro g hg
    rw [hsize]
    exact h.free_lt g ((hfree g).mp hg).1
  · intro g hg
    rw [hsize] at hg
    rw [hfree g, h.free_iff g hg]
    constructor
    · rintro ⟨hno, hne⟩ q hq
      rcases hcases q g hq with ⟨-, hgf⟩ | ⟨-, hq'⟩
      · exact hne hgf
      · exact hno q hq'
    · intro hno
      have hgf : g ≠ f := by
        rintro rfl
        apply hno p
        rw [hlook, if_pos rfl]
      refine ⟨fun q hq => hno q ?_, hgf⟩
      rw [hlook, if_neg ?_, if_neg ?_]
      · exact hq
      · rw [hq]
        exact fun heq => hgf (Option.some.inj heq)
      · rintro rfl
        exact hgf (hp g hq)
  · intro g hg
    obtain ⟨hg', hne⟩ := (hfree g).mp hg
    rw [hother g hne]
    exact h.free_idle g hg'
  · intro g
    by_cases hgf : g = f
    · rw [hgf, hself]
      exact Int.one_nonneg
    · rw [hother g hgf]
      exact h.pins g
  · intro g hg
    obtain ⟨hg', hne⟩ := (hframes g).mp hg
    rw [hsize, hother g hne]
    exact h.evictable g hg'
  · intro q g hq hpin
    rcases hcases q g hq with ⟨-, rfl⟩ | ⟨hne, hq'⟩
    · rw [hself] at hpin
      exact absurd hpin (by simp)
    · rw [hother g hne] at hpin
      exact (hframes g).mpr ⟨h.idle_evictable q g hq' hpin, hne⟩

end Install

/-! ### Changing a mapped frame, and giving one back -/

section Mapped

variable {b : BufferPoolManager δ} {f : FrameId} {p : PageId}

/-- A mapped frame may change its bytes, its dirty flag and its pin count, as long as the replacer
    knows it exactly while it is unpinned. -/
theorem PoolInv.setMapped (h : b.PoolInv) (hp : b.pageTable.lookup p = some f) (page : Page)
    (hid : page.id = p) (hpins : 0 ≤ page.pinCount) {r : LRUReplacer} (hr : r.Inv)
    (hframes : ∀ g, g ≠ f → (g ∈ r.frames ↔ g ∈ b.replacer.frames))
    (hf : f ∈ r.frames ↔ page.pinCount = 0) (disk : δ) :
    ({ b with disk := disk, replacer := r }.setPage f page).PoolInv := by
  have hself : ({ b with disk := disk, replacer := r }.setPage f page).pages f = page := by
    simp [setPage]
  have hother : ∀ g, g ≠ f →
      ({ b with disk := disk, replacer := r }.setPage f page).pages g = b.pages g := by
    intro g hg
    simp [setPage, hg]
  refine ⟨fun q g hq => ?_, h.free_nodup, h.free_lt, h.free_iff, fun g hg => ?_, fun g => ?_, hr,
    fun g hg => ?_, fun q g hq hpin => ?_⟩
  · obtain ⟨hlt, hidg⟩ := h.mapped q g hq
    refine ⟨hlt, ?_⟩
    by_cases hgf : g = f
    · subst hgf
      rw [hself, hid]
      exact h.injective hp hq
    · rw [hother g hgf]
      exact hidg
  · have hgf : g ≠ f := by
      rintro rfl
      exact h.not_free hp hg
    rw [hother g hgf]
    exact h.free_idle g hg
  · by_cases hgf : g = f
    · rw [hgf, hself]
      exact hpins
    · rw [hother g hgf]
      exact h.pins g
  · by_cases hgf : g = f
    · subst hgf
      rw [hself]
      exact ⟨(h.mapped p g hp).1, hf.mp hg⟩
    · rw [hother g hgf]
      exact h.evictable g ((hframes g hgf).mp hg)
  · by_cases hgf : g = f
    · subst hgf
      rw [hself] at hpin
      exact hf.mpr hpin
    · rw [hother g hgf] at hpin
      exact (hframes g hgf).mpr (h.idle_evictable q g hq hpin)

/-- The replacer knows a mapped frame exactly while it is unpinned. -/
theorem PoolInv.mem_frames_iff (h : b.PoolInv) (hp : b.pageTable.lookup p = some f) :
    f ∈ b.replacer.frames ↔ (b.pages f).pinCount = 0 :=
  ⟨fun hf => (h.evictable f hf).2, h.idle_evictable p f hp⟩

/-- New bytes or another dirty flag. -/
theorem PoolInv.setData (h : b.PoolInv) (hp : b.pageTable.lookup p = some f) (data : PageData)
    (isDirty : Bool) (disk : δ) :
    ({ b with disk := disk }.setPage f
      { b.pages f with data := data, isDirty := isDirty }).PoolInv :=
  h.setMapped hp { b.pages f with data := data, isDirty := isDirty } (h.mapped p f hp).2 (h.pins f)
    h.replacer (fun _ _ => Iff.rfl) (h.mem_frames_iff hp) disk

/-- One more pin. -/
theorem PoolInv.pinFrame (h : b.PoolInv) (hp : b.pageTable.lookup p = some f) :
    (b.pinFrame f).PoolInv := by
  have hpin := h.pins f
  refine h.setMapped hp { b.pages f with pinCount := (b.pages f).pinCount + 1 } (h.mapped p f hp).2
    (by show 0 ≤ (b.pages f).pinCount + 1; omega) (LRUReplacer.pin_inv h.replacer f)
    (fun g hg => ?_) ?_ b.disk
  · rw [LRUReplacer.mem_pin_frames h.replacer]
    exact ⟨fun hg' => hg'.1, fun hg' => ⟨hg', hg⟩⟩
  · rw [LRUReplacer.mem_pin_frames h.replacer]
    show f ∈ b.replacer.frames ∧ f ≠ f ↔ (b.pages f).pinCount + 1 = 0
    simp only [ne_eq, not_true, and_false, false_iff]
    omega

/-- `unpin_page` keeps the invariant. -/
theorem PoolInv.unpinPage (h : b.PoolInv) (p : PageId) (d : Bool) : (b.unpinPage p d).2.PoolInv := by
  unfold BufferPoolManager.unpinPage
  cases hp : b.pageTable.lookup p with
  | none => exact h
  | some f =>
    dsimp only
    have hpin := h.pins f
    by_cases h0 : (b.pages f).pinCount = 0
    · rw [if_pos h0]
      exact h
    rw [if_neg h0]
    refine h.setMapped hp { b.pages f with pinCount := (b.pages f).pinCount - 1,
                                           isDirty := (b.pages f).isDirty || d }
      (h.mapped p f hp).2 ?_ ?_ ?_ ?_ b.disk
    · show 0 ≤ (b.pages f).pinCount - 1
      omega
    · split
      · exact LRUReplacer.unpin_inv h.replacer f
      · exact h.replacer
    · intro g hg
      split
      · rw [LRUReplacer.mem_unpin_frames h.replacer]
        exact ⟨fun hg' => hg'.resolve_right hg, Or.inl⟩
      · exact Iff.rfl
    · show _ ↔ (b.pages f).pinCount - 1 = 0
      split
      · rename_i h1
        rw [LRUReplacer.mem_unpin_frames h.replacer]
        exact ⟨fun _ => h1, fun _ => Or.inr rfl⟩
      · rename_i h1
        constructor
        · exact fun hf => absurd (h.evictable f hf).2 h0
        · exact fun h' => absurd h' h1

/-- The frame `f` of the page `p` is given back. -/
def release (b : BufferPoolManager δ) (f : FrameId) (disk : δ) : BufferPoolManager δ :=
  { b with disk := disk
           pageTable := b.pageTable.erase (b.pages f).id
           freeList := b.freeList ++ [f] }.setPage f { b.pages f with isDirty := false }

/-- Only the page that leaves the pool is no longer found. -/
theorem PoolInv.lookup_release (h : b.PoolInv) (hp : b.pageTable.lookup p = some f) (disk : δ)
    (q : PageId) :
    (b.release f disk).pageTable.lookup q = if q = p then none else b.pageTable.lookup q := by
  show (b.pageTable.erase (b.pages f).id).lookup q = _
  rw [(h.mapped p f hp).2]
  by_cases hq : q = p
  · rw [if_pos hq, hq]
    exact AList.lookup_erase p _
  · rw [if_neg hq]
    exact AList.lookup_erase_ne hq

/-- The entries that are left are those of the other frames. -/
theorem release_eq_some (hid : ∀ p f, b.pageTable.lookup p = some f → (b.pages f).id = p)
    (hp : b.pageTable.lookup p = some f) (disk : δ) {q : PageId} {g : FrameId} :
    (b.release f disk).pageTable.lookup q = some g ↔ g ≠ f ∧ b.pageTable.lookup q = some g := by
  show (b.pageTable.erase (b.pages f).id).lookup q = some g ↔ _
  rw [hid p f hp]
  by_cases hq : q = p
  · subst hq
    rw [AList.lookup_erase, hp]
    constructor
    · intro hg
      cases hg
    · rintro ⟨hne, hg⟩
      exact absurd (Option.some.inj hg).symm hne
  · rw [AList.lookup_erase_ne hq]
    refine ⟨fun hg => ⟨?_, hg⟩, fun hg => hg.2⟩
    rintro rfl
    exact hq ((hid q g hg).symm.trans (hid p g hp))

/-- The other pages stay in their frames. -/
theorem PoolInv.release_eq_some (h : b.PoolInv) (hp : b.pageTable.lookup p = some f) (disk : δ)
    {q : PageId} {g : FrameId} :
    (b.release f disk).pageTable.lookup q = some g ↔ g ≠ f ∧ b.pageTable.lookup q = some g :=
  BufferPoolManager.release_eq_some (fun p f hp => (h.mapped p f hp).2) hp disk

/-- The frame keeps its page, clean. -/
theorem release_self (b : BufferPoolManager δ) (f : FrameId) (disk : δ) :
    (b.release f disk).pages f = { b.pages f with isDirty := false } := by
  simp [BufferPoolManager.release, setPage]

/-- The other frames stay. -/
theorem release_other (b : BufferPoolManager δ) (disk : δ) {g : FrameId} (hg : g ≠ f) :
    (b.release f disk).pages g = b.pages g := by
  simp [BufferPoolManager.release, setPage, hg]

/-- No pin changes. -/
theorem release_pinCount (b : BufferPoolManager δ) (f : FrameId) (disk : δ) (g : FrameId) :
    ((b.release f disk).pages g).pinCount = (b.pages g).pinCount := by
  by_cases hg : g = f
  · rw [hg, release_self]
  · rw [release_other b disk hg]

/-- **Giving a frame back.** -/
theorem PoolInv.release (h : b.PoolInv) (hp : b.pageTable.lookup p = some f)
    (hpin : (b.pages f).pinCount = 0) (disk : δ) : (b.release f disk).PoolInv := by
  have hlt := (h.mapped p f hp).1
  -- one frame more is free
  have hmem : ∀ g, g ∈ (b.release f disk).freeList ↔ g ∈ b.freeList ∨ g = f := by
    intro g
    show g ∈ b.freeList ++ [f] ↔ _
    rw [List.mem_append, List.mem_singleton]
  refine ⟨fun q g hq => ?_, ?_, fun g hg => ?_, fun g hg => ?_, fun g hg => ?_, fun g => ?_,
    h.replacer, fun g hg => ?_, fun q g hq hpg => ?_⟩
  · obtain ⟨hgf, hq'⟩ := (h.release_eq_some hp disk).mp hq
    rw [release_other b disk hgf]
    exact h.mapped q g hq'
  · show (b.freeList ++ [f]).Nodup
    rw [List.nodup_append]
    refine ⟨h.free_nodup, by simp, fun g hg g' hg' => ?_⟩
    rw [List.mem_singleton.mp hg']
    rintro rfl
    exact h.not_free hp hg
  · rcases (hmem g).mp hg with hg | rfl
    · exact h.free_lt g hg
    · exact hlt
  · rw [hmem g, h.free_iff g hg]
    constructor
    · rintro (hno | rfl) q hq
      · exact hno q ((h.release_eq_some hp disk).mp hq).2
      · exact ((h.release_eq_some hp disk).mp hq).1 rfl
    · intro hno
      by_cases hgf : g = f
      · exact Or.inr hgf
      · exact Or.inl fun q hq => hno q ((h.release_eq_some hp disk).mpr ⟨hgf, hq⟩)
  · rw [release_pinCount]
    rcases (hmem g).mp hg with hg' | rfl
    · have hgf : g ≠ f := by
        rintro rfl
        exact h.not_free hp hg'
      rw [release_other b disk hgf]
      exact h.free_idle g hg'
    · rw [release_self]
      exact ⟨hpin, rfl⟩
  · rw [release_pinCount]
    exact h.pins g
  · rw [release_pinCount]
    exact h.evictable g hg
  · rw [release_pinCount] at hpg
    exact h.idle_evictable q g ((h.release_eq_some hp disk).mp hq).2 hpg

end Mapped

/-! ### What the operations compute where the disk works -/

section Compute

variable (D : DiskOps δ) {b b₁ : BufferPoolManager δ} {f : FrameId} {p : PageId}

/-- The disk after the frame `f` has been written back, if it is dirty. -/
def writeBack (b : BufferPoolManager δ) (f : FrameId) : δ :=
  if (b.pages f).isDirty then (D.writePage b.disk (b.pages f).id (b.pages f).data).2 else b.disk

/-- The write-back succeeds. -/
def WriteBackOk (b : BufferPoolManager δ) (f : FrameId) : Prop :=
  (b.pages f).isDirty = true → (D.writePage b.disk (b.pages f).id (b.pages f).data).1 = .ok ()

/-- A dirty page is written back. -/
theorem writeBack_outcome (h : b.WriteBackOk D f) :
    (if (b.pages f).isDirty then D.writePage b.disk (b.pages f).id (b.pages f).data
      else (.ok (), b.disk)) = (.ok (), b.writeBack D f) := by
  unfold writeBack
  by_cases hd : (b.pages f).isDirty = true
  · rw [if_pos hd, if_pos hd, ← h hd]
  · rw [if_neg hd, if_neg hd]

variable {D}

/-- `update_page` with a frame: page written, mapping moved. -/
theorem updatePage_some (h : b.WriteBackOk D f) (g : FrameId) :
    b.updatePage D f p (some g) =
      (.ok (), { b with disk := b.writeBack D f
                        pageTable := emplace (b.pageTable.erase (b.pages f).id) p g }.setPage f
        { b.pages f with isDirty := false, id := p }) := by
  unfold updatePage
  simp only [writeBack_outcome D h]

/-- `update_page` without one only erases the mapping. -/
theorem updatePage_none (h : b.WriteBackOk D f) :
    b.updatePage D f p none =
      (.ok (), { b with disk := b.writeBack D f
                        pageTable := b.pageTable.erase (b.pages f).id }.setPage f
        { b.pages f with isDirty := false }) := by
  unfold updatePage
  simp only [writeBack_outcome D h]

/-- A page that is cached is pinned. -/
theorem fetchPage_hit (hp : b.pageTable.lookup p = some f) :
    b.fetchPage D p = (.ok (some f), b.pinFrame f) := by
  unfold fetchPage
  rw [hp]

/-- A page that is not cached needs a victim. -/
theorem fetchPage_full (hp : b.pageTable.lookup p = none)
    (hv : b.findVictimPage = (none, b₁)) : b.fetchPage D p = (.ok none, b₁) := by
  unfold fetchPage
  rw [hp]
  simp only [hv]

/-- A miss installs the page with the bytes read from the disk. -/
theorem fetchPage_miss (hp : b.pageTable.lookup p = none)
    (hv : b.findVictimPage = (some f, b₁)) (hw : b₁.WriteBackOk D f) {data : PageData}
    (hr : D.Holds (b₁.writeBack D f) p data) :
    b.fetchPage D p = (.ok (some f), b₁.install f p data (b₁.writeBack D f)) := by
  unfold fetchPage
  rw [hp]
  simp only [hv, updatePage_some hw]
  simp [hr.2 _, setPage, pinFrame, install]

/-- A new page needs a victim. -/
theorem newPage_full {fd : Int} (hv : b.findVictimPage = (none, b₁)) :
    b.newPage D fd = (.ok none, b₁) := by
  unfold newPage
  simp only [hv]

/-- `new_page` installs a page of zeros under the number it was given. -/
theorem newPage_eq {fd : Int} (hv : b.findVictimPage = (some f, b₁))
    (hw : { b₁ with disk := (D.allocatePage b₁.disk fd).2 }.WriteBackOk D f) :
    b.newPage D fd =
      (.ok (some (f, ⟨fd, (D.allocatePage b₁.disk fd).1⟩)),
        b₁.install f ⟨fd, (D.allocatePage b₁.disk fd).1⟩ .zero
          ({ b₁ with disk := (D.allocatePage b₁.disk fd).2 }.writeBack D f)) := by
  unfold newPage
  simp only [hv, updatePage_some hw]
  simp [setPage, pinFrame, install]

/-- A cached page is written and clean. -/
theorem flushPage_eq (hp : b.pageTable.lookup p = some f)
    (hw : (D.writePage b.disk p (b.pages f).data).1 = .ok ()) :
    b.flushPage D p =
      (.ok true, { b with disk := (D.writePage b.disk p (b.pages f).data).2 }.setPage f
        { b.pages f with isDirty := false }) := by
  unfold flushPage
  rw [hp]
  simp only [hw]

/-- A cached page without pins leaves the pool. -/
theorem deletePage_eq (hp : b.pageTable.lookup p = some f) (hpin : (b.pages f).pinCount = 0)
    (hw : b.WriteBackOk D f) :
    b.deletePage D p = (.ok true, b.release f (b.writeBack D f)) := by
  unfold deletePage
  rw [hp]
  dsimp only
  rw [if_neg (not_not.mpr hpin), updatePage_none hw]
  rfl

end Compute

end BufferPoolManager

end Rmdb
