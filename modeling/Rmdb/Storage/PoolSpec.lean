import Rmdb.Storage.PoolInvariant

namespace Rmdb

/-!
# What the pool does to pages

The operations of the pool over a disk that obeys `DiskOps.Lawful`, seen from the pages:

* `Safe b p x` — the bytes of page `p` are `x` and cannot be lost: they are cached and dirty, or they
  are on the disk.  No operation but `new_page` on the number of `p` ends this;
* `PinsKept b b' T` — the frames of the pinned pages outside `T` stay as they are;
* `*_spec` — one lemma per operation: the result, the invariant, and both of these.
-/

namespace BufferPoolManager

variable {δ : Type} {D : DiskOps δ}

/-- The invariant, on a disk that accepts every cached page. -/
structure PoolOk (D : DiskOps δ) (b : BufferPoolManager δ) : Prop where
  inv : b.PoolInv
  disk : ∀ p f, b.pageTable.lookup p = some f → D.Addressable b.disk p

/-- The bytes of `p` are `x`, and they are on the disk or will be written to it. -/
def Safe (D : DiskOps δ) (b : BufferPoolManager δ) (p : PageId) (x : PageData) : Prop :=
  match b.pageTable.lookup p with
  | some f => (b.pages f).data = x ∧ ((b.pages f).isDirty = true ∨ D.Holds b.disk p x)
  | none => D.Holds b.disk p x

/-- Between `b` and `b'`, pinned pages outside `T` stay in their frames, and the pages that stay keep
    their bytes and their pins. -/
def PinsKept (b b' : BufferPoolManager δ) (T : PageId → Prop) : Prop :=
  ∀ q f, ¬ T q → b.pageTable.lookup q = some f →
    (0 < (b.pages f).pinCount → b'.pageTable.lookup q = some f) ∧
      (b'.pageTable.lookup q = some f → (b'.pages f).data = (b.pages f).data ∧
        (b'.pages f).pinCount = (b.pages f).pinCount)

/-- No frame has become free, and the free ones keep the id they carry. -/
def FreeKept (b b' : BufferPoolManager δ) : Prop :=
  ∀ g ∈ b'.freeList, g ∈ b.freeList ∧ (b'.pages g).id = (b.pages g).id

section Safe

variable {b : BufferPoolManager δ} {p : PageId} {x : PageData}

/-- A cached page is safe if it will be written or is on disk. -/
theorem safe_of_lookup {f : FrameId} (hp : b.pageTable.lookup p = some f) :
    Safe D b p x ↔
      (b.pages f).data = x ∧ ((b.pages f).isDirty = true ∨ D.Holds b.disk p x) := by
  unfold Safe
  rw [hp]

/-- A page that is not cached has to be on disk. -/
theorem safe_of_uncached (hp : b.pageTable.lookup p = none) : Safe D b p x ↔ D.Holds b.disk p x := by
  unfold Safe
  rw [hp]

/-- A change of the disk that leaves `p` alone. -/
theorem Safe.set_disk {d : δ} (h : Safe D b p x)
    (hd : D.Holds b.disk p x → D.Holds d p x) : Safe D { b with disk := d } p x := by
  cases hp : b.pageTable.lookup p with
  | none =>
    rw [safe_of_uncached hp] at h
    exact (safe_of_uncached (b := { b with disk := d }) hp).mpr (hd h)
  | some f =>
    rw [safe_of_lookup hp] at h
    exact (safe_of_lookup (b := { b with disk := d }) hp).mpr ⟨h.1, h.2.imp_right hd⟩

/-- The bytes of a page that is cached clean are on the disk. -/
theorem Safe.holds_of_clean {f : FrameId} (h : Safe D b p x) (hp : b.pageTable.lookup p = some f)
    (hd : (b.pages f).isDirty = false) : D.Holds b.disk p x := by
  rw [safe_of_lookup hp, hd] at h
  exact h.2.resolve_left Bool.false_ne_true

end Safe

/-! ### Writing back -/

section WriteBack

variable {b : BufferPoolManager δ} {f : FrameId}

/-- The write-back of a dirty frame goes to a page the disk accepts. -/
def Accepted (D : DiskOps δ) (b : BufferPoolManager δ) (f : FrameId) : Prop :=
  (b.pages f).isDirty = true → D.Addressable b.disk (b.pages f).id

/-- A page that the disk accepts can be written back. -/
theorem Accepted.writeBackOk (L : D.Lawful) (h : b.Accepted D f) : b.WriteBackOk D f :=
  fun hd => L.write_ok _ _ _ (h hd)

/-- What is on the disk under another id stays. -/
theorem writeBack_other (L : D.Lawful) (h : b.Accepted D f) {q : PageId} {y : PageData}
    (hq : (b.pages f).isDirty = true → q ≠ (b.pages f).id) (hy : D.Holds b.disk q y) :
    D.Holds (b.writeBack D f) q y := by
  unfold writeBack
  by_cases hd : (b.pages f).isDirty = true
  · rw [if_pos hd]
    exact L.write_frame _ _ _ _ _ (h hd) (hq hd) hy
  · rw [if_neg hd]
    exact hy

/-- The bytes of the frame are on the disk afterwards. -/
theorem writeBack_self (L : D.Lawful) (h : b.Accepted D f) {p : PageId} {x : PageData}
    (hp : b.pageTable.lookup p = some f) (hid : (b.pages f).id = p) (hs : Safe D b p x) :
    D.Holds (b.writeBack D f) p x := by
  unfold writeBack
  by_cases hd : (b.pages f).isDirty = true
  · rw [if_pos hd, hid, ((safe_of_lookup hp).mp hs).1]
    exact L.write_holds _ _ _ (hid ▸ h hd)
  · rw [if_neg hd]
    exact hs.holds_of_clean hp (by simpa using hd)

/-- Writing back keeps the pages that can be written. -/
theorem writeBack_keeps (L : D.Lawful) (h : b.Accepted D f) {q : PageId} (hq : D.Addressable b.disk q) :
    D.Addressable (b.writeBack D f) q := by
  unfold writeBack
  by_cases hd : (b.pages f).isDirty = true
  · rw [if_pos hd]
    exact L.write_keeps _ _ _ _ (h hd) hq
  · rw [if_neg hd]
    exact hq

/-- A mapped or free frame is accepted. -/
theorem PoolOk.accepted (h : b.PoolOk D) (hf : f < b.poolSize) : b.Accepted D f := by
  intro hd
  have hfree : f ∉ b.freeList := by
    intro hfree
    rw [(h.inv.free_idle f hfree).2] at hd
    cases hd
  exact h.disk _ f (h.inv.lookup_id hf hfree)

end WriteBack

/-! ### The three ways a frame changes -/

section Change

variable {b b₁ : BufferPoolManager δ} {f : FrameId} {p : PageId}

/-- A page other than that of the frame sees at most the disk change. -/
theorem safe_setMapped (h : b.PoolInv) (hp : b.pageTable.lookup p = some f) {page : Page}
    {r : LRUReplacer} {disk : δ} {q : PageId} {x : PageData} (hq : q ≠ p)
    (hdisk : ∀ y, D.Holds b.disk q y → D.Holds disk q y) (hs : Safe D b q x) :
    Safe D ({ b with disk := disk, replacer := r }.setPage f page) q x := by
  have hlook : ({ b with disk := disk, replacer := r }.setPage f page).pageTable.lookup q =
      b.pageTable.lookup q := rfl
  cases hg : b.pageTable.lookup q with
  | none =>
    rw [hg] at hlook
    rw [safe_of_uncached hlook]
    exact hdisk x ((safe_of_uncached hg).mp hs)
  | some g =>
    rw [hg] at hlook
    have hgf : g ≠ f := by
      rintro rfl
      exact hq (h.injective hg hp)
    have hpg : ({ b with disk := disk, replacer := r }.setPage f page).pages g = b.pages g := by
      simp [setPage, hgf]
    rw [safe_of_lookup hg] at hs
    rw [safe_of_lookup hlook, hpg]
    exact ⟨hs.1, hs.2.imp_right (hdisk x)⟩

/-- A change of one page's frame keeps the pins of the others. -/
theorem pinsKept_setMapped (h : b.PoolInv) (hp : b.pageTable.lookup p = some f) (page : Page)
    (r : LRUReplacer) (disk : δ) :
    PinsKept b ({ b with disk := disk, replacer := r }.setPage f page) (· = p) := by
  intro q g hq hg
  have hgf : g ≠ f := by
    rintro rfl
    exact hq (h.injective hg hp)
  refine ⟨fun _ => hg, fun _ => ⟨?_, ?_⟩⟩ <;> simp [setPage, hgf]

/-- A frame taken from another page: the old page is on the disk, the others are as before. -/
theorem safe_install (L : D.Lawful) (h : b.PoolOk D) (ht : Taken b f b₁)
    (hsafe : b.SafeReuse f) (hp : ∀ g, b.pageTable.lookup p = some g → g = f) {data : PageData}
    {q : PageId} {x : PageData} (hq : q ≠ p) (hs : Safe D b q x) :
    Safe D (b₁.install f p data (b.writeBack D f)) q x := by
  have hacc := h.accepted ht.lt
  have hlook := ht.lookup_install h.inv hsafe hp data (b.writeBack D f) q
  rw [if_neg hq] at hlook
  by_cases hqf : b.pageTable.lookup q = some f
  · -- `q` is evicted
    rw [if_pos hqf] at hlook
    rw [safe_of_uncached hlook]
    exact writeBack_self L hacc hqf (h.inv.mapped q f hqf).2 hs
  · rw [if_neg hqf] at hlook
    have hid : (b.pages f).isDirty = true → q ≠ (b.pages f).id := by
      rintro hd rfl
      rcases ht.origin with hfree | hmap
      · rw [(h.inv.free_idle f hfree).2] at hd
        cases hd
      · exact hqf hmap
    cases hg : b.pageTable.lookup q with
    | none =>
      rw [hg] at hlook
      rw [safe_of_uncached hlook]
      exact writeBack_other L hacc hid ((safe_of_uncached hg).mp hs)
    | some g =>
      rw [hg] at hlook hqf
      have hgf : g ≠ f := fun heq => hqf (congrArg some heq)
      rw [safe_of_lookup hg] at hs
      rw [safe_of_lookup hlook]
      rw [ht.install_other data _ hgf]
      exact ⟨hs.1, hs.2.imp_right (writeBack_other L hacc hid)⟩

/-- A page that is put into a frame leaves the free frames alone. -/
theorem freeKept_install (ht : Taken b f b₁) (data : PageData) (disk : δ) :
    FreeKept b (b₁.install f p data disk) := by
  intro g hg
  obtain ⟨hg', hne⟩ := (ht.mem_free g).mp hg
  exact ⟨hg', by rw [ht.install_other data disk hne]⟩

/-- It leaves the pins of the others. -/
theorem pinsKept_install (h : b.PoolInv) (ht : Taken b f b₁) (hsafe : b.SafeReuse f)
    (hp : ∀ g, b.pageTable.lookup p = some g → g = f) (data : PageData) (disk : δ) :
    PinsKept b (b₁.install f p data disk) (· = p) := by
  intro q g hq hg
  have hlook := ht.lookup_install h hsafe hp data disk q
  rw [if_neg hq, hg] at hlook
  by_cases hgf : g = f
  · -- the frame taken was not pinned, and `q` is evicted from it
    subst hgf
    rw [if_pos rfl] at hlook
    refine ⟨fun hpin => ?_, fun hq' => ?_⟩
    · rw [ht.pin] at hpin
      omega
    · rw [hlook] at hq'
      cases hq'
  · rw [if_neg (fun heq => hgf (Option.some.inj heq))] at hlook
    rw [ht.install_other data disk hgf]
    exact ⟨fun _ => hlook, fun _ => ⟨rfl, rfl⟩⟩

/-- A frame given back: its page is on the disk, the others are as before. -/
theorem safe_release (L : D.Lawful) (h : b.PoolOk D) (hp : b.pageTable.lookup p = some f)
    {q : PageId} {x : PageData} (hs : Safe D b q x) :
    Safe D (b.release f (b.writeBack D f)) q x := by
  obtain ⟨hlt, hid⟩ := h.inv.mapped p f hp
  have hacc := h.accepted hlt
  have hlook := h.inv.lookup_release hp (b.writeBack D f) q
  by_cases hq : q = p
  · subst hq
    rw [if_pos rfl] at hlook
    rw [safe_of_uncached hlook]
    exact writeBack_self L hacc hp hid hs
  · rw [if_neg hq] at hlook
    have hdisk : ∀ y, D.Holds b.disk q y → D.Holds (b.writeBack D f) q y := by
      intro y
      exact writeBack_other L hacc (fun _ => by rw [hid]; exact hq)
    cases hg : b.pageTable.lookup q with
    | none =>
      rw [hg] at hlook
      rw [safe_of_uncached hlook]
      exact hdisk x ((safe_of_uncached hg).mp hs)
    | some g =>
      rw [hg] at hlook
      have hgf : g ≠ f := by
        rintro rfl
        exact hq (h.inv.injective hg hp)
      rw [safe_of_lookup hg] at hs
      rw [safe_of_lookup hlook]
      rw [release_other b _ hgf]
      exact ⟨hs.1, hs.2.imp_right (hdisk x)⟩

end Change

/-! ### The operations -/

section Ops

variable {b : BufferPoolManager δ}

/-- What holds between the states before and after an operation on the pages `T`: the invariant, the
    bytes of every page (but those named in `lost`), and the pinned pages outside `T`. -/
structure Kept (D : DiskOps δ) (b b' : BufferPoolManager δ)
    (T lost : PageId → Prop) : Prop where
  ok : b'.PoolOk D
  safe : ∀ q x, ¬ lost q → Safe D b q x → Safe D b' q x
  pins : PinsKept b b' T
  /-- Only pages in `T` may be cached anew. -/
  table : ∀ q f, ¬ T q → b'.pageTable.lookup q = some f → b.pageTable.lookup q = some f
  size : b'.poolSize = b.poolSize

/-- Nothing happens. -/
theorem Kept.refl (h : b.PoolOk D) (T lost : PageId → Prop) : Kept D b b T lost where
  ok := h
  safe _ _ _ hs := hs
  pins _ _ _ hq := ⟨fun _ => hq, fun _ => ⟨rfl, rfl⟩⟩
  table _ _ _ hq := hq
  size := rfl

/-- A pin more, a pin less, or other flags. -/
theorem Kept.setMapped (h : b.PoolOk D) {p : PageId} {f : FrameId}
    (hp : b.pageTable.lookup p = some f) (page : Page) (r : LRUReplacer)
    (hinv : ({ b with replacer := r }.setPage f page).PoolInv) (hdata : page.data = (b.pages f).data)
    (hdirty : (b.pages f).isDirty = true → page.isDirty = true) (lost : PageId → Prop) :
    Kept D b ({ b with replacer := r }.setPage f page) (· = p) lost where
  ok := ⟨hinv, h.disk⟩
  safe q x _ hs := by
    by_cases hq : q = p
    · subst hq
      have hlook : ({ b with replacer := r }.setPage f page).pageTable.lookup q = some f := hp
      have hpg : ({ b with replacer := r }.setPage f page).pages f = page := by simp [setPage]
      rw [safe_of_lookup hp] at hs
      rw [safe_of_lookup hlook, hpg, hdata]
      exact ⟨hs.1, hs.2.imp_left hdirty⟩
    · exact safe_setMapped h.inv hp hq (fun _ hy => hy) hs
  pins := pinsKept_setMapped h.inv hp page r b.disk
  table _ _ _ hq := hq
  size := rfl

/-- **`unpin_page`.** It succeeds on a pinned page. -/
theorem unpinPage_spec (h : b.PoolOk D) (p : PageId) (d : Bool) :
    Kept D b (b.unpinPage p d).2 (· = p) (fun _ => False) ∧
    ∀ f, b.pageTable.lookup p = some f → 0 < (b.pages f).pinCount →
      (b.unpinPage p d).1 = true ∧ (b.unpinPage p d).2.pageTable.lookup p = some f ∧
        ((b.unpinPage p d).2.pages f).data = (b.pages f).data ∧
        ((b.unpinPage p d).2.pages f).pinCount = (b.pages f).pinCount - 1 ∧
        ((b.unpinPage p d).2.pages f).isDirty = ((b.pages f).isDirty || d) := by
  have hinv := h.inv.unpinPage p d
  unfold BufferPoolManager.unpinPage at hinv ⊢
  cases hp : b.pageTable.lookup p with
  | none =>
    refine ⟨Kept.refl h _ _, fun f hf => ?_⟩
    cases hf
  | some f =>
    rw [hp] at hinv
    dsimp only at hinv ⊢
    by_cases h0 : (b.pages f).pinCount = 0
    · rw [if_pos h0]
      refine ⟨Kept.refl h _ _, fun g hg hpin => ?_⟩
      rw [← Option.some.inj hg, h0] at hpin
      omega
    · rw [if_neg h0] at hinv ⊢
      refine ⟨Kept.setMapped h hp _ _ hinv rfl (fun hd => by simp [hd]) _, fun g hg _ => ?_⟩
      rw [← Option.some.inj hg]
      simp [setPage, hp]

/-- The operations that take no frame leave the free list and the ids alone. -/
theorem unpinPage_free (p : PageId) (d : Bool) : FreeKept b (b.unpinPage p d).2 := by
  unfold BufferPoolManager.unpinPage
  cases b.pageTable.lookup p with
  | none => exact fun g hg => ⟨hg, rfl⟩
  | some f =>
    dsimp only
    split
    · exact fun g hg => ⟨hg, rfl⟩
    · refine fun g hg => ⟨hg, ?_⟩
      by_cases hgf : g = f <;> simp [setPage, hgf]

/-- `flush_page` frees no frame. -/
theorem flushPage_free (p : PageId) : FreeKept b (b.flushPage D p).2 := by
  unfold flushPage
  cases b.pageTable.lookup p with
  | none => exact fun g hg => ⟨hg, rfl⟩
  | some f =>
    dsimp only
    split
    · exact fun g hg => ⟨hg, rfl⟩
    · refine fun g hg => ⟨hg, ?_⟩
      by_cases hgf : g = f <;> simp [setPage, hgf]

/-- Nor does flushing several pages. -/
theorem flushEntries_free (skip : PageId → Page → Bool) (es : List (Σ _ : PageId, FrameId)) :
    FreeKept b (flushEntries D skip b es).2 := by
  induction es generalizing b with
  | nil => exact fun g hg => ⟨hg, rfl⟩
  | cons e es ih =>
    obtain ⟨p, f⟩ := e
    unfold flushEntries
    split
    · exact ih
    · dsimp only
      split
      · exact fun g hg => ⟨hg, rfl⟩
      · intro g hg
        obtain ⟨h1, h2⟩ := ih g hg
        refine ⟨h1, h2.trans ?_⟩
        by_cases hgf : g = f <;> simp [setPage, hgf]

/-- **`fetch_page`** of a page whose bytes are `x`: where a frame can be had, it returns the page
    with these bytes and one more pin. -/
theorem fetchPage_spec (L : D.Lawful) (h : b.PoolOk D) {p : PageId} (hok : D.Addressable b.disk p)
    (hsafe : b.pageTable.lookup p = none → ∀ f, b.findVictimPage.1 = some f → b.SafeReuse f)
    (hread : b.pageTable.lookup p = none → ∃ x, D.Holds b.disk p x) :
    Kept D b (b.fetchPage D p).2 (· = p) (fun _ => False) ∧ FreeKept b (b.fetchPage D p).2 ∧
    (((b.fetchPage D p).1 = .ok none ∧ (b.fetchPage D p).2 = b ∧ b.findVictimPage.1 = none) ∨
      ∃ f, (b.fetchPage D p).1 = .ok (some f) ∧
        (b.fetchPage D p).2.pageTable.lookup p = some f ∧
        (∀ x, Safe D b p x → ((b.fetchPage D p).2.pages f).data = x) ∧
        ((b.pageTable.lookup p = some f ∧
            ((b.fetchPage D p).2.pages f).data = (b.pages f).data ∧
            ((b.fetchPage D p).2.pages f).pinCount = (b.pages f).pinCount + 1) ∨
          (b.pageTable.lookup p = none ∧ ((b.fetchPage D p).2.pages f).pinCount = 1))) := by
  cases hp : b.pageTable.lookup p with
  | some f =>
    rw [fetchPage_hit hp]
    refine ⟨Kept.setMapped h hp _ _ (h.inv.pinFrame hp) rfl id _, fun g hg => ⟨hg, ?_⟩,
      Or.inr ⟨f, rfl, hp, fun x hs => ?_,
        Or.inl ⟨rfl, by simp [pinFrame, setPage], by simp [pinFrame, setPage]⟩⟩⟩
    · by_cases hgf : g = f <;> simp [pinFrame, setPage, hgf]
    · rw [safe_of_lookup hp] at hs
      simpa [pinFrame, setPage] using hs.1
  | none =>
    rcases hv : b.findVictimPage with ⟨_ | f, b₁⟩
    · have hb₁ := findVictimPage_none hv
      rw [fetchPage_full hp hv, hb₁]
      exact ⟨Kept.refl h _ _, fun g hg => ⟨hg, rfl⟩, Or.inl ⟨rfl, rfl, rfl⟩⟩
    · have ht := h.inv.taken hv
      have hfsafe := hsafe hp f (by rw [hv])
      have hpf : ∀ g, b.pageTable.lookup p = some g → g = f := by
        intro g hg
        rw [hp] at hg
        cases hg
      have hacc := h.accepted ht.lt
      -- taking the frame changes neither frames nor disk
      have hwb : b₁.writeBack D f = b.writeBack D f := by rw [ht.eq]; rfl
      have hwok : b₁.WriteBackOk D f := by
        rw [ht.eq]
        exact hacc.writeBackOk L
      have hid : (b.pages f).isDirty = true → p ≠ (b.pages f).id := by
        rintro hd rfl
        rcases ht.origin with hfree | hmap
        · rw [(h.inv.free_idle f hfree).2] at hd
          cases hd
        · rw [hp] at hmap
          cases hmap
      obtain ⟨x, hx⟩ := hread hp
      have hx' := writeBack_other L hacc hid hx
      rw [fetchPage_miss hp hv hwok (by rw [hwb]; exact hx'), hwb]
      have hself := ht.install_self (p := p) x (b.writeBack D f)
      have hlook := ht.lookup_install_self h.inv hfsafe hpf x (b.writeBack D f)
      refine ⟨⟨⟨h.inv.install ht hfsafe hpf _ _, fun q g hq => ?_⟩, fun q y _ hs => ?_,
        pinsKept_install h.inv ht hfsafe hpf _ _, fun q g hqp hq => ?_, ?_⟩,
        freeKept_install ht _ _, Or.inr ⟨f, rfl, hlook, fun y hy => ?_, Or.inr ⟨rfl, by rw [hself]⟩⟩⟩
      · apply writeBack_keeps L hacc
        by_cases hqp : q = p
        · rw [hqp]
          exact hok
        · exact h.disk q g (ht.lookup_of_install h.inv hfsafe hpf hqp hq)
      · by_cases hqp : q = p
        · subst hqp
          rw [safe_of_uncached hp] at hs
          have hyx : y = x := by
            have h₁ := hs.2 PageData.zero
            have h₂ := hx.2 PageData.zero
            rw [h₁] at h₂
            exact (Prod.mk.inj h₂).2
          rw [safe_of_lookup hlook, hself, hyx]
          exact ⟨rfl, Or.inr hx'⟩
        · exact safe_install L h ht hfsafe hpf hqp hs
      · exact ht.lookup_of_install h.inv hfsafe hpf hqp hq
      · show b₁.poolSize = b.poolSize
        rw [ht.eq]
      · rw [safe_of_uncached hp] at hy
        have h₁ := hy.2 PageData.zero
        rw [hx.2 PageData.zero] at h₁
        rw [hself]
        exact (Prod.mk.inj h₁).2

/-- What `new_page` computes when there is a frame: the counter of the disk moves, the frame is
    written back, and the new page is installed in it. -/
theorem newPage_install (L : D.Lawful) (h : b.PoolOk D) (fd : Int) {f : FrameId}
    {b₁ : BufferPoolManager δ} (hv : b.findVictimPage = (some f, b₁)) :
    b.newPage D fd = (.ok (some (f, ⟨fd, (D.allocatePage b.disk fd).1⟩)),
      b₁.install f ⟨fd, (D.allocatePage b.disk fd).1⟩ .zero
        ({ b with disk := (D.allocatePage b.disk fd).2 }.writeBack D f)) := by
  have ht := h.inv.taken hv
  have hacc : { b with disk := (D.allocatePage b.disk fd).2 }.Accepted D f :=
    fun hd => L.allocate_keeps _ _ _ (h.accepted ht.lt hd)
  have hdisk : b₁.disk = b.disk := by rw [ht.eq]
  have hwok : { b₁ with disk := (D.allocatePage b₁.disk fd).2 }.WriteBackOk D f := by
    rw [ht.eq]
    exact hacc.writeBackOk L
  have hwb : { b₁ with disk := (D.allocatePage b₁.disk fd).2 }.writeBack D f =
      { b with disk := (D.allocatePage b.disk fd).2 }.writeBack D f := by
    rw [ht.eq]
    rfl
  rw [newPage_eq hv hwok, hwb, hdisk]

/-- **`new_page`.** -/
theorem newPage_spec (L : D.Lawful) (h : b.PoolOk D) (fd : Int) {p : PageId}
    (hpid : p = ⟨fd, (D.allocatePage b.disk fd).1⟩) (hok : D.Addressable (D.allocatePage b.disk fd).2 p)
    (hsafe : ∀ f, b.findVictimPage.1 = some f →
      b.SafeReuse f ∧ ∀ g, b.pageTable.lookup p = some g → g = f) :
    Kept D b (b.newPage D fd).2 (· = p) (· = p) ∧ FreeKept b (b.newPage D fd).2 ∧
    (((b.newPage D fd).1 = .ok none ∧ (b.newPage D fd).2 = b ∧ b.findVictimPage.1 = none) ∨
      ∃ f, (b.newPage D fd).1 = .ok (some (f, p)) ∧
        (b.newPage D fd).2.pageTable.lookup p = some f ∧
        (b.newPage D fd).2.pages f =
          { id := p, data := .zero, isDirty := false, pinCount := 1 }) := by
  rcases hv : b.findVictimPage with ⟨_ | f, b₁⟩
  · have hb₁ := findVictimPage_none hv
    rw [newPage_full hv, hb₁]
    exact ⟨Kept.refl h _ _, fun g hg => ⟨hg, rfl⟩, Or.inl ⟨rfl, rfl, rfl⟩⟩
  · obtain ⟨hfsafe, hpf⟩ := hsafe f (by rw [hv])
    have ht := h.inv.taken hv
    -- the counter of the disk moves first
    let b₀ : BufferPoolManager δ := { b with disk := (D.allocatePage b.disk fd).2 }
    have h₀ : b₀.PoolOk D := by
      refine ⟨⟨h.inv.mapped, h.inv.free_nodup, h.inv.free_lt, h.inv.free_iff, h.inv.free_idle,
        h.inv.pins, h.inv.replacer, h.inv.evictable, h.inv.idle_evictable⟩, fun q g hq => ?_⟩
      exact L.allocate_keeps _ _ _ (h.disk q g hq)
    have hs₀ : ∀ q x, Safe D b q x → Safe D b₀ q x :=
      fun q x hs => hs.set_disk (L.allocate_holds _ _ _ _)
    have hacc : b₀.Accepted D f := h₀.accepted ht.lt
    rw [newPage_install L h fd hv, ← hpid]
    have hlook := ht.lookup_install_self h.inv hfsafe hpf .zero (b₀.writeBack D f)
    -- `b₁` with the new disk has been taken from `b₀`
    have ht₀ : Taken b₀ f { b₁ with disk := b₀.disk } := by
      refine ⟨?_, ht.lt, ht.pin, ht.origin, ht.free_nodup, ht.mem_free, ht.replacer,
        ht.mem_frames⟩
      rw [ht.eq]
    refine ⟨⟨⟨h.inv.install ht hfsafe hpf _ _, fun q g hq => ?_⟩, fun q y hqp hs => ?_,
      pinsKept_install h.inv ht hfsafe hpf _ _, fun q g hqp hq => ?_, ?_⟩,
      freeKept_install ht _ _, Or.inr ⟨f, rfl, hlook, ht.install_self _ _⟩⟩
    · apply writeBack_keeps L hacc
      by_cases hqp : q = p
      · rw [hqp]
        exact hok
      · exact h₀.disk q g (ht.lookup_of_install h.inv hfsafe hpf hqp hq)
    · exact safe_install L h₀ ht₀ hfsafe hpf hqp (hs₀ q y hs)
    · exact ht.lookup_of_install h.inv hfsafe hpf hqp hq
    · show b₁.poolSize = b.poolSize
      rw [ht.eq]

/-- One call after another. -/
theorem Kept.trans {b₁ b₂ : BufferPoolManager δ} {T lost : PageId → Prop}
    (h₁ : Kept D b b₁ T lost) (h₂ : Kept D b₁ b₂ T lost) : Kept D b b₂ T lost where
  ok := h₂.ok
  safe q x hl hs := h₂.safe q x hl (h₁.safe q x hl hs)
  pins q f hq hf := by
    obtain ⟨h1, h2⟩ := h₁.pins q f hq hf
    refine ⟨fun hpin => ?_, fun hlook => ?_⟩
    · have hf₁ := h1 hpin
      exact (h₂.pins q f hq hf₁).1 (by rw [(h2 hf₁).2]; exact hpin)
    · have hf₁ := h₂.table q f hq hlook
      obtain ⟨k1, k2⟩ := (h₂.pins q f hq hf₁).2 hlook
      exact ⟨k1.trans (h2 hf₁).1, k2.trans (h2 hf₁).2⟩
  table q f hq hf := h₁.table q f hq (h₂.table q f hq hf)
  size := h₂.size.trans h₁.size

/-- Writing one frame back and marking it clean. -/
theorem kept_flush (L : D.Lawful) (h : b.PoolOk D) {p : PageId} {f : FrameId}
    (hp : b.pageTable.lookup p = some f) (T : PageId → Prop) :
    Kept D b ({ b with disk := (D.writePage b.disk p (b.pages f).data).2 }.setPage f
      { b.pages f with isDirty := false }) T (fun _ => False) where
  ok := ⟨h.inv.setData hp _ _ _, fun q' g hq' => L.write_keeps _ _ _ _ (h.disk p f hp)
    (h.disk q' g hq')⟩
  safe q' x _ hs := by
    have hok := h.disk p f hp
    by_cases hq' : q' = p
    · subst hq'
      have hlook : ({ b with disk := (D.writePage b.disk q' (b.pages f).data).2 }.setPage f
          { b.pages f with isDirty := false }).pageTable.lookup q' = some f := hp
      rw [safe_of_lookup hp] at hs
      rw [safe_of_lookup hlook]
      refine ⟨by simpa [setPage] using hs.1, Or.inr ?_⟩
      rw [← hs.1]
      exact L.write_holds _ _ _ hok
    · exact safe_setMapped h.inv hp hq' (fun y hy => L.write_frame _ _ _ _ _ hok hq' hy) hs
  pins q' g _ hg := by
    refine ⟨fun _ => hg, fun _ => ⟨?_, ?_⟩⟩ <;> by_cases hgf : g = f <;> simp [setPage, hgf]
  table _ _ _ hq' := hq'
  size := rfl

/-- **`flush_page`.** -/
theorem flushPage_spec (L : D.Lawful) (h : b.PoolOk D) (p : PageId) :
    Kept D b (b.flushPage D p).2 (fun _ => False) (fun _ => False) ∧
    ∀ f, b.pageTable.lookup p = some f → (b.flushPage D p).1 = .ok true ∧
      (b.flushPage D p).2.pageTable.lookup p = some f ∧
      (b.flushPage D p).2.pages f = { b.pages f with isDirty := false } ∧
      D.Holds (b.flushPage D p).2.disk p (b.pages f).data := by
  cases hp : b.pageTable.lookup p with
  | none =>
    unfold flushPage
    rw [hp]
    exact ⟨Kept.refl h _ _, fun f hf => by cases hf⟩
  | some f =>
    have hok := h.disk p f hp
    rw [flushPage_eq hp (L.write_ok _ _ _ hok)]
    refine ⟨kept_flush L h hp _, fun g hg => ?_⟩
    rw [← Option.some.inj hg]
    exact ⟨rfl, hp, by simp [setPage], L.write_holds _ _ _ hok⟩

/-- The loop of the two flush functions.  Frames only lose their dirty flag, and the dirty ones the
    loop selects all do. -/
theorem flushEntries_spec (L : D.Lawful) (h : b.PoolOk D) (skip : PageId → Page → Bool)
    (sel : PageId → Prop)
    (hsel : ∀ p page, sel p → page.isDirty = true → skip p page = false)
    (es : List (Σ _ : PageId, FrameId)) (hes : ∀ e ∈ es, b.pageTable.lookup e.1 = some e.2) :
    (flushEntries D skip b es).1 = .ok () ∧
    Kept D b (flushEntries D skip b es).2 (fun _ => False) (fun _ => False) ∧
    (flushEntries D skip b es).2.pageTable = b.pageTable ∧
    (∀ g, (((flushEntries D skip b es).2.pages g).data = (b.pages g).data ∧
        ((flushEntries D skip b es).2.pages g).pinCount = (b.pages g).pinCount) ∧
      (((flushEntries D skip b es).2.pages g).isDirty = true → (b.pages g).isDirty = true)) ∧
    ∀ e ∈ es, sel e.1 → ((flushEntries D skip b es).2.pages e.2).isDirty = false := by
  induction es generalizing b with
  | nil => exact ⟨rfl, Kept.refl h _ _, rfl, fun g => ⟨⟨rfl, rfl⟩, id⟩, by simp⟩
  | cons e es ih =>
    obtain ⟨p, f⟩ := e
    have hp : b.pageTable.lookup p = some f := hes ⟨p, f⟩ List.mem_cons_self
    have hes' : ∀ e ∈ es, b.pageTable.lookup e.1 = some e.2 :=
      fun e he => hes e (List.mem_cons_of_mem _ he)
    unfold flushEntries
    by_cases hskip : skip p (b.pages f) = true
    · rw [if_pos hskip]
      obtain ⟨h1, h2, h3, h4, h5⟩ := ih h hes'
      refine ⟨h1, h2, h3, h4, fun e he hs => ?_⟩
      rcases List.mem_cons.mp he with rfl | he
      · -- a selected entry is skipped only when it is clean
        by_contra hd
        have hdirty := (h4 f).2 (by simpa using hd)
        rw [hsel p _ hs hdirty] at hskip
        cases hskip
      · exact h5 e he hs
    · rw [if_neg hskip]
      have hok := h.disk p f hp
      have hk := kept_flush L h hp (fun _ => False)
      simp only [L.write_ok _ _ _ hok]
      obtain ⟨h1, h2, h3, h4, h5⟩ := ih hk.ok hes'
      refine ⟨h1, hk.trans h2, h3, fun g => ?_, fun e he hs => ?_⟩
      · obtain ⟨hg1, hg2⟩ := h4 g
        by_cases hgf : g = f
        · subst hgf
          refine ⟨⟨?_, ?_⟩, fun hd => ?_⟩
          · rw [hg1.1]
            simp [setPage]
          · rw [hg1.2]
            simp [setPage]
          · have := hg2 hd
            simp [setPage] at this
        · have hpg : ({ b with disk := (D.writePage b.disk p (b.pages f).data).2 }.setPage f
              { b.pages f with isDirty := false }).pages g = b.pages g := by
            simp [setPage, hgf]
          rw [hpg] at hg1 hg2
          exact ⟨hg1, hg2⟩
      · rcases List.mem_cons.mp he with rfl | he
        · by_contra hd
          have := (h4 f).2 (by simpa using hd)
          simp [setPage] at this
        · exact h5 e he hs

/-- The entries of a page table are what `lookup` finds. -/
theorem lookup_of_mem_entries {t : AList (fun _ : PageId => FrameId)} :
    ∀ e ∈ t.entries, t.lookup e.1 = some e.2 :=
  fun _ he => AList.mem_lookup_iff.mpr he

/-- **`flush_all_page`** leaves no dirty frame in the table. -/
theorem flushAllPage_spec (L : D.Lawful) (h : b.PoolOk D) :
    (b.flushAllPage D).1 = .ok () ∧
    Kept D b (b.flushAllPage D).2 (fun _ => False) (fun _ => False) ∧
    (b.flushAllPage D).2.pageTable = b.pageTable ∧
    (∀ g, ((b.flushAllPage D).2.pages g).data = (b.pages g).data ∧
      ((b.flushAllPage D).2.pages g).pinCount = (b.pages g).pinCount) ∧
    ∀ p f, b.pageTable.lookup p = some f → ((b.flushAllPage D).2.pages f).isDirty = false := by
  obtain ⟨h1, h2, h3, h4, h5⟩ := flushEntries_spec L h (fun _ page => !page.isDirty)
    (fun _ => True) (fun p page _ hd => by simp [hd]) _ lookup_of_mem_entries
  exact ⟨h1, h2, h3, fun g => (h4 g).1,
    fun p f hp => h5 ⟨p, f⟩ (AList.mem_lookup_iff.mp hp) trivial⟩

/-- **`flush_all_pages`** leaves no dirty frame of the file in the table. -/
theorem flushAllPages_spec (L : D.Lawful) (h : b.PoolOk D) (fd : Int) :
    (b.flushAllPages D fd).1 = .ok () ∧
    Kept D b (b.flushAllPages D fd).2 (fun _ => False) (fun _ => False) ∧
    (b.flushAllPages D fd).2.pageTable = b.pageTable ∧
    (∀ g, ((b.flushAllPages D fd).2.pages g).data = (b.pages g).data ∧
      ((b.flushAllPages D fd).2.pages g).pinCount = (b.pages g).pinCount) ∧
    ∀ p f, p.fd = fd → b.pageTable.lookup p = some f →
      ((b.flushAllPages D fd).2.pages f).isDirty = false := by
  obtain ⟨h1, h2, h3, h4, h5⟩ := flushEntries_spec L h (fun p _ => decide (p.fd ≠ fd))
    (fun p => p.fd = fd) (fun p page hs _ => by simp [hs]) _ lookup_of_mem_entries
  exact ⟨h1, h2, h3, fun g => (h4 g).1,
    fun p f hfd hp => h5 ⟨p, f⟩ (AList.mem_lookup_iff.mp hp) hfd⟩

/-- An unpinned page goes back to the disk, its frame to the free list. -/
theorem kept_release (L : D.Lawful) (h : b.PoolOk D) {p : PageId} {f : FrameId}
    (hp : b.pageTable.lookup p = some f) (hpin : (b.pages f).pinCount = 0) :
    Kept D b (b.release f (b.writeBack D f)) (fun _ => False) (fun _ => False) := by
  have hlt := (h.inv.mapped p f hp).1
  have htable : ∀ q' g, (b.release f (b.writeBack D f)).pageTable.lookup q' = some g →
      b.pageTable.lookup q' = some g := by
    intro q' g hq'
    exact ((h.inv.release_eq_some hp _).mp hq').2
  refine ⟨⟨h.inv.release hp hpin _, fun q' g hq' => ?_⟩, fun q' x _ hs => safe_release L h hp hs,
    fun q' g _ hg => ⟨fun hpg => ?_, fun _ => ⟨?_, ?_⟩⟩, fun q' g _ => htable q' g, rfl⟩
  · exact writeBack_keeps L (h.accepted hlt) (h.disk q' g (htable q' g hq'))
  · have hgf : g ≠ f := by
      rintro rfl
      omega
    exact (h.inv.release_eq_some hp _).mpr ⟨hgf, hg⟩
  · by_cases hgf : g = f <;> simp [release, setPage, hgf]
  · exact release_pinCount b f _ g

/-- **`delete_page`.** -/
theorem deletePage_spec (L : D.Lawful) (h : b.PoolOk D) (p : PageId) :
    Kept D b (b.deletePage D p).2 (fun _ => False) (fun _ => False) ∧
      ∃ r, (b.deletePage D p).1 = .ok r := by
  cases hp : b.pageTable.lookup p with
  | none =>
    unfold deletePage
    rw [hp]
    exact ⟨Kept.refl h _ _, true, rfl⟩
  | some f =>
    by_cases hpin : (b.pages f).pinCount = 0
    · rw [deletePage_eq hp hpin ((h.accepted (h.inv.mapped p f hp).1).writeBackOk L)]
      exact ⟨kept_release L h hp hpin, true, rfl⟩
    · unfold deletePage
      rw [hp]
      dsimp only
      rw [if_pos hpin]
      exact ⟨Kept.refl h _ _, false, rfl⟩

/-- The second loop of `delete_all_page`. -/
theorem deleteFrames_spec (L : D.Lawful) (h : b.PoolOk D) (fs : List FrameId)
    (hnd : fs.Nodup) (hfs : ∀ f ∈ fs, (∃ p, b.pageTable.lookup p = some f) ∧
      (b.pages f).pinCount = 0) :
    (b.deleteFrames D fs).1 = .ok () ∧
      Kept D b (b.deleteFrames D fs).2 (fun _ => False) (fun _ => False) := by
  induction fs generalizing b with
  | nil => exact ⟨rfl, Kept.refl h _ _⟩
  | cons f fs ih =>
    obtain ⟨⟨p, hp⟩, hpin⟩ := hfs f List.mem_cons_self
    obtain ⟨hlt, hid⟩ := h.inv.mapped p f hp
    rw [List.nodup_cons] at hnd
    have hk := kept_release L h hp hpin
    unfold deleteFrames
    rw [updatePage_none ((h.accepted hlt).writeBackOk L)]
    obtain ⟨h1, h2⟩ := ih (b := b.release f (b.writeBack D f)) hk.ok hnd.2 (by
      intro g hg
      obtain ⟨⟨q, hq⟩, hpg⟩ := hfs g (List.mem_cons_of_mem _ hg)
      have hgf : g ≠ f := by
        rintro rfl
        exact hnd.1 hg
      have hqp : q ≠ p := by
        rintro rfl
        rw [hp] at hq
        exact hgf (Option.some.inj hq).symm
      refine ⟨⟨q, ?_⟩, ?_⟩
      · show (b.pageTable.erase (b.pages f).id).lookup q = some g
        rw [hid, AList.lookup_erase_ne hqp]
        exact hq
      · simpa [release, setPage, hgf] using hpg)
    exact ⟨h1, hk.trans h2⟩

/-- **`delete_all_page`.** -/
theorem deleteAllPage_spec (L : D.Lawful) (h : b.PoolOk D) (fd : Int) :
    Kept D b (b.deleteAllPage D fd).2 (fun _ => False) (fun _ => False) ∧
      ∃ r, (b.deleteAllPage D fd).1 = .ok r := by
  rcases b.deleteAllPage_cases D fd with ⟨-, heq⟩ | ⟨hpins, heq⟩
  · rw [heq]
    exact ⟨Kept.refl h _ _, false, rfl⟩
  · have hnd := targets_nodup (fun p f hp => (h.inv.mapped p f hp).2) fd
    have hspec := deleteFrames_spec L h _ hnd ?_
    · obtain ⟨hok, hkept⟩ := hspec
      rw [heq, hok]
      exact ⟨hkept, true, rfl⟩
    · intro f hf
      obtain ⟨p, -, hp⟩ := mem_targets.mp hf
      exact ⟨⟨p, hp⟩, hpins f hf⟩

end Ops

end BufferPoolManager

end Rmdb
