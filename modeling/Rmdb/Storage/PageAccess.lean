import Rmdb.Storage.PoolSpec

namespace Rmdb

/-!
# One file through the pool, one page at a time

A client that works on the pages `1 .. n-1` of one file and never holds more than one pin.  The pool
is then in one of two states:

* `Idle` — nothing is pinned, and page `m` has the bytes `V m`;
* `Held` — page `m` is pinned in the frame `f` and has the bytes `x`, the others are as before.

The operations move between the two (`Idle.fetch`, `Idle.new`, `Held.write`, `Held.flush`,
`Held.unpin`).  `fetchPage_disk` and its companions carry a property of the disk through them.
-/

namespace BufferPoolManager

variable {δ : Type} {D : DiskOps δ}

/-! ### Properties of the disk -/

/-- The property survives the write of a page in `S`. -/
def KeptByWrites (D : DiskOps δ) (S : PageId → Prop) (P : δ → Prop) : Prop :=
  ∀ d p x, S p → P d → P (D.writePage d p x).2

section Disk

variable {S : PageId → Prop} {P : δ → Prop} {b b₁ : BufferPoolManager δ} {f : FrameId}

/-- A dirty page is written back. -/
theorem KeptByWrites.writeBack (hP : KeptByWrites D S P)
    (hS : (b.pages f).isDirty = true → S (b.pages f).id) (hb : P b.disk) :
    P (b.writeBack D f) := by
  unfold BufferPoolManager.writeBack
  by_cases hd : (b.pages f).isDirty = true
  · rw [if_pos hd]
    exact hP _ _ _ (hS hd) hb
  · rw [if_neg hd]
    exact hb

/-- The pages a pool can write back are the cached ones. -/
theorem PoolInv.mem_of_dirty (h : b.PoolInv) (hS : ∀ p g, b.pageTable.lookup p = some g → S p)
    (hf : f < b.poolSize) (hd : (b.pages f).isDirty = true) : S (b.pages f).id := by
  have hfree : f ∉ b.freeList := by
    intro hfree
    rw [(h.free_idle f hfree).2] at hd
    cases hd
  exact hS _ f (h.lookup_id hf hfree)

/-- What `update_page` does to the disk. -/
theorem updatePage_disk (hP : KeptByWrites D S P)
    (hS : (b.pages f).isDirty = true → S (b.pages f).id) (hb : P b.disk) (p : PageId)
    (g : Option FrameId) : P (b.updatePage D f p g).2.disk := by
  have hw := hP.writeBack hS hb
  have hdisk : (if (b.pages f).isDirty then D.writePage b.disk (b.pages f).id (b.pages f).data
      else (.ok (), b.disk)).2 = b.writeBack D f := by
    unfold writeBack
    split <;> rfl
  rw [← hdisk] at hw
  unfold updatePage
  dsimp only
  split
  · exact hw
  · cases g <;> exact hw

/-- What `fetch_page` does to it. -/
theorem fetchPage_disk (hP : KeptByWrites D S P) (h : b.PoolInv)
    (hS : ∀ p g, b.pageTable.lookup p = some g → S p) (hb : P b.disk) (p : PageId) :
    P (b.fetchPage D p).2.disk := by
  unfold fetchPage
  split
  · exact hb
  · rcases hv : b.findVictimPage with ⟨_ | f, b₁⟩
    · rw [findVictimPage_none hv]
      exact hb
    · have ht := h.taken hv
      have hu := updatePage_disk (D := D) (b := b₁) (f := f) hP (fun hd => by
        rw [ht.eq] at hd ⊢
        exact h.mem_of_dirty hS ht.lt hd) (by rw [ht.eq]; exact hb) p (some f)
      dsimp only
      split
      · rename_i heq
        rw [heq] at hu
        exact hu
      · rename_i heq
        rw [heq] at hu
        split <;> exact hu

/-- What `new_page` does to it. -/
theorem newPage_disk (hP : KeptByWrites D S P) (h : b.PoolInv)
    (hS : ∀ p g, b.pageTable.lookup p = some g → S p) {fd : Int}
    (hb : P (D.allocatePage b.disk fd).2) (hfull : ∃ g b₁, b.findVictimPage = (some g, b₁)) :
    P (b.newPage D fd).2.disk := by
  obtain ⟨f, b₁, hv⟩ := hfull
  have ht := h.taken hv
  unfold newPage
  rw [hv]
  have hu := updatePage_disk (D := D) (b := { b₁ with disk := (D.allocatePage b₁.disk fd).2 })
    (f := f) hP (fun hd => by
      rw [ht.eq] at hd ⊢
      exact h.mem_of_dirty hS ht.lt hd) (by rw [ht.eq]; exact hb)
    ⟨fd, (D.allocatePage b₁.disk fd).1⟩ (some f)
  dsimp only
  split
  · rename_i heq
    rw [heq] at hu
    exact hu
  · rename_i heq
    rw [heq] at hu
    exact hu

/-- `unpin_page` does nothing to it. -/
theorem unpinPage_disk (p : PageId) (d : Bool) : (b.unpinPage p d).2.disk = b.disk := by
  unfold BufferPoolManager.unpinPage
  split
  · rfl
  · dsimp only
    split <;> rfl

/-- What `flush_page` does to it. -/
theorem flushPage_disk (hP : KeptByWrites D S P) {p : PageId} (hp : S p) (hb : P b.disk) :
    P (b.flushPage D p).2.disk := by
  unfold flushPage
  split
  · exact hb
  · dsimp only
    split <;> exact hP _ _ _ hp hb

/-- What flushing several pages does to it. -/
theorem flushEntries_disk (hP : KeptByWrites D S P) (skip : PageId → Page → Bool)
    (es : List (Σ _ : PageId, FrameId)) (hes : ∀ e ∈ es, S e.1) (hb : P b.disk) :
    P (flushEntries D skip b es).2.disk := by
  induction es generalizing b with
  | nil => exact hb
  | cons e es ih =>
    obtain ⟨p, f⟩ := e
    have hp : S p := hes ⟨p, f⟩ List.mem_cons_self
    have hes' : ∀ e ∈ es, S e.1 := fun e he => hes e (List.mem_cons_of_mem _ he)
    unfold flushEntries
    split
    · exact ih hes' hb
    · dsimp only
      split
      · exact hP _ _ _ hp hb
      · exact ih hes' (hP _ _ _ hp hb)

/-- What `flush_all_pages` does to it. -/
theorem flushAllPages_disk (hP : KeptByWrites D S P)
    (hS : ∀ p g, b.pageTable.lookup p = some g → S p) (hb : P b.disk) (fd : Int) :
    P (b.flushAllPages D fd).2.disk :=
  flushEntries_disk hP _ _ (fun e he => hS e.1 e.2 (lookup_of_mem_entries e he)) hb

end Disk

/-! ### The two states -/

/-- The part both states share: every page but `m` is unpinned and has its bytes. -/
structure FilePages (D : DiskOps δ) (b : BufferPoolManager δ) (fd n : Int) (V : Int → PageData)
    (except : Int → Prop) : Prop where
  ok : b.PoolOk D
  size : 0 < b.poolSize
  pins : ∀ m f, ¬ except m → b.pageTable.lookup ⟨fd, m⟩ = some f → (b.pages f).pinCount = 0
  /-- A free frame never had a page. -/
  free : ∀ f ∈ b.freeList, (b.pages f).id.pageNo = invalidPageId
  cached : ∀ p f, b.pageTable.lookup p = some f → p.fd = fd ∧ 1 ≤ p.pageNo ∧ p.pageNo < n
  safe : ∀ m, ¬ except m → 1 ≤ m → m < n → Safe D b ⟨fd, m⟩ (V m)

/-- Nothing is pinned. -/
def Idle (D : DiskOps δ) (b : BufferPoolManager δ) (fd n : Int) (V : Int → PageData) : Prop :=
  FilePages D b fd n V (fun _ => False)

/-- Page `m` is pinned in the frame `f` and has the bytes `x`. -/
structure Held (D : DiskOps δ) (b : BufferPoolManager δ) (fd n : Int) (V : Int → PageData) (m : Int)
    (f : FrameId) (x : PageData) : Prop where
  others : FilePages D b fd n V (· = m)
  look : b.pageTable.lookup ⟨fd, m⟩ = some f
  pin : (b.pages f).pinCount = 1
  data : (b.pages f).data = x

section Access

variable {b : BufferPoolManager δ} {fd n m : Int} {V : Int → PageData} {f : FrameId}
  {x : PageData} {except : Int → Prop}

/-- Every frame may be reused. -/
theorem FilePages.safeReuse (h : FilePages D b fd n V except) (g : FrameId) : b.SafeReuse g := by
  intro hg
  cases hl : b.pageTable.lookup (b.pages g).id with
  | none => rfl
  | some k =>
    have hc := (h.cached _ k hl).2.1
    rw [h.free g hg] at hc
    simp only [invalidPageId] at hc
    omega

/-- A frame can be had. -/
theorem Idle.exists_victim (h : Idle D b fd n V) : ∃ g b₁, b.findVictimPage = (some g, b₁) := by
  refine h.ok.inv.exists_victim h.size ?_
  by_cases hfree : 0 ∈ b.freeList
  · exact (h.ok.inv.free_idle 0 hfree).1
  · have hl := h.ok.inv.lookup_id h.size hfree
    obtain ⟨hfd, -⟩ := h.cached _ 0 hl
    refine h.pins (b.pages 0).id.pageNo 0 id ?_
    rw [← hfd]
    exact hl

/-- What an operation on page `m` leaves of the other pages. -/
theorem FilePages.kept (h : FilePages D b fd n V except) {b' : BufferPoolManager δ}
    {T lost : PageId → Prop} {n' : Int} (hk : Kept D b b' T lost) (hfree : FreeKept b b')
    (hn : n ≤ n') (except' : Int → Prop) (hexc : ∀ k, ¬ except' k → ¬ except k)
    (hT : ∀ k, ¬ except' k → ¬ T ⟨fd, k⟩)
    (hcached : ∀ p f, T p → b'.pageTable.lookup p = some f →
      p.fd = fd ∧ 1 ≤ p.pageNo ∧ p.pageNo < n')
    (hnew : ∀ k, ¬ except' k → k < n' → k < n)
    (hlost : ∀ k, ¬ except' k → ¬ lost ⟨fd, k⟩) :
    FilePages D b' fd n' V except' where
  ok := hk.ok
  size := by
    rw [hk.size]
    exact h.size
  pins k g hk' hg := by
    have hg₀ := hk.table _ g (hT k hk') hg
    rw [((hk.pins _ g (hT k hk') hg₀).2 hg).2]
    exact h.pins k g (hexc k hk') hg₀
  free g hg := by
    obtain ⟨hg₀, hid⟩ := hfree g hg
    rw [hid]
    exact h.free g hg₀
  cached p g hp := by
    by_cases hpT : T p
    · exact hcached p g hpT hp
    · obtain ⟨h1, h2, h3⟩ := h.cached p g (hk.table p g hpT hp)
      exact ⟨h1, h2, by omega⟩
  safe k hk' h1 h2 := hk.safe _ _ (hlost k hk') (h.safe k (hexc k hk') h1 (hnew k hk' h2))

/-- **Fetching a page.** -/
theorem Idle.fetch (L : D.Lawful) (h : Idle D b fd n V) (h1 : 1 ≤ m) (h2 : m < n)
    (ha : D.Addressable b.disk ⟨fd, m⟩) :
    ∃ f b', b.fetchPage D ⟨fd, m⟩ = (.ok (some f), b') ∧ Held D b' fd n V m f (V m) := by
  have hs : Safe D b ⟨fd, m⟩ (V m) := h.safe m id h1 h2
  obtain ⟨hk, hfree, hres⟩ := fetchPage_spec L h.ok ha (fun _ g _ => h.safeReuse g)
    (fun hu => ⟨V m, (safe_of_uncached hu).mp hs⟩)
  obtain ⟨g, b₁, hv⟩ := h.exists_victim
  rcases hres with ⟨-, -, hnone⟩ | ⟨f, hok, hlook, hdata, hpin⟩
  · rw [hv] at hnone
    cases hnone
  · refine ⟨f, (b.fetchPage D ⟨fd, m⟩).2, Prod.ext hok rfl, ?_, hlook, ?_, hdata _ hs⟩
    · refine FilePages.kept h hk hfree (Int.le_refl n) (· = m) (fun _ _ => id) ?_ ?_
        (fun _ _ => id) (fun _ _ => id)
      · rintro k hkm heq
        exact hkm (PageId.mk.inj heq).2
      · rintro p g rfl -
        exact ⟨rfl, h1, h2⟩
    · rcases hpin with ⟨hl, -, hp⟩ | ⟨-, hp⟩
      · rw [hp, h.pins m f id hl]
        rfl
      · exact hp

/-- **Creating a page.** -/
theorem Idle.new (L : D.Lawful) (h : Idle D b fd n V) (h1 : 1 ≤ n)
    (hn : (D.allocatePage b.disk fd).1 = n)
    (ha : D.Addressable (D.allocatePage b.disk fd).2 ⟨fd, n⟩) :
    ∃ f b', b.newPage D fd = (.ok (some (f, ⟨fd, n⟩)), b') ∧ Held D b' fd (n + 1) V n f .zero := by
  obtain ⟨hk, hfree, hres⟩ := newPage_spec L h.ok fd (p := ⟨fd, n⟩) (by rw [hn]) ha
    (fun g _ => ⟨h.safeReuse g, fun g' hg' => by
      have := (h.cached _ g' hg').2.2
      simp only at this
      omega⟩)
  obtain ⟨g, b₁, hv⟩ := h.exists_victim
  rcases hres with ⟨-, -, hnone⟩ | ⟨f, hok, hlook, hpage⟩
  · rw [hv] at hnone
    cases hnone
  · refine ⟨f, (b.newPage D fd).2, Prod.ext hok rfl, ?_, hlook, by rw [hpage], by rw [hpage]⟩
    have hne : ∀ k, ¬ k = n → ¬ (⟨fd, k⟩ : PageId) = ⟨fd, n⟩ :=
      fun k hkm heq => hkm (PageId.mk.inj heq).2
    refine FilePages.kept h hk hfree (by omega) (· = n) (fun _ _ => id) hne ?_
      (fun k hkn hlt => by omega) hne
    rintro p g rfl -
    exact ⟨rfl, h1, by show n < n + 1; omega⟩

/-- New bytes leave the ids and the pins. -/
theorem setData_frame (b : BufferPoolManager δ) (f : FrameId) (y : PageData) (g : FrameId) :
    ((b.setPage f { b.pages f with data := y }).pages g).id = (b.pages g).id ∧
      ((b.setPage f { b.pages f with data := y }).pages g).pinCount = (b.pages g).pinCount := by
  by_cases hg : g = f
  · simp [setPage, hg]
  · simp [setPage, hg]

/-- **Changing the bytes of the pinned page.** -/
theorem Held.write (h : Held D b fd n V m f x) (y : PageData) :
    Held D (b.setPage f { b.pages f with data := y }) fd n V m f y := by
  have hself : (b.setPage f { b.pages f with data := y }).pages f = { b.pages f with data := y } := by
    simp [setPage]
  have hsame := setData_frame b f y
  refine ⟨⟨⟨?_, h.others.ok.disk⟩, h.others.size, fun k g hk hg => ?_, fun g hg => ?_,
    h.others.cached, fun k hk h1 h2 => ?_⟩, h.look, ?_, ?_⟩
  · exact h.others.ok.inv.setData h.look y (b.pages f).isDirty b.disk
  · rw [(hsame g).2]
    exact h.others.pins k g hk hg
  · rw [(hsame g).1]
    exact h.others.free g hg
  · exact safe_setMapped h.others.ok.inv h.look (fun heq => hk (PageId.mk.inj heq).2)
      (fun _ hy => hy) (h.others.safe k hk h1 h2)
  · rw [(hsame f).2]
    exact h.pin
  · rw [hself]

/-- **A write to the disk that leaves the pages of the file alone.** -/
theorem FilePages.set_disk (h : FilePages D b fd n V except) {d : δ}
    (ha : ∀ k, 1 ≤ k → D.Addressable b.disk ⟨fd, k⟩ → D.Addressable d ⟨fd, k⟩)
    (hd : ∀ k y, 1 ≤ k → D.Holds b.disk ⟨fd, k⟩ y → D.Holds d ⟨fd, k⟩ y) :
    FilePages D { b with disk := d } fd n V except := by
  refine ⟨⟨?_, fun p g hp => ?_⟩, h.size, h.pins, h.free, h.cached, fun k hk h1 h2 => ?_⟩
  · have hinv := h.ok.inv
    exact ⟨hinv.mapped, hinv.free_nodup, hinv.free_lt, hinv.free_iff, hinv.free_idle, hinv.pins,
      hinv.replacer, hinv.evictable, hinv.idle_evictable⟩
  · obtain ⟨hfd, h1, -⟩ := h.cached p g hp
    have hp' : p = ⟨fd, p.pageNo⟩ := by rw [← hfd]
    rw [hp']
    apply ha _ h1
    rw [← hp']
    exact h.ok.disk p g hp
  · exact (h.safe k hk h1 h2).set_disk (hd k _ h1)

/-- The disk may change as long as it keeps the pages of the file. -/
theorem Held.set_disk (h : Held D b fd n V m f x) {d : δ}
    (ha : ∀ k, 1 ≤ k → D.Addressable b.disk ⟨fd, k⟩ → D.Addressable d ⟨fd, k⟩)
    (hd : ∀ k y, 1 ≤ k → D.Holds b.disk ⟨fd, k⟩ y → D.Holds d ⟨fd, k⟩ y) :
    Held D { b with disk := d } fd n V m f x :=
  ⟨h.others.set_disk ha hd, h.look, h.pin, h.data⟩

/-- **Flushing the pinned page.** -/
theorem Held.flush (L : D.Lawful) (h : Held D b fd n V m f x) :
    ∃ b', b.flushPage D ⟨fd, m⟩ = (.ok true, b') ∧ Held D b' fd n V m f x := by
  obtain ⟨hk, hres⟩ := flushPage_spec L h.others.ok ⟨fd, m⟩
  obtain ⟨hok, hlook, hpage, -⟩ := hres f h.look
  refine ⟨(b.flushPage D ⟨fd, m⟩).2, Prod.ext hok rfl, ?_, hlook, ?_, ?_⟩
  · exact h.others.kept hk (flushPage_free _) (Int.le_refl n) (· = m) (fun _ => id)
      (fun _ _ => id) (fun _ _ hf => hf.elim) (fun _ _ => id) (fun _ _ => id)
  · rw [hpage]
    exact h.pin
  · rw [hpage]
    exact h.data

/-- **Releasing the pinned page dirty.** It stays in its frame. -/
theorem Held.unpin (h : Held D b fd n V m f x) :
    Idle D (b.unpinPage ⟨fd, m⟩ true).2 fd n (Function.update V m x) ∧
      (b.unpinPage ⟨fd, m⟩ true).2.pageTable.lookup ⟨fd, m⟩ = some f ∧
      ((b.unpinPage ⟨fd, m⟩ true).2.pages f).isDirty = true := by
  obtain ⟨hk, hres⟩ := unpinPage_spec h.others.ok ⟨fd, m⟩ true
  obtain ⟨-, hlook, hdata, hpin, hdirty⟩ := hres f h.look (by rw [h.pin]; decide)
  rw [Bool.or_true] at hdirty
  have hothers : FilePages D (b.unpinPage ⟨fd, m⟩ true).2 fd n V (· = m) := by
    refine h.others.kept hk (unpinPage_free _ _) (Int.le_refl n) (· = m) (fun _ => id) ?_ ?_
      (fun _ _ => id) (fun _ _ => id)
    · rintro k hkm heq
      exact hkm (PageId.mk.inj heq).2
    · rintro p g rfl -
      exact h.others.cached _ f h.look
  refine ⟨⟨hothers.ok, hothers.size, fun k g _ hg => ?_, hothers.free, hothers.cached,
    fun k _ h1 h2 => ?_⟩, hlook, hdirty⟩
  · by_cases hkm : k = m
    · subst hkm
      rw [hlook] at hg
      rw [← Option.some.inj hg, hpin, h.pin]
      rfl
    · exact hothers.pins k g hkm hg
  · by_cases hkm : k = m
    · subst hkm
      rw [Function.update_self, safe_of_lookup hlook]
      exact ⟨hdata.trans h.data, Or.inl hdirty⟩
    · rw [Function.update_of_ne hkm]
      exact hothers.safe k hkm h1 h2

/-- **A write to a page after its last pin is gone.** It is not lost while the page is dirty in its
    frame. -/
theorem Idle.write_unpinned (h : Idle D b fd n V) (hlook : b.pageTable.lookup ⟨fd, m⟩ = some f)
    (hdirty : (b.pages f).isDirty = true) (y : PageData) :
    Idle D (b.setPage f { b.pages f with data := y }) fd n (Function.update V m y) := by
  have hself : (b.setPage f { b.pages f with data := y }).pages f = { b.pages f with data := y } := by
    simp [setPage]
  have hsame := setData_frame b f y
  refine ⟨⟨?_, h.ok.disk⟩, h.size, fun k g hk hg => ?_, fun g hg => ?_, h.cached,
    fun k hk h1 h2 => ?_⟩
  · exact h.ok.inv.setData hlook y (b.pages f).isDirty b.disk
  · rw [(hsame g).2]
    exact h.pins k g hk hg
  · rw [(hsame g).1]
    exact h.free g hg
  · by_cases hkm : k = m
    · subst hkm
      have hl : (b.setPage f { b.pages f with data := y }).pageTable.lookup ⟨fd, k⟩ = some f := hlook
      rw [Function.update_self, safe_of_lookup hl, hself]
      exact ⟨rfl, Or.inl hdirty⟩
    · rw [Function.update_of_ne hkm]
      exact safe_setMapped h.ok.inv hlook (fun heq => hkm (PageId.mk.inj heq).2)
        (fun _ hy => hy) (h.safe k id h1 h2)

/-- **Flushing the file.** Every page is then on the disk. -/
theorem Idle.flushAllPages (L : D.Lawful) (h : Idle D b fd n V) :
    ∃ b', b.flushAllPages D fd = (.ok (), b') ∧ Idle D b' fd n V := by
  obtain ⟨hok, hk, -⟩ := flushAllPages_spec L h.ok fd
  refine ⟨(b.flushAllPages D fd).2, Prod.ext hok rfl, ?_⟩
  exact FilePages.kept h hk (flushEntries_free _ _) (Int.le_refl n) _ (fun _ => id) (fun _ _ => id)
    (fun _ _ hf => hf.elim) (fun _ _ => id) (fun _ _ => id)

end Access

end BufferPoolManager

end Rmdb
