import Rmdb.Lib.PinLedger
import Rmdb.Storage.DeleteAllPage

namespace Rmdb

open Lib BufferPoolManager

/-!
# The pin counts of frames

A frame gets a pin only by a `fetch_page` or a `new_page` that returns it, and loses one only by an
`unpin_page` that finds it in the page table, whatever the disk does.

* `Gains` — the pin counts after a call, exactly, and which frames have got another page;
* `fetchPage_gains`, `newPage_gains`, `unpinPage_gains` — the calls for a page;
* `Gains.flushPage`, `Gains.deletePage`, … — the other calls change no pin count;
* `PoolStep.Elsewhere` — a step that pins no page of a file.
-/

namespace BufferPoolManager

variable {δ : Type} {b b₁ b₂ : BufferPoolManager δ} {f : FrameId} {p : PageId}
  {t : List (PinEvent FrameId)} {N : PageId → Prop}

/-- **What a call does to the frames**: the pin counts change by the events `t`, and only an unpinned frame
    gets another page, one that is `N`. -/
structure Gains (b b' : BufferPoolManager δ) (t : List (PinEvent FrameId)) (N : PageId → Prop) : Prop where
  pins : ∀ f, (b'.pages f).pinCount = (b.pages f).pinCount + gain t f
  ids : ∀ f, (b'.pages f).id = (b.pages f).id ∨ ((b.pages f).pinCount = 0 ∧ N (b'.pages f).id)

/-- The pages and pin counts of all frames are as before. -/
theorem Gains.of_same (hpin : ∀ f, (b₁.pages f).pinCount = (b.pages f).pinCount)
    (hid : ∀ f, (b₁.pages f).id = (b.pages f).id) : Gains b b₁ [] N where
  pins f := by rw [hpin, gain_nil, Int.add_zero]
  ids f := Or.inl (hid f)

theorem Gains.refl (b : BufferPoolManager δ) : Gains b b [] N := .of_same (fun _ => rfl) fun _ => rfl

/-- A step without pins before another. -/
theorem Gains.trans (h : Gains b b₁ [] N) (h' : Gains b₁ b₂ t N) : Gains b b₂ t N where
  pins f := by rw [h'.pins, h.pins, gain_nil, Int.add_zero]
  ids f := by
    have hpin : (b₁.pages f).pinCount = (b.pages f).pinCount := by
      rw [h.pins, gain_nil, Int.add_zero]
    rcases h'.ids f with hid | ⟨h0, hnew⟩
    · rw [hid]
      exact h.ids f
    · exact Or.inr ⟨hpin ▸ h0, hnew⟩

/-- More pages may be new. -/
theorem Gains.mono {M : PageId → Prop} (h : Gains b b₁ t N) (hnew : ∀ p, N p → M p) :
    Gains b b₁ t M :=
  ⟨h.pins, fun f => (h.ids f).imp_right fun hf => ⟨hf.1, hnew _ hf.2⟩⟩

/-- A descriptor with the page and the pins of the old one. -/
theorem Gains.setPage {page : Page} (hpages : b₁.pages = b.pages)
    (hpin : page.pinCount = (b.pages f).pinCount) (hid : page.id = (b.pages f).id) :
    Gains b (b₁.setPage f page) [] N := by
  refine .of_same (fun g => ?_) fun g => ?_
  · by_cases hg : g = f
    · simp [BufferPoolManager.setPage, hg, hpin]
    · simp [BufferPoolManager.setPage, hg, hpages]
  · by_cases hg : g = f
    · simp [BufferPoolManager.setPage, hg, hid]
    · simp [BufferPoolManager.setPage, hg, hpages]

/-- A pin changes no page. -/
theorem pinFrame_id (b : BufferPoolManager δ) (f g : FrameId) : ((b.pinFrame f).pages g).id = (b.pages g).id := by
  by_cases hg : g = f
  · simp [BufferPoolManager.pinFrame, BufferPoolManager.setPage, hg]
  · simp [BufferPoolManager.pinFrame, BufferPoolManager.setPage, hg]

/-- One more pin for a frame. -/
theorem Gains.pinFrame (b : BufferPoolManager δ) (f : FrameId) : Gains b (b.pinFrame f) [.fetch f] N := by
  refine ⟨fun g => ?_, fun g => Or.inl (pinFrame_id b f g)⟩
  by_cases hg : g = f
  · simp [BufferPoolManager.pinFrame, BufferPoolManager.setPage, hg]
  · simp [BufferPoolManager.pinFrame, BufferPoolManager.setPage, hg, Ne.symm hg]

section Calls

variable (D : DiskOps δ)

/-- `update_page` on an unpinned frame gives it the new page, or none. -/
theorem Gains.updatePage (hpin : (b.pages f).pinCount = 0) (p : PageId) (o : Option FrameId) :
    Gains b (b.updatePage D f p o).2 [] fun q => o ≠ none ∧ q = p := by
  unfold BufferPoolManager.updatePage
  dsimp only
  split
  · exact .of_same (fun _ => rfl) fun _ => rfl
  · split
    · exact .setPage rfl rfl rfl
    · refine ⟨fun g => ?_, fun g => ?_⟩
      · by_cases hg : g = f
        · simp [BufferPoolManager.setPage, hg]
        · simp [BufferPoolManager.setPage, hg]
      · by_cases hg : g = f
        · exact Or.inr ⟨hg ▸ hpin, by simp, by simp [BufferPoolManager.setPage, hg]⟩
        · exact Or.inl (by simp [BufferPoolManager.setPage, hg])

/-- `flush_page` changes no pins. -/
theorem Gains.flushPage (p : PageId) : Gains b (b.flushPage D p).2 [] N := by
  unfold BufferPoolManager.flushPage
  cases b.pageTable.lookup p with
  | none => exact .refl b
  | some f =>
    dsimp only
    split
    · exact .of_same (fun _ => rfl) fun _ => rfl
    · exact .setPage rfl rfl rfl

/-- Nor does flushing several pages. -/
theorem Gains.flushEntries (skip : PageId → Page → Bool) (es : List (Σ _ : PageId, FrameId)) :
    Gains b (flushEntries D skip b es).2 [] N := by
  induction es generalizing b with
  | nil => exact .refl b
  | cons e es ih =>
    unfold BufferPoolManager.flushEntries
    dsimp only
    split
    · exact ih
    · split
      · exact .of_same (fun _ => rfl) fun _ => rfl
      · have hset : ∀ d : δ, Gains b
            ({ b with disk := d }.setPage e.2 { b.pages e.2 with isDirty := false }) [] N :=
          fun d => .setPage rfl rfl rfl
        exact (hset _).trans ih

/-- A frame that is given up keeps the id of its page. -/
theorem Gains.giveUp (hpin : (b.pages f).pinCount = 0) (p : PageId) :
    Gains b (b.updatePage D f p none).2 [] N :=
  (Gains.updatePage D hpin p none).mono fun _ h => absurd rfl h.1

/-- `delete_page` only touches frames without pins. -/
theorem Gains.deletePage (p : PageId) : Gains b (b.deletePage D p).2 [] N := by
  unfold BufferPoolManager.deletePage
  cases b.pageTable.lookup p with
  | none => exact .refl b
  | some f =>
    dsimp only
    split
    · exact .refl b
    · rename_i h0
      have hup : Gains b (b.updatePage D f p none).2 [] N := .giveUp D (not_not.mp h0) p
      rcases hu : b.updatePage D f p none with ⟨e | u, b₁⟩
      · rw [hu] at hup
        exact hup
      · rw [hu] at hup
        exact hup.trans (.of_same (fun _ => rfl) fun _ => rfl)

/-- So does deleting several. -/
theorem Gains.deleteFrames (fs : List FrameId) (h0 : ∀ f ∈ fs, (b.pages f).pinCount = 0) :
    Gains b (b.deleteFrames D fs).2 [] N := by
  induction fs generalizing b with
  | nil => exact .refl b
  | cons f fs ih =>
    have hup : Gains b (b.updatePage D f (b.pages f).id none).2 [] N :=
      .giveUp D (h0 f List.mem_cons_self) _
    unfold BufferPoolManager.deleteFrames
    rcases hu : b.updatePage D f (b.pages f).id none with ⟨e | u, b₁⟩
    · rw [hu] at hup
      exact hup
    · rw [hu] at hup
      have hfree : Gains b₁ { b₁ with freeList := b₁.freeList ++ [f] } [] N :=
        .of_same (fun _ => rfl) fun _ => rfl
      refine hup.trans (hfree.trans (ih fun g hg => ?_))
      have := hup.pins g
      rw [gain_nil, Int.add_zero] at this
      exact this.trans (h0 g (List.mem_cons_of_mem f hg))

/-- `delete_all_pages` looks at the pins first. -/
theorem Gains.deleteAllPage (fd : Int) : Gains b (b.deleteAllPage D fd).2 [] N := by
  rcases b.deleteAllPage_cases D fd with ⟨-, heq⟩ | ⟨hpins, heq⟩
  · rw [heq]
    exact .refl b
  · rw [heq]
    exact .deleteFrames D _ hpins

/-! ### The calls for a page -/

/-- A victim gets the page `p`. -/
theorem Gains.victim (h : b.PinInv) (hv : b.findVictimPage = (some f, b₁)) {d : δ} (p : PageId) :
    Gains b ({ b₁ with disk := d }.updatePage D f p (some f)).2 [] (· = p) := by
  obtain ⟨-, hpages, -, hpin, -⟩ := h.victim hv
  have hpin₁ : ({ b₁ with disk := d }.pages f).pinCount = 0 := by
    show (b₁.pages f).pinCount = 0
    rw [hpages, hpin]
  have hb : Gains b { b₁ with disk := d } [] (· = p) :=
    .of_same (fun g => congrArg (fun pages => (pages g).pinCount) hpages)
      fun g => congrArg (fun pages => (pages g).id) hpages
  exact hb.trans ((Gains.updatePage D hpin₁ p (some f)).mono fun _ hq => hq.2)

/-- **`fetch_page`** fails, or pins the frame that it returns, which has the page. -/
theorem fetchPage_gains (h : b.PinInv) (p : PageId) :
    (Gains b (b.fetchPage D p).2 [] (· = p) ∧ ∀ f, (b.fetchPage D p).1 ≠ .ok (some f)) ∨
      ∃ f, (b.fetchPage D p).1 = .ok (some f) ∧ Gains b (b.fetchPage D p).2 [.fetch f] (· = p) ∧
        ((b.fetchPage D p).2.pages f).id = p := by
  unfold fetchPage
  cases hp : b.pageTable.lookup p with
  | some f => exact Or.inr ⟨f, rfl, .pinFrame b f, (pinFrame_id b f f).trans (h.mapped p f hp).2⟩
  | none =>
    rcases hv : b.findVictimPage with ⟨_ | f, b₁⟩
    · dsimp only
      rw [findVictimPage_none hv]
      exact Or.inl ⟨.refl b, by simp⟩
    · have hup := Gains.victim D h hv (d := b₁.disk) p
      have hid := updatePage_id (b := b₁) (f := f) D p f
      dsimp only
      rcases hu : b₁.updatePage D f p (some f) with ⟨e | u, b₂⟩
      · rw [hu] at hup
        exact Or.inl ⟨hup, by simp⟩
      · rw [hu] at hup hid
        have hread : Gains b (b₂.setPage f { b₂.pages f with
            data := (D.readPage b₂.disk p (b₂.pages f).data).2 }) [] (· = p) :=
          hup.trans (.setPage rfl rfl rfl)
        dsimp only
        split
        · exact Or.inl ⟨hread, by simp⟩
        · refine Or.inr ⟨f, rfl, hread.trans (.pinFrame _ f), ?_⟩
          rw [pinFrame_id]
          simpa [BufferPoolManager.setPage] using hid rfl

/-- **`new_page`** fails, or pins the frame that it returns, which has a page of the file. -/
theorem newPage_gains (h : b.PinInv) (fd : Int) :
    (Gains b (b.newPage D fd).2 [] (·.fd = fd) ∧ ∀ r, (b.newPage D fd).1 ≠ .ok (some r)) ∨
      ∃ f p, (b.newPage D fd).1 = .ok (some (f, p)) ∧
        Gains b (b.newPage D fd).2 [.fetch f] (·.fd = fd) ∧ ((b.newPage D fd).2.pages f).id.fd = fd := by
  unfold newPage
  rcases hv : b.findVictimPage with ⟨_ | f, b₁⟩
  · dsimp only
    rw [findVictimPage_none hv]
    exact Or.inl ⟨.refl b, by simp⟩
  · dsimp only
    have hup := (Gains.victim D h hv (d := (D.allocatePage b₁.disk fd).2)
      ⟨fd, (D.allocatePage b₁.disk fd).1⟩).mono (M := (·.fd = fd)) (by rintro _ rfl; rfl)
    have hid := updatePage_id (b := { b₁ with disk := (D.allocatePage b₁.disk fd).2 }) (f := f) D
      ⟨fd, (D.allocatePage b₁.disk fd).1⟩ f
    rcases hu : updatePage D { b₁ with disk := (D.allocatePage b₁.disk fd).2 } f
        ⟨fd, (D.allocatePage b₁.disk fd).1⟩ (some f) with ⟨e | u, b₂⟩
    · rw [hu] at hup
      exact Or.inl ⟨hup, by simp⟩
    · rw [hu] at hup hid
      have hreset : Gains b (b₂.setPage f { b₂.pages f with data := .zero }) [] (·.fd = fd) :=
        hup.trans (.setPage rfl rfl rfl)
      refine Or.inr ⟨f, _, rfl, hreset.trans (.pinFrame _ f), ?_⟩
      have hfd : (b₂.pages f).id.fd = fd := congrArg PageId.fd (hid rfl)
      rw [pinFrame_id]
      simpa [BufferPoolManager.setPage] using hfd

/-- **`unpin_page`** takes a pin from the frame that the page table has for the page, if it returns true. -/
theorem unpinPage_gains (p : PageId) (d : Bool) :
    ((b.unpinPage p d).1 = false ∧ (b.unpinPage p d).2 = b) ∨
      ∃ f, (b.unpinPage p d).1 = true ∧ b.pageTable.lookup p = some f ∧
        Gains b (b.unpinPage p d).2 [.unpin f d] N := by
  unfold unpinPage
  cases hp : b.pageTable.lookup p with
  | none => exact Or.inl ⟨rfl, rfl⟩
  | some f =>
    dsimp only
    by_cases h0 : (b.pages f).pinCount = 0
    · rw [if_pos h0]
      exact Or.inl ⟨rfl, rfl⟩
    · rw [if_neg h0]
      refine Or.inr ⟨f, rfl, rfl, fun g => ?_, fun g => Or.inl ?_⟩
      · by_cases hg : g = f
        · simp [BufferPoolManager.setPage, hg, Int.sub_eq_add_neg]
        · simp [BufferPoolManager.setPage, hg, Ne.symm hg]
      · by_cases hg : g = f
        · simp [BufferPoolManager.setPage, hg]
        · simp [BufferPoolManager.setPage, hg]

end Calls

end BufferPoolManager

/-- A step that pins no page of the file. -/
def PoolStep.Elsewhere {δ : Type} (fd : Int) : PoolStep δ → Prop
  | .call (.fetch p) => p.fd ≠ fd
  | .call (.new fd') => fd' ≠ fd
  | _ => True

/-- **Such a step** gives no frame a page of the file, and no pin to a frame that has one. -/
theorem PoolStep.Elsewhere.spec {δ : Type} {D : DiskOps δ} {b : BufferPoolManager δ} {fd : Int}
    {s : PoolStep δ} (hs : s.Elsewhere fd) (h : b.PinInv) {f : FrameId}
    (hf : ((s.apply D b).pages f).id.fd = fd) :
    (b.pages f).id.fd = fd ∧ ((s.apply D b).pages f).pinCount ≤ (b.pages f).pinCount := by
  -- a call that pins at most a frame of another file
  have hcall : ∀ {b' : BufferPoolManager δ} {t : List (PinEvent FrameId)} {N : PageId → Prop},
      Gains b b' t N → (b'.pages f).id.fd = fd → (∀ p, N p → p.fd ≠ fd) → gain t f ≤ 0 →
      (b.pages f).id.fd = fd ∧ (b'.pages f).pinCount ≤ (b.pages f).pinCount := by
    intro b' t N hg hfd hnew ht
    have hpins := hg.pins f
    rcases hg.ids f with hid | ⟨-, hid⟩
    · exact ⟨hid ▸ hfd, by omega⟩
    · exact absurd hfd (hnew _ hid)
  have hother : ∀ {b' : BufferPoolManager δ} {g : FrameId}, (b'.pages f).id.fd = fd →
      (b'.pages g).id.fd ≠ fd → gain [.fetch g] f ≤ 0 := by
    intro b' g hfd hg
    have hne : g ≠ f := by
      rintro rfl
      exact hg hfd
    simp [hne]
  cases s with
  | call c =>
    cases c with
    | fetch p =>
      rcases fetchPage_gains D h p with ⟨hg, -⟩ | ⟨g, -, hg, hid⟩
      · exact hcall hg hf (by rintro _ rfl; exact hs) (Int.le_refl 0)
      · exact hcall hg hf (by rintro _ rfl; exact hs) (hother hf fun hfd => hs ((congrArg _ hid).symm.trans hfd))
    | new fd' =>
      rcases newPage_gains D h fd' with ⟨hg, -⟩ | ⟨g, p, -, hg, hid⟩
      · exact hcall hg hf (by rintro _ rfl; exact hs) (Int.le_refl 0)
      · exact hcall hg hf (by rintro _ rfl; exact hs) (hother hf fun hfd => hs (hid.symm.trans hfd))
    | unpin p d =>
      rcases unpinPage_gains (b := b) (N := fun _ => False) p d with ⟨-, heq⟩ | ⟨g, -, -, hg⟩
      · have happly : PoolStep.apply D b (.call (.unpin p d)) = b := heq
        rw [happly] at hf ⊢
        exact ⟨hf, Int.le_refl _⟩
      · refine hcall hg hf (fun _ => False.elim) ?_
        rw [gain_unpin, gain_nil]
        split <;> omega
    | flush p => exact hcall (.flushPage (N := fun _ => False) D p) hf (fun _ => False.elim) (Int.le_refl 0)
    | delete p => exact hcall (.deletePage (N := fun _ => False) D p) hf (fun _ => False.elim) (Int.le_refl 0)
    | deleteAll fd' =>
      exact hcall (.deleteAllPage (N := fun _ => False) D fd') hf (fun _ => False.elim) (Int.le_refl 0)
    | flushAllPages fd' | flushAllPage =>
      exact hcall (.flushEntries (N := fun _ => False) D _ _) hf (fun _ => False.elim) (Int.le_refl 0)
  | write g data =>
    have hset : Gains b (b.setPage g { b.pages g with data := data }) [] fun _ => False := .setPage rfl rfl rfl
    exact hcall hset hf (fun _ => False.elim) (Int.le_refl 0)
  | disk d => exact ⟨hf, Int.le_refl _⟩
  | rehash t => exact ⟨hf, Int.le_refl _⟩

end Rmdb
