import Mathlib.Data.Set.Insert
import Rmdb.Lib.Transition
import Rmdb.Storage.PoolSystem

namespace Rmdb

open Lib BufferPoolManager

/-!
# The buffer pool as one store

Without deletions and with clients that follow the rules of the interface (bytes change under a pin,
and the pin under which a page was created or changed is released as dirty), the pool and the disk
together are one store from page ids to bytes:

* `PageStore` — the pool, the store it stands for, and the pins its clients hold;
* `PageStore.Inv` — a page's bytes are safe in the sense of `Safe`, or some client that has changed
  them still holds its pin, so that the frame cannot be taken;
* `bufferPool_is_store` — `fetch_page` returns the bytes last written, whatever was evicted, and
  `flush_all_page` writes every page nobody is in the middle of changing.
-/

/-- A pin: the page, the frame the client was given, and whether the client has created or changed
    the page under it. -/
structure Handle where
  page : PageId
  frame : FrameId
  changed : Bool
  deriving DecidableEq, Repr

/-- The pool with its clients, and the store it stands for. -/
structure PageStore where
  pool : BufferPoolManager IdealDisk
  /-- The bytes last written to each page. -/
  store : PageId → PageData
  handles : List Handle
  /-- The pages used so far. -/
  used : Set PageId

/-- A step of a client. -/
inductive StoreOp where
  | fetch (p : PageId)
  | new (fd : Int)
  /-- Release a pin. -/
  | unpin (h : Handle) (isDirty : Bool)
  /-- `unpin_page` on a page nobody has pinned. -/
  | unpinUnheld (p : PageId) (isDirty : Bool)
  | flush (p : PageId)
  | flushAllPages (fd : Int)
  | flushAllPage
  /-- Change the bytes of a page through a pin. -/
  | write (h : Handle) (data : PageData)
  | rehash (t : AList (fun _ : PageId => FrameId))

namespace PageStore

/-- The rules of the interface.  `INVALID_PAGE_ID` names no page. -/
def Enabled (s : PageStore) : StoreOp → Prop
  | .fetch p => p.pageNo ≠ invalidPageId
  | .new fd => PoolOp.newId s.pool fd ∉ s.used ∧ (PoolOp.newId s.pool fd).pageNo ≠ invalidPageId
  | .unpin h isDirty => h ∈ s.handles ∧ (h.changed = true → isDirty = true)
  | .unpinUnheld p _ => ∀ h ∈ s.handles, h.page ≠ p
  | .write h _ => h ∈ s.handles
  | .rehash t => t.entries.Perm s.pool.pageTable.entries
  | _ => True

/-- The state after a step. -/
def apply (s : PageStore) : StoreOp → PageStore
  | .fetch p =>
    let r := s.pool.fetchPage IdealDisk.ops p
    match r.1 with
    | .ok (some f) =>
      { s with pool := r.2, handles := ⟨p, f, false⟩ :: s.handles, used := insert p s.used }
    | _ => { s with pool := r.2 }
  | .new fd =>
    let r := s.pool.newPage IdealDisk.ops fd
    match r.1 with
    | .ok (some (f, p)) =>
      { pool := r.2
        store := Function.update s.store p .zero
        handles := ⟨p, f, true⟩ :: s.handles
        used := insert p s.used }
    | _ => { s with pool := r.2 }
  | .unpin h isDirty =>
    { s with pool := (s.pool.unpinPage h.page isDirty).2, handles := s.handles.erase h }
  | .unpinUnheld p isDirty => { s with pool := (s.pool.unpinPage p isDirty).2 }
  | .flush p => { s with pool := (s.pool.flushPage IdealDisk.ops p).2 }
  | .flushAllPages fd => { s with pool := (s.pool.flushAllPages IdealDisk.ops fd).2 }
  | .flushAllPage => { s with pool := (s.pool.flushAllPage IdealDisk.ops).2 }
  | .write h data =>
    { s with pool := s.pool.setPage h.frame { s.pool.pages h.frame with data := data }
             store := Function.update s.store h.page data
             handles := { h with changed := true } :: s.handles.erase h }
  | .rehash t => { s with pool := { s.pool with pageTable := t } }

/-- The start: an empty pool over any disk, whose bytes are the store. -/
def start (n : Nat) (garbage : FrameId → Int) (disk : IdealDisk) : PageStore where
  pool := .new n garbage disk
  store := disk.contents
  handles := []
  used := ∅

end PageStore

/-- **The store in use.** -/
def pageStoreSystem : TransitionSystem PageStore StoreOp where
  init s := ∃ n garbage disk, s = .start n garbage disk
  step s op s' := s.Enabled op ∧ s' = s.apply op

namespace PageStore

/-- The page has the bytes `x`: they are safe, or a client that has changed them still holds its
    pin on the frame they are in. -/
def Coherent (b : BufferPoolManager IdealDisk) (handles : List Handle) (p : PageId)
    (x : PageData) : Prop :=
  Safe IdealDisk.ops b p x ∨
    ((∃ h ∈ handles, h.page = p ∧ h.changed = true) ∧
      ∃ f, b.pageTable.lookup p = some f ∧ (b.pages f).data = x)

/-- **The invariant.** -/
structure Inv (s : PageStore) : Prop where
  pool : s.pool.PoolOk IdealDisk.ops
  /-- A pin is on the frame the page is in, -/
  handle : ∀ h ∈ s.handles, s.pool.pageTable.lookup h.page = some h.frame
  /-- and the pin count counts them. -/
  pins : ∀ p f, s.pool.pageTable.lookup p = some f →
    (s.pool.pages f).pinCount = s.handles.countP (·.page = p)
  /-- A free frame has never been used. -/
  free : ∀ f ∈ s.pool.freeList, (s.pool.pages f).id.pageNo = invalidPageId
  valid : ∀ p f, s.pool.pageTable.lookup p = some f → p.pageNo ≠ invalidPageId ∧ p ∈ s.used
  coherent : ∀ p, Coherent s.pool s.handles p (s.store p)

/-- The invariant holds at the start. -/
theorem start_inv (n : Nat) (garbage : FrameId → Int) (disk : IdealDisk) :
    (start n garbage disk).Inv where
  pool := ⟨poolInv_new n garbage disk, fun _ _ _ => trivial⟩
  handle h hh := by simp [start] at hh
  pins p f hp := by simp [start, BufferPoolManager.new] at hp
  free f _ := rfl
  valid p f hp := by simp [start, BufferPoolManager.new] at hp
  coherent p := by
    refine Or.inl ((safe_of_uncached ?_).mpr ((IdealDisk.holds_iff _ _ _).mpr rfl))
    simp [start, BufferPoolManager.new]

section Rules

variable {s : PageStore}

/-- A free frame may always be reused: its id names no page. -/
theorem Inv.safeReuse (h : s.Inv) (f : FrameId) : s.pool.SafeReuse f := by
  intro hf
  cases hl : s.pool.pageTable.lookup (s.pool.pages f).id with
  | none => rfl
  | some g => exact absurd (h.free f hf) (h.valid _ g hl).1

/-- The cached bytes of a page are its bytes. -/
theorem Inv.data (h : s.Inv) {p : PageId} {f : FrameId}
    (hp : s.pool.pageTable.lookup p = some f) : (s.pool.pages f).data = s.store p := by
  rcases h.coherent p with hs | ⟨-, g, hg, hdata⟩
  · exact ((safe_of_lookup hp).mp hs).1
  · rw [hp] at hg
    rw [Option.some.inj hg]
    exact hdata

/-- A page under a pin is pinned in the pool. -/
theorem Inv.pinned (h : s.Inv) {k : Handle} (hk : k ∈ s.handles) :
    0 < (s.pool.pages k.frame).pinCount := by
  rw [h.pins k.page k.frame (h.handle k hk)]
  have hpos : 0 < s.handles.countP (·.page = k.page) :=
    List.countP_pos_iff.mpr ⟨k, hk, by simp⟩
  omega

/-- **The step rule.** An operation on the pages `T` keeps the invariant if it does so for these
    pages and leaves the pins and the store of the others alone. -/
theorem Inv.update (h : s.Inv) {b : BufferPoolManager IdealDisk} {T lost : PageId → Prop}
    {store : PageId → PageData} {handles : List Handle} {used : Set PageId}
    (hk : Kept IdealDisk.ops s.pool b T lost) (hfree : FreeKept s.pool b)
    (hlost : ∀ q, lost q → T q) (hstore : ∀ q, ¬ T q → store q = s.store q)
    (hmem : ∀ k : Handle, ¬ T k.page → (k ∈ handles ↔ k ∈ s.handles))
    (hcount : ∀ q, ¬ T q → handles.countP (·.page = q) = s.handles.countP (·.page = q))
    (hused : s.used ⊆ used)
    (hhandle : ∀ k ∈ handles, T k.page → b.pageTable.lookup k.page = some k.frame)
    (hself : ∀ q f, T q → b.pageTable.lookup q = some f →
      (b.pages f).pinCount = handles.countP (·.page = q) ∧ q.pageNo ≠ invalidPageId ∧ q ∈ used)
    (hcoh : ∀ q, T q → Coherent b handles q (store q)) :
    Inv { pool := b, store := store, handles := handles, used := used } where
  pool := hk.ok
  handle k hkm := by
    by_cases hT : T k.page
    · exact hhandle k hkm hT
    · have hkm' := (hmem k hT).mp hkm
      exact (hk.pins k.page k.frame hT (h.handle k hkm')).1 (h.pinned hkm')
  pins p f hp := by
    by_cases hT : T p
    · exact (hself p f hT hp).1
    · have hp' := hk.table p f hT hp
      show (b.pages f).pinCount = handles.countP (·.page = p)
      rw [hcount p hT, ← h.pins p f hp']
      exact ((hk.pins p f hT hp').2 hp).2
  free f hf := by
    obtain ⟨hf', hid⟩ := hfree f hf
    show (b.pages f).id.pageNo = invalidPageId
    rw [hid]
    exact h.free f hf'
  valid p f hp := by
    by_cases hT : T p
    · exact (hself p f hT hp).2
    · obtain ⟨h1, h2⟩ := h.valid p f (hk.table p f hT hp)
      exact ⟨h1, hused h2⟩
  coherent p := by
    by_cases hT : T p
    · exact hcoh p hT
    · show Coherent b handles p (store p)
      rw [hstore p hT]
      rcases h.coherent p with hs | ⟨⟨k, hkm, hkp, hkc⟩, f, hp, hdata⟩
      · exact Or.inl (hk.safe p _ (fun hl => hT (hlost p hl)) hs)
      · -- the client's pin keeps the frame
        have hkf : k.frame = f := by
          have := h.handle k hkm
          rw [hkp, hp] at this
          exact (Option.some.inj this).symm
        obtain ⟨hstay, hsame⟩ := hk.pins p f hT hp
        have hp' := hstay (hkf ▸ h.pinned hkm)
        refine Or.inr ⟨⟨k, (hmem k (by rw [hkp]; exact hT)).mpr hkm, hkp, hkc⟩, f, hp', ?_⟩
        rw [(hsame hp').1]
        exact hdata

/-- An operation that touches no page and no pin. -/
theorem Inv.update_pool (h : s.Inv) {b : BufferPoolManager IdealDisk}
    (hk : Kept IdealDisk.ops s.pool b (fun _ => False) (fun _ => False))
    (hfree : FreeKept s.pool b) : Inv { s with pool := b } :=
  h.update hk hfree (fun _ hl => hl) (fun _ _ => rfl) (fun _ _ => Iff.rfl) (fun _ _ => rfl)
    (fun _ hu => hu) (fun _ _ hT => hT.elim) (fun _ _ hT => hT.elim) (fun _ hT => hT.elim)

/-! ### The steps -/

/-- A new pin on `p` counts for `p` only. -/
theorem countP_cons_page (k : Handle) (l : List Handle) (q : PageId) :
    (k :: l).countP (·.page = q) = l.countP (·.page = q) + if k.page = q then 1 else 0 := by
  rw [List.countP_cons]
  simp

/-- Nobody has pinned a page that is not cached. -/
theorem Inv.countP_eq_zero (h : s.Inv) {p : PageId}
    (hp : s.pool.pageTable.lookup p = none) : s.handles.countP (·.page = p) = 0 := by
  rw [List.countP_eq_zero]
  intro k hk hkp
  have := h.handle k hk
  rw [of_decide_eq_true hkp, hp] at this
  cases this

/-- A page is fetched. -/
theorem Inv.fetch (h : s.Inv) {p : PageId} (hp : p.pageNo ≠ invalidPageId) :
    (s.apply (.fetch p)).Inv := by
  obtain ⟨hk, hfree, hres⟩ := fetchPage_spec IdealDisk.lawful h.pool (p := p) trivial
    (fun _ f _ => h.safeReuse f)
    (fun _ => ⟨s.pool.disk.contents p, (IdealDisk.holds_iff _ _ _).mpr rfl⟩)
  simp only [apply]
  rcases hres with ⟨hnone, hsame, -⟩ | ⟨f, hsome, hlook, -, hpin⟩
  · rw [hnone, hsame]
    exact h
  rw [hsome]
  refine h.update hk hfree (fun _ hl => hl.elim) (fun _ _ => rfl) (fun k hkp => ?_)
    (fun q hq => ?_) (fun _ hu => Or.inr hu) (fun k hkm hkp => ?_) (fun q g hq hg => ?_)
    (fun q hq => ?_)
  · rw [List.mem_cons]
    constructor
    · rintro (rfl | hm)
      · exact absurd rfl hkp
      · exact hm
    · exact Or.inr
  · rw [countP_cons_page, if_neg (fun heq => hq heq.symm), Nat.add_zero]
  · rcases List.mem_cons.mp hkm with rfl | hkm
    · exact hlook
    · -- an older pin: the page was cached
      have hold := h.handle k hkm
      rw [hkp] at hold ⊢
      rcases hpin with ⟨hhit, -⟩ | ⟨hmiss, -⟩
      · rw [hold] at hhit
        rw [hlook, hhit]
      · rw [hold] at hmiss
        cases hmiss
  · subst hq
    rw [hlook] at hg
    rw [← Option.some.inj hg, countP_cons_page, if_pos rfl]
    refine ⟨?_, hp, Or.inl rfl⟩
    rcases hpin with ⟨hhit, -, hcount⟩ | ⟨hmiss, hcount⟩
    · rw [hcount, h.pins q f hhit]
      omega
    · rw [hcount, h.countP_eq_zero hmiss]
      rfl
  · subst hq
    rcases h.coherent q with hs | ⟨⟨k, hkm, hkp, hkc⟩, g, hg, hdata⟩
    · exact Or.inl (hk.safe q _ id hs)
    · refine Or.inr ⟨⟨k, List.mem_cons_of_mem _ hkm, hkp, hkc⟩, f, hlook, ?_⟩
      rcases hpin with ⟨hhit, hsame, -⟩ | ⟨hmiss, -⟩
      · rw [hg] at hhit
        rw [hsame, ← Option.some.inj hhit]
        exact hdata
      · rw [hg] at hmiss
        cases hmiss

/-- A page is made. -/
theorem Inv.new (h : s.Inv) {fd : Int} (hnew : PoolOp.newId s.pool fd ∉ s.used)
    (hvalid : (PoolOp.newId s.pool fd).pageNo ≠ invalidPageId) : (s.apply (.new fd)).Inv := by
  have hmiss : s.pool.pageTable.lookup (PoolOp.newId s.pool fd) = none := by
    cases hl : s.pool.pageTable.lookup (PoolOp.newId s.pool fd) with
    | none => rfl
    | some g => exact absurd (h.valid _ g hl).2 hnew
  obtain ⟨hk, hfree, hres⟩ := newPage_spec IdealDisk.lawful h.pool fd rfl trivial
    (fun f _ => ⟨h.safeReuse f, fun g hg => by
      have hg' : s.pool.pageTable.lookup (PoolOp.newId s.pool fd) = some g := hg
      rw [hmiss] at hg'
      cases hg'⟩)
  simp only [apply]
  -- no frame is free, or the new page is in one
  rcases hres with ⟨hnone, hsame, -⟩ | ⟨f, hsome, hlook, hpage⟩
  · rw [hnone, hsame]
    exact h
  rw [hsome]
  refine h.update hk hfree (fun _ hl => hl) (fun q hq => ?_) (fun k hkp => ?_)
    (fun q hq => ?_) (fun _ hu => Or.inr hu) (fun k hkm hkp => ?_) (fun q g hq hg => ?_)
    (fun q hq => ?_)
  · exact Function.update_of_ne hq _ _
  · rw [List.mem_cons]
    constructor
    · rintro (rfl | hm)
      · exact absurd rfl hkp
      · exact hm
    · exact Or.inr
  · rw [countP_cons_page, if_neg (fun heq => hq heq.symm), Nat.add_zero]
  · -- the new handle, or an older one, which cannot be of this page
    rcases List.mem_cons.mp hkm with rfl | hkm
    · exact hlook
    · have hold := h.handle k hkm
      rw [hkp] at hold
      have hold' : s.pool.pageTable.lookup (PoolOp.newId s.pool fd) = some k.frame := hold
      rw [hmiss] at hold'
      cases hold'
  · subst hq
    rw [hlook] at hg
    rw [← Option.some.inj hg, countP_cons_page, if_pos rfl, hpage]
    have hzero : s.handles.countP (·.page = PoolOp.newId s.pool fd) = 0 := h.countP_eq_zero hmiss
    refine ⟨?_, hvalid, Or.inl rfl⟩
    show (1 : Int) = ((s.handles.countP (·.page = PoolOp.newId s.pool fd) + 1 : Nat) : Int)
    rw [hzero]
    rfl
  · subst hq
    refine Or.inr ⟨⟨_, List.mem_cons_self, rfl, rfl⟩, f, hlook, ?_⟩
    rw [hpage, Function.update_self]

/-- Releasing one pin takes one off the count of its page. -/
theorem countP_erase_page {k : Handle} {l : List Handle} (hk : k ∈ l) (q : PageId) :
    l.countP (·.page = q) = (l.erase k).countP (·.page = q) + if k.page = q then 1 else 0 := by
  rw [← countP_cons_page, (List.perm_cons_erase hk).countP_eq]

/-- A handle is given back, dirty if its page was changed. -/
theorem Inv.unpin (h : s.Inv) {k : Handle} {d : Bool} (hkm : k ∈ s.handles)
    (hd : k.changed = true → d = true) : (s.apply (.unpin k d)).Inv := by
  obtain ⟨hk, hun⟩ := unpinPage_spec (D := IdealDisk.ops) h.pool k.page d
  obtain ⟨-, hlook, hdata, hcount, hdirty⟩ := hun k.frame (h.handle k hkm) (h.pinned hkm)
  refine h.update hk (unpinPage_free k.page d) (fun _ hl => hl.elim) (fun _ _ => rfl)
    (fun k' hkp => ?_) (fun q hq => ?_) (fun _ hu => hu) (fun k' hkm' hkp => ?_)
    (fun q g hq hg => ?_) (fun q hq => ?_)
  · exact List.mem_erase_of_ne (fun heq => hkp (by rw [heq]))
  · rw [countP_erase_page hkm q, if_neg (fun heq => hq heq.symm), Nat.add_zero]
  · have hold := h.handle k' (List.mem_of_mem_erase hkm')
    rw [hkp, h.handle k hkm] at hold
    rw [hkp, hlook, hold]
  · subst hq
    rw [hlook] at hg
    obtain ⟨hv, hu⟩ := h.valid k.page k.frame (h.handle k hkm)
    refine ⟨?_, hv, hu⟩
    rw [← Option.some.inj hg, hcount, h.pins k.page k.frame (h.handle k hkm),
      countP_erase_page hkm k.page, if_pos rfl]
    omega
  · subst hq
    cases d with
    | true =>
      refine Or.inl ((safe_of_lookup hlook).mpr ⟨?_, Or.inl (by rw [hdirty, Bool.or_true])⟩)
      rw [hdata]
      exact h.data (h.handle k hkm)
    | false =>
      rcases h.coherent k.page with hs | ⟨⟨k', hkm', hkp', hkc'⟩, g, hg, hdata'⟩
      · exact Or.inl (hk.safe _ _ id hs)
      · -- the pin released is not the one under which the page was changed
        have hne : k' ≠ k := by
          rintro rfl
          exact Bool.false_ne_true (hd hkc')
        rw [h.handle k hkm] at hg
        refine Or.inr ⟨⟨k', (List.mem_erase_of_ne hne).mpr hkm', hkp', hkc'⟩, k.frame, hlook, ?_⟩
        rw [hdata, Option.some.inj hg]
        exact hdata'

/-- Unpinning a page that nobody holds does nothing. -/
theorem Inv.unpinUnheld (h : s.Inv) {p : PageId} (d : Bool)
    (hp : ∀ k ∈ s.handles, k.page ≠ p) : s.apply (.unpinUnheld p d) = s := by
  have hsame : (s.pool.unpinPage p d).2 = s.pool := by
    unfold BufferPoolManager.unpinPage
    cases hl : s.pool.pageTable.lookup p with
    | none => rfl
    | some f =>
      have hzero : s.handles.countP (·.page = p) = 0 := by
        rw [List.countP_eq_zero]
        intro k hk hkp
        exact hp k hk (of_decide_eq_true hkp)
      have hcount : (s.pool.pages f).pinCount = 0 := by
        rw [h.pins p f hl, hzero]
        rfl
      dsimp only
      rw [if_pos hcount]
  simp only [apply, hsame]

/-- A page is changed under its handle. -/
theorem Inv.write (h : s.Inv) {k : Handle} (hkm : k ∈ s.handles) (data : PageData) :
    (s.apply (.write k data)).Inv := by
  have hlook := h.handle k hkm
  have hk : Kept IdealDisk.ops s.pool
      (s.pool.setPage k.frame { s.pool.pages k.frame with data := data }) (· = k.page)
      (· = k.page) := by
    refine ⟨⟨h.pool.inv.setData hlook data _ s.pool.disk, fun _ _ _ => trivial⟩, fun q x hq hs => ?_,
      pinsKept_setMapped h.pool.inv hlook _ s.pool.replacer s.pool.disk, fun _ _ _ hq => hq, rfl⟩
    exact safe_setMapped h.pool.inv hlook hq (fun _ hy => hy) hs
  have hself : (s.pool.setPage k.frame { s.pool.pages k.frame with data := data }).pages k.frame =
      { s.pool.pages k.frame with data := data } := by
    simp [setPage]
  refine h.update hk (fun g hg => ⟨hg, ?_⟩) (fun _ hl => hl) (fun q hq => ?_) (fun k' hkp => ?_)
    (fun q hq => ?_) (fun _ hu => hu) (fun k' hkm' hkp => ?_) (fun q g hq hg => ?_) (fun q hq => ?_)
  · by_cases hgf : g = k.frame <;> simp [setPage, hgf]
  · exact Function.update_of_ne hq _ _
  · rw [List.mem_cons]
    constructor
    · rintro (rfl | hm)
      · exact absurd rfl hkp
      · exact List.mem_of_mem_erase hm
    · exact fun hm => Or.inr ((List.mem_erase_of_ne (fun heq => hkp (by rw [heq]))).mpr hm)
  · rw [countP_cons_page, countP_erase_page hkm q]
  · show s.pool.pageTable.lookup k'.page = some k'.frame
    rcases List.mem_cons.mp hkm' with rfl | hkm'
    · exact hlook
    · exact h.handle k' (List.mem_of_mem_erase hkm')
  · subst hq
    have hg' : s.pool.pageTable.lookup k.page = some g := hg
    obtain ⟨hv, hu⟩ := h.valid k.page g hg'
    refine ⟨?_, hv, hu⟩
    rw [hlook] at hg'
    rw [← Option.some.inj hg', hself, countP_cons_page, ← countP_erase_page hkm]
    exact h.pins k.page k.frame hlook
  · subst hq
    refine Or.inr ⟨⟨_, List.mem_cons_self, rfl, rfl⟩, k.frame, hlook, ?_⟩
    rw [hself, Function.update_self]

/-- The order of the page table does not matter. -/
theorem Inv.rehash (h : s.Inv) {t : AList (fun _ : PageId => FrameId)}
    (ht : t.entries.Perm s.pool.pageTable.entries) : (s.apply (.rehash t)).Inv := by
  have hlook : ∀ p, t.lookup p = s.pool.pageTable.lookup p := fun p => AList.perm_lookup ht
  refine h.update_pool ⟨⟨h.pool.inv.rehash ht, fun _ _ _ => trivial⟩, fun q x _ hs => ?_,
    fun q f _ hq => ⟨fun _ => (hlook q).trans hq, fun _ => ⟨rfl, rfl⟩⟩,
    fun q f _ hq => (hlook q).symm.trans hq, rfl⟩ (fun g hg => ⟨hg, rfl⟩)
  exact ((PoolOp.rehash t).apply_spec h.pool ht trivial).2 q x id hs

/-- **Every step keeps the invariant.** -/
theorem Inv.step (h : s.Inv) (op : StoreOp) (he : s.Enabled op) : (s.apply op).Inv := by
  have L := IdealDisk.lawful
  cases op with
  | fetch p => exact h.fetch he
  | new fd => exact h.new he.1 he.2
  | unpin k d => exact h.unpin he.1 he.2
  | unpinUnheld p d =>
    rw [h.unpinUnheld d he]
    exact h
  | flush p => exact h.update_pool (flushPage_spec L h.pool p).1 (flushPage_free p)
  | flushAllPages fd =>
    exact h.update_pool (flushAllPages_spec L h.pool fd).2.1 (flushEntries_free _ _)
  | flushAllPage => exact h.update_pool (flushAllPage_spec L h.pool).2.1 (flushEntries_free _ _)
  | write k data => exact h.write he data
  | rehash t => exact h.rehash he

end Rules

end PageStore

/-- The invariant holds in every state reached. -/
theorem pageStoreSystem_inv {s : PageStore} (hs : pageStoreSystem.Reachable s) : s.Inv := by
  refine hs.invariant ?_ ?_
  · rintro s ⟨n, garbage, disk, rfl⟩
    exact PageStore.start_inv n garbage disk
  · rintro s op _ h ⟨he, rfl⟩
    exact h.step op he

/-- **The pool is a store.**  In every run, a `fetch_page` that returns a page returns the bytes last
    written to it, and after `flush_all_page` the disk holds the bytes of every page, but those that
    some client has created or changed under a pin it still holds. -/
theorem bufferPool_is_store {s : PageStore} (hs : pageStoreSystem.Reachable s) :
    (∀ p f, p.pageNo ≠ invalidPageId → (s.pool.fetchPage IdealDisk.ops p).1 = .ok (some f) →
      ((s.pool.fetchPage IdealDisk.ops p).2.pages f).data = s.store p) ∧
    ∀ p, (∀ h ∈ s.handles, h.page = p → h.changed = false) →
      (s.pool.flushAllPage IdealDisk.ops).2.disk.contents p = s.store p := by
  have h := pageStoreSystem_inv hs
  constructor
  · intro p f hp hf
    -- the frame returned holds the page in the state after the call
    have h' := h.fetch hp
    obtain ⟨-, -, hres⟩ := fetchPage_spec IdealDisk.lawful h.pool (p := p) trivial
      (fun _ f _ => h.safeReuse f)
      (fun _ => ⟨s.pool.disk.contents p, (IdealDisk.holds_iff _ _ _).mpr rfl⟩)
    rcases hres with ⟨hnone, -⟩ | ⟨g, hsome, hlook, -⟩
    · rw [hf] at hnone
      cases hnone
    · rw [hf] at hsome
      have hgf : f = g := by
        have := Except.ok.inj hsome
        exact Option.some.inj this
      subst hgf
      have hpool : (s.apply (.fetch p)).pool = (s.pool.fetchPage IdealDisk.ops p).2 := by
        simp only [PageStore.apply, hf]
      have hstore : (s.apply (.fetch p)).store = s.store := by
        simp only [PageStore.apply, hf]
      have := h'.data (p := p) (f := f) (by rw [hpool]; exact hlook)
      rw [hpool, hstore] at this
      exact this
  · intro p hp
    obtain ⟨-, hk, htable, -, hclean⟩ := flushAllPage_spec IdealDisk.lawful h.pool
    rcases h.coherent p with hsafe | ⟨⟨k, hkm, hkp, hkc⟩, -⟩
    · have hsafe' := hk.safe p _ id hsafe
      rw [← IdealDisk.holds_iff]
      cases hl : s.pool.pageTable.lookup p with
      | none =>
        rw [← htable] at hl
        exact (safe_of_uncached hl).mp hsafe'
      | some f =>
        exact hsafe'.holds_of_clean (by rw [htable]; exact hl) (hclean p f hl)
    · rw [hp k hkm hkp] at hkc
      cases hkc

/-- An enabled operation leads to a reachable state. -/
theorem PageStore.reachable_apply {s : PageStore} (hs : pageStoreSystem.Reachable s) (op : StoreOp)
    (he : s.Enabled op) : pageStoreSystem.Reachable (s.apply op) := .step hs ⟨he, rfl⟩

/-- A disk of sevens. -/
def IdealDisk.sevens : IdealDisk := { contents := fun _ _ => 7, fd2pageno := fun _ => 0 }

/-- A pool of one frame: create page 0, release it as dirty, and let page 1 evict it. -/
def createAndEvict : PageStore :=
  ((((PageStore.start 1 (fun _ => 0) .sevens).apply (.new 3)).apply
    (.unpin ⟨⟨3, 0⟩, 0, true⟩ true)).apply (.fetch ⟨3, 1⟩)).apply (.unpin ⟨⟨3, 1⟩, 0, false⟩ false)

/-- After the eviction page 0 is fetched with the zeros it was created with. -/
theorem bufferPool_is_store_after_eviction :
    (createAndEvict.pool.fetchPage IdealDisk.ops ⟨3, 0⟩).1 = .ok (some 0) ∧
    ((createAndEvict.pool.fetchPage IdealDisk.ops ⟨3, 0⟩).2.pages 0).data = PageData.zero := by
  have hstart : pageStoreSystem.Reachable (PageStore.start 1 (fun _ => 0) .sevens) :=
    .init ⟨1, fun _ => 0, .sevens, rfl⟩
  have hnew := PageStore.reachable_apply hstart (.new 3) ⟨fun hu => hu, by decide⟩
  have hunpin := PageStore.reachable_apply hnew (.unpin ⟨⟨3, 0⟩, 0, true⟩ true)
    ⟨List.mem_cons_self, fun _ => rfl⟩
  have hfetch := PageStore.reachable_apply hunpin (.fetch ⟨3, 1⟩) (by show (1 : Int) ≠ -1; decide)
  have hreach : pageStoreSystem.Reachable createAndEvict :=
    PageStore.reachable_apply hfetch (.unpin ⟨⟨3, 1⟩, 0, false⟩ false)
      ⟨List.mem_cons_self, fun hc => by cases hc⟩
  have hf : (createAndEvict.pool.fetchPage IdealDisk.ops ⟨3, 0⟩).1 = .ok (some 0) := rfl
  refine ⟨hf, ?_⟩
  rw [(bufferPool_is_store hreach).1 ⟨3, 0⟩ 0 (by decide) hf]
  rfl

/-- `flush_all_page` skips a page that has been created but not yet released: the pin that will
    mark it dirty is still held. -/
theorem flushAllPage_skips_page_under_creation :
    ∃ s, pageStoreSystem.Reachable s ∧
      ∃ p, (s.pool.flushAllPage IdealDisk.ops).2.disk.contents p ≠ s.store p := by
  refine ⟨(PageStore.start 1 (fun _ => 0) .sevens).apply (.new 3),
    PageStore.reachable_apply (.init ⟨1, fun _ => 0, .sevens, rfl⟩) (.new 3)
      ⟨fun hu => hu, by decide⟩, ⟨3, 0⟩, fun heq => ?_⟩
  have hbyte := congrFun heq ⟨0, by decide⟩
  exact absurd hbyte (by decide)

end Rmdb
