import Rmdb.Record.PlacedInsert
import Rmdb.Record.Refinement
import Rmdb.Record.RmScan

namespace Rmdb

open Lib DiskManager RmProgram

/-!
# A scan from the first record to the end (`record/rm_scan.cpp`)

The loop of a client constructs an `RmScan` and calls `next` until `is_end`.  It ends, and on its way it
meets the records of the file in the order of their pages and slots.

* `RmScan.pairwise_rids` — the order; `RmProgram.scanAll` — the loop, as a program;
* `rmFiles` — a file after any calls, refused and failing ones included;
* `scanAll_visits` — the loop on each of these files; `tableSystem_scanAll` — and over the buffer pool.
-/

/-- The order of the record ids: by page, then by slot. -/
def Rid.Before (a b : Rid) : Prop := a.pageNo < b.pageNo ∨ a.pageNo = b.pageNo ∧ a.slotNo < b.slotNo

/-- No record stands before itself. -/
theorem Rid.Before.ne {a b : Rid} (hab : a.Before b) : a ≠ b := by
  rintro rfl
  rcases hab with hlt | ⟨-, hlt⟩
  · exact Int.lt_irrefl _ hlt
  · exact Int.lt_irrefl _ hlt

namespace RmScan

variable {h : RmFileHdr} {V : Int → PageData}

/-- The records of the pages from `n` on are listed in order. -/
theorem pairwise_ridsFrom (m : Nat) (n k : Int) : (ridsFrom h V m n k).Pairwise Rid.Before := by
  induction m generalizing n k with
  | zero => exact .nil
  | succ m ih =>
    rw [ridsFrom, List.pairwise_append]
    refine ⟨?_, ih (n + 1) (-1), fun a ha b hb => Or.inl ?_⟩
    · -- the slots of one page
      have hsorted : (usedSlots h (V n) k).Pairwise (· < ·) := List.pairwise_lt_range.filter _
      refine List.pairwise_map.mpr (hsorted.imp fun hlt => Or.inr ⟨rfl, ?_⟩)
      exact Int.ofNat_lt.mpr hlt
    · -- a record of this page, and one of a later page
      obtain ⟨i, -, rfl⟩ := List.mem_map.mp ha
      have hpage := (mem_ridsFrom.mp hb).1
      dsimp only
      omega

/-- The records of a file are listed in order. -/
theorem pairwise_rids : (rids h V).Pairwise Rid.Before := pairwise_ridsFrom _ _ _

/-- Page 0 has no records. -/
theorem one_le_of_mem_rids {rid : Rid} (hrid : rid ∈ rids h V) : 1 ≤ rid.pageNo := by
  unfold rids at hrid
  exact (mem_ridsFrom.mp hrid).1

/-- One turn of the loop of `next`. -/
theorem next_eq (rid : Rid) : next h V rid =
    if rid.pageNo < h.numPages then
      if Bitmap.nextBit true (V rid.pageNo) h.numRecordsPerPage rid.slotNo < h.numRecordsPerPage then
        ⟨rid.pageNo, Bitmap.nextBit true (V rid.pageNo) h.numRecordsPerPage rid.slotNo⟩
      else next h V ⟨rid.pageNo + 1, -1⟩
    else ⟨rmNoPage, -1⟩ := by
  unfold next
  by_cases hlt : rid.pageNo < h.numPages
  · obtain ⟨m, hm⟩ : ∃ m, (h.numPages - rid.pageNo).toNat = m + 1 :=
      ⟨(h.numPages - rid.pageNo).toNat - 1, by omega⟩
    have hrest : (h.numPages - (rid.pageNo + 1)).toNat = m := by omega
    rw [hm, if_pos hlt, nextFrom, if_pos hlt, hrest]
  · have hzero : (h.numPages - rid.pageNo).toNat = 0 := by omega
    rw [hzero, if_neg hlt, nextFrom]

end RmScan

namespace RmProgram

/-- `for (; !scan.is_end(); scan.next())`, which keeps the record ids; at most so many turns, and so many
    rounds of the loop of each `next`. -/
def scanLoop (rounds : Nat) : Nat → Rid → RmProgram (Option (List Rid))
  | 0, _ => return none
  | turns + 1, rid =>
    if RmScan.isEnd rid then return some []
    else do
      match ← scanNext rounds rid with
      | none => return none
      | some rid' => return (← scanLoop rounds turns rid').map (rid :: ·)

/-- `RmScan scan(file_handle)`, and the loop. -/
def scanAll (rounds : Nat) : RmProgram (Option (List Rid)) := do
  match ← scanNext rounds ⟨1, -1⟩ with
  | none => return none
  | some rid => scanLoop rounds rounds rid

/-! ### The loops -/

section Loops

variable {σ α β : Type} {a : (c : RmCmd) → σ → c.Answer × σ} {I : σ → Prop} {h : RmFileHdr}
  {V : Int → PageData} {s s' : σ}

/-- A page is fetched, read and unpinned, and `k` goes on with its bytes. -/
def visitPage (n : Int) (k : PageData → RmProgram α) : RmProgram α := do
  let page ← fetchPageHandle n
  let x : PageData ← ask (.read page)
  let pageNo : Int ← ask (.pageNo page)
  unpinPage pageNo false
  k x

/-- These answers show the header and the pages, one after the other, and keep `I`. -/
structure Shows (a : (c : RmCmd) → σ → c.Answer × σ) (I : σ → Prop) (h : RmFileHdr) (V : Int → PageData) :
    Prop where
  hdr : ∀ s, I s → a .fileHdr s = (h, s)
  visit : ∀ s, I s → ∀ n, 1 ≤ n → n < h.numPages → ∃ s', I s' ∧
    ∀ k : PageData → RmProgram (Option Rid), (visitPage n k).run.exec a s = (k (V n)).run.exec a s'

/-- A part that succeeds hands its state on. -/
theorem exec_bind_ok {x : RmProgram α} {k : α → RmProgram β} {r : α} (hx : x.run.exec a s = (.ok r, s')) :
    (x >>= k).run.exec a s = (k r).run.exec a s' := by
  refine (Program.exec_bindE (I := rmInterface) (x := x) (k := k) a s).trans ?_
  rw [hx]

/-- A part that fails ends the whole. -/
theorem exec_bind_error {x : RmProgram α} {k : α → RmProgram β} {e : ContextError}
    (hx : x.run.exec a s = (.error e, s')) : (x >>= k).run.exec a s = (.error e, s') := by
  refine (Program.exec_bindE (I := rmInterface) (x := x) (k := k) a s).trans ?_
  rw [hx]

/-- A round of the loop of `RmScan::next`. -/
theorem scanNext_succ (rounds : Nat) (rid : Rid) : scanNext (rounds + 1) rid = (do
    let hdr : RmFileHdr ← ask .fileHdr
    if rid.pageNo < hdr.numPages then
      visitPage rid.pageNo fun x =>
        if Bitmap.nextBit true x hdr.numRecordsPerPage rid.slotNo < hdr.numRecordsPerPage then
          return some ⟨rid.pageNo, Bitmap.nextBit true x hdr.numRecordsPerPage rid.slotNo⟩
        else scanNext rounds ⟨rid.pageNo + 1, -1⟩
    else return some ⟨rmNoPage, -1⟩) := rfl

/-- **`next` comes to its end.** -/
theorem Shows.scanNext (ha : Shows a I h V) (rounds : Nat) {rid : Rid} (h1 : 1 ≤ rid.pageNo)
    (hr : (h.numPages - rid.pageNo).toNat < rounds) (hs : I s) :
    ∃ s', I s' ∧ (scanNext rounds rid).run.exec a s = (.ok (some (RmScan.next h V rid)), s') := by
  induction rounds generalizing rid s with
  | zero => omega
  | succ rounds ih =>
    rw [RmScan.next_eq]
    have hhdr : (ask .fileHdr).run.exec a s = (.ok h, s) := by
      show (Except.ok (a .fileHdr s).1, (a .fileHdr s).2) = _
      rw [ha.hdr s hs]
    rw [scanNext_succ]
    by_cases hlt : rid.pageNo < h.numPages
    · obtain ⟨s₁, hs₁, hvisit⟩ := ha.visit s hs rid.pageNo h1 hlt
      rw [if_pos hlt]
      split
      · rename_i hslot
        refine ⟨s₁, hs₁, (exec_bind_ok hhdr).trans ?_⟩
        rw [if_pos hlt, hvisit, if_pos hslot]
        rfl
      · -- nothing on this page: the next one
        rename_i hslot
        have hbehind : 1 ≤ (⟨rid.pageNo + 1, -1⟩ : Rid).pageNo := by
          dsimp only
          omega
        obtain ⟨s₂, hs₂, hrest⟩ := ih hbehind (by dsimp only; omega) hs₁
        refine ⟨s₂, hs₂, (exec_bind_ok hhdr).trans ?_⟩
        rw [if_pos hlt, hvisit, if_neg hslot]
        exact hrest
    · refine ⟨s, hs, (exec_bind_ok hhdr).trans ?_⟩
      rw [if_neg hlt, if_neg hlt]
      rfl

/-- **The loop** goes through what the cursor visits. -/
theorem Shows.scanLoop (ha : Shows a I h V) {rounds : Nat} (hr : h.numPages ≤ rounds) (h0 : 0 < rounds)
    {st : Rid} {l : List Rid} (hv : (RmScan.cursor h V ()).Visits st l) (hl : ∀ rid ∈ l, 1 ≤ rid.pageNo)
    {turns : Nat} (hturns : l.length < turns) (hs : I s) :
    ∃ s', I s' ∧ (scanLoop rounds turns st).run.exec a s = (.ok (some l), s') := by
  obtain ⟨turns, rfl⟩ : ∃ t, turns = t + 1 := ⟨turns - 1, by omega⟩
  induction hv generalizing turns s with
  | @done st hend =>
    have hend' : RmScan.isEnd st = true := hend
    rw [RmProgram.scanLoop, if_pos hend']
    exact ⟨s, hs, rfl⟩
  | @item st st' rid l hend hitem hnext hrest ih =>
    obtain rfl : st = rid := Except.ok.inj hitem
    obtain rfl : RmScan.next h V st = st' := Except.ok.inj hnext
    have h1 := hl st List.mem_cons_self
    have hend' : ¬ RmScan.isEnd st = true := by
      rw [show RmScan.isEnd st = false from hend]
      exact Bool.false_ne_true
    rw [List.length_cons] at hturns
    obtain ⟨turns, rfl⟩ : ∃ t, turns = t + 1 := ⟨turns - 1, by omega⟩
    obtain ⟨s₁, hs₁, hgo⟩ := ha.scanNext rounds h1 (by omega) hs
    obtain ⟨s₂, hs₂, hloop⟩ := ih (fun rid hrid => hl rid (List.mem_cons_of_mem _ hrid)) hs₁ turns
      (by omega)
    refine ⟨s₂, hs₂, ?_⟩
    rw [RmProgram.scanLoop, if_neg hend', exec_bind_ok hgo]
    dsimp only
    rw [exec_bind_ok hloop]
    rfl

/-- **The whole scan.** -/
theorem Shows.scanAll (ha : Shows a I h V) {rounds : Nat} (hr : h.numPages ≤ rounds)
    (hlen : (RmScan.rids h V).length < rounds) (hs : I s) :
    ∃ s', I s' ∧ (scanAll rounds).run.exec a s = (.ok (some (RmScan.rids h V)), s') := by
  have hfirst : 1 ≤ (⟨1, -1⟩ : Rid).pageNo := Int.le_refl 1
  obtain ⟨s₁, hs₁, hstart⟩ := ha.scanNext rounds hfirst (by dsimp only; omega) hs
  obtain ⟨s₂, hs₂, hloop⟩ := ha.scanLoop hr (by omega) (RmScan.visits ())
    (fun _ => RmScan.one_le_of_mem_rids) hlen hs₁
  refine ⟨s₂, hs₂, ?_⟩
  unfold RmProgram.scanAll
  rw [exec_bind_ok hstart]
  exact hloop

end Loops

/-! ### Calls that are refused -/

/-- A lock is refused, a page is not had, or not written. -/
def Refusal : (c : RmCmd) → c.Answer → Prop
  | .lock _ _, granted => granted = false
  | .fetchPage _, f => ∀ g, f ≠ .ok (some g)
  | .newPage, f => ∀ g, f ≠ .ok (some g)
  | .flushPage _, _ => True
  | .writeFileHdr, _ => True
  | _, _ => False

/-- The pages answer, or they refuse and stay as they are. -/
def Answers (a : (c : RmCmd) → RmPages → c.Answer × RmPages) : Prop :=
  ∀ c s, a c s = pagesAnswer c s ∨ Refusal c (a c s).1 ∧ (a c s).2 = s

/-- The header counts at least its own page, and `k` pages fewer than the file has. -/
def Sized (k : Nat) (s : RmPages) : Prop := 1 ≤ s.hdr.numPages ∧ s.hdr.numPages + k ≤ s.nextPage

/-- Fewer pages that the header does not count. -/
theorem Sized.mono {j k : Nat} {s : RmPages} (hs : Sized k s) (hjk : j ≤ k) : Sized j s := by
  obtain ⟨h1, h2⟩ := hs
  exact ⟨h1, by omega⟩

section Grows

variable {α β : Type} {i : Nat} {P : α → Nat} {Q : β → Nat}

/-- From `i` pages that the header does not count to as many as the result says, whatever is refused on
    the way. -/
def Grows (i : Nat) (x : RmProgram α) (P : α → Nat) : Prop :=
  ∀ a, Answers a → ∀ s, Sized i s →
    match x.run.exec a s with
    | (.ok r, s') => Sized (P r) s'
    | (.error _, s') => Sized 0 s'

/-- A result costs no page. -/
theorem Grows.pure {r : α} (hr : P r ≤ i) : Grows i (Pure.pure r) P := fun _ _ _ hs => hs.mono hr

/-- An error costs no page. -/
theorem Grows.throw (e : ContextError) : Grows i (throw e : RmProgram α) P :=
  fun _ _ _ hs => hs.mono (Nat.zero_le _)

/-- One part after the other. -/
theorem Grows.bind {x : RmProgram α} {k : α → RmProgram β} (hx : Grows i x P)
    (hk : ∀ r, Grows (P r) (k r) Q) : Grows i (x >>= k) Q := by
  intro a ha s hs
  have hrun := hx a ha s hs
  rcases hx' : x.run.exec a s with ⟨e | r, s'⟩
  · rw [hx'] at hrun
    rw [exec_bind_error hx']
    exact hrun
  · rw [hx'] at hrun
    rw [exec_bind_ok hx']
    exact hk r a ha s' hrun

/-- One command. -/
theorem Grows.ask {c : RmCmd} {P : c.Answer → Nat}
    (hok : ∀ s, Sized i s → Sized (P (pagesAnswer c s).1) (pagesAnswer c s).2)
    (hno : ∀ r, Refusal c r → P r ≤ i) : Grows i (ask c) P := by
  intro a ha s hs
  show Sized (P (a c s).1) (a c s).2
  rcases ha c s with heq | ⟨hr, hstay⟩
  · rw [heq]
    exact hok s hs
  · rw [hstay]
    exact hs.mono (hno _ hr)

/-! ### The operations -/

/-- A command that does not touch the counters. -/
theorem grows_ask {c : RmCmd} (hc : ∀ s, Sized i s → Sized i (pagesAnswer c s).2) :
    Grows i (ask c) fun _ => i := .ask hc fun _ _ => Nat.le_refl i

/-- A lock, granted or refused. -/
theorem grows_lock (exclusive : Bool) (rid : Rid) : Grows i (lock exclusive rid) fun _ => i := by
  refine .bind (grows_ask fun _ hs => hs) fun granted => ?_
  show Grows i (if granted = true then _ else _) _
  split
  · exact .pure (Nat.le_refl i)
  · exact .throw _

/-- An answer of the disk, thrown if it is an error. -/
theorem grows_orThrow {γ : Type} {P : γ → Nat} {o : Except DiskError γ} (ho : ∀ r, o = .ok r → P r ≤ i) :
    Grows i (orThrow o) P := by
  cases o with
  | error e => exact .throw _
  | ok r => exact .pure (ho r rfl)

/-- `fetch_page_handle` makes no page. -/
theorem grows_fetchPageHandle (n : Int) : Grows i (fetchPageHandle n) fun _ => i := by
  unfold fetchPageHandle
  split
  · exact .throw _
  · refine .bind (.bind (grows_ask fun _ hs => hs) fun o => grows_orThrow fun _ _ => Nat.le_refl i)
      fun o => ?_
    cases o with
    | none => exact .throw _
    | some f => exact .pure (Nat.le_refl i)

/-- A page is read. -/
theorem grows_read (page : RmPageHandle) : Grows i (ask (.read page)) fun _ => i :=
  grows_ask fun _ hs => hs

/-- A page is changed in its frame. -/
theorem grows_write (page : RmPageHandle) (g : PageData → PageData) :
    Grows i (ask (.write page g)) fun _ => i := grows_ask fun _ hs => hs

/-- The file header is read. -/
theorem grows_fileHdr : Grows i (ask .fileHdr) fun _ => i := grows_ask fun _ hs => hs

/-- The page number is read. -/
theorem grows_pageNo (page : RmPageHandle) : Grows i (ask (.pageNo page)) fun _ => i :=
  grows_ask fun _ hs => hs

/-- A page is unpinned. -/
theorem grows_unpinPage (n : Int) (isDirty : Bool) : Grows i (unpinPage n isDirty) fun _ => i :=
  grows_ask fun _ hs => hs

/-- The file header is written to disk. -/
theorem grows_writeFileHdr : Grows i writeFileHdr fun _ => i :=
  .bind (grows_ask fun _ hs => hs) fun _ => grows_orThrow fun _ _ => Nat.le_refl i

/-- Only `num_pages` counts. -/
theorem grows_setFirstFree (n : Int) :
    Grows i (ask (.setFileHdr fun h => { h with firstFreePageNo := n })) fun _ => i :=
  grows_ask fun _ hs => hs

/-- The pages that the header has not counted when `new_page` has answered. -/
def pagesAhead (i : Nat) : Except DiskError (Option (FrameId × PageId)) → Nat
  | .ok (some _) => i + 1
  | _ => i

/-- A new page, until the header counts it. -/
theorem grows_newPage : Grows i newPage fun o => if o.isSome then i + 1 else i := by
  refine .bind (P := pagesAhead i) (.ask ?_ ?_) fun o => ?_
  · rintro s ⟨h1, h2⟩
    refine ⟨h1, ?_⟩
    show s.hdr.numPages + (i + 1 : Nat) ≤ s.nextPage + 1
    omega
  · intro o ho
    rcases o with e | _ | g
    · exact Nat.le_refl i
    · exact Nat.le_refl i
    · exact absurd rfl (ho g)
  · refine grows_orThrow fun r hr => ?_
    subst hr
    cases r with
    | none => exact Nat.le_refl i
    | some g => exact Nat.le_refl _

/-- `create_new_page_handle` makes a page and counts it. -/
theorem grows_createNewPageHandle : Grows i createNewPageHandle fun _ => i := by
  refine .bind grows_newPage fun o => ?_
  cases o with
  | none => exact .throw _
  | some fp =>
    obtain ⟨f, p⟩ := fp
    refine .bind grows_fileHdr fun hdr => .bind (grows_write _ _) fun _ =>
      .bind (.bind (grows_ask fun _ hs => hs) fun _ => grows_orThrow fun _ _ => Nat.le_refl _) fun _ =>
        .bind (P := fun _ => i) (.ask ?_ fun _ hr => hr.elim) fun _ =>
          .bind grows_writeFileHdr fun _ => .pure (Nat.le_refl i)
    rintro s ⟨h1, h2⟩
    simp only [Option.isSome_some, if_true] at h2
    constructor
    · show 1 ≤ s.hdr.numPages + 1
      omega
    · show s.hdr.numPages + 1 + i ≤ s.nextPage
      omega

/-- `create_page_handle` takes a page from the free list or makes one. -/
theorem grows_createPageHandle : Grows i createPageHandle fun _ => i := by
  refine .bind grows_fileHdr fun hdr => ?_
  split
  · exact grows_createNewPageHandle
  · exact grows_fetchPageHandle _

/-- A full page leaves the free list. -/
theorem grows_unlinkIfFull (page : RmPageHandle) : Grows i (unlinkIfFull page) fun _ => i := by
  refine .bind grows_fileHdr fun hdr => .bind (grows_read page) fun x => ?_
  split
  · exact .bind (grows_setFirstFree _) fun _ => grows_writeFileHdr
  · exact .pure (Nat.le_refl i)

/-- A page joins the free list again. -/
theorem grows_linkIfFull (page : RmPageHandle) : Grows i (linkIfFull page) fun _ => i := by
  refine .bind grows_fileHdr fun hdr => .bind (grows_read page) fun x => ?_
  split
  · exact .bind grows_fileHdr fun _ => .bind (grows_pageNo page) fun _ => .bind (grows_write page _)
      fun _ => .bind (grows_setFirstFree _) fun _ => grows_writeFileHdr
  · exact .pure (Nat.le_refl i)

/-- `is_record` makes no page. -/
theorem grows_isRecord (rid : Rid) : Grows i (isRecord rid) fun _ => i :=
  .bind (grows_fetchPageHandle _) fun page => .bind (grows_read page) fun _ => .pure (Nat.le_refl i)

/-- `RmScan::next` makes no page. -/
theorem grows_scanNext (rounds : Nat) (rid : Rid) : Grows i (scanNext rounds rid) fun _ => i := by
  induction rounds generalizing rid with
  | zero => exact .pure (Nat.le_refl i)
  | succ rounds ih =>
    refine .bind grows_fileHdr fun hdr => ?_
    dsimp only
    split
    · refine .bind (grows_fetchPageHandle _) fun page => .bind (grows_read page) fun x =>
        .bind (grows_pageNo page) fun n => .bind (grows_unpinPage n false) fun _ => ?_
      split
      · exact .pure (Nat.le_refl i)
      · exact ih _
    · exact .pure (Nat.le_refl i)

/-- **Every call** leaves a header that counts no page the file does not have. -/
theorem grows_program (c : RmCall) : Grows i c.program fun _ => i := by
  have hdone : Grows i (Pure.pure ()) fun _ => i := .pure (Nat.le_refl i)
  cases c with
  | isRecord rid => exact .bind (grows_isRecord rid) fun _ => hdone
  | getRecord rid =>
    exact .bind (.bind (grows_lock false rid) fun _ => .bind (grows_fetchPageHandle _) fun page =>
      .bind grows_fileHdr fun _ => .bind (grows_read page) fun _ => .bind (grows_unpinPage _ true)
        fun _ => .pure (Nat.le_refl i)) fun _ => hdone
  | insertRecord buf lsn =>
    exact .bind (.bind grows_createPageHandle fun page => .bind grows_fileHdr fun _ =>
      .bind (grows_read page) fun _ => .bind (grows_pageNo page) fun _ => .bind (grows_lock true _)
        fun _ => .bind (grows_write page _) fun _ => .bind (grows_unlinkIfFull page) fun _ =>
          .bind (grows_pageNo page) fun _ => .bind (grows_write page _) fun _ =>
            .bind (grows_unpinPage _ true) fun _ => .pure (Nat.le_refl i)) fun _ => hdone
  | insertRecordAt rid buf =>
    refine .bind (grows_fetchPageHandle _) fun page => .bind (grows_isRecord rid) fun b => ?_
    have hset : Grows i (do
        let hdr ← ask .fileHdr
        ask (.write page fun x => PageData.setSlot hdr x rid.slotNo.toNat buf)
        unpinPage rid.pageNo true) fun _ => i :=
      .bind grows_fileHdr fun _ => .bind (grows_write page _) fun _ => grows_unpinPage _ true
    cases b with
    | false => exact .bind (grows_write page _) fun _ => hset
    | true => exact hset
  | deleteRecord rid lsn =>
    exact .bind (grows_lock true rid) fun _ => .bind (grows_fetchPageHandle _) fun page =>
      .bind (grows_linkIfFull page) fun _ => .bind (grows_write page _) fun _ =>
        .bind (grows_write page _) fun _ => .bind (grows_pageNo page) fun _ => grows_unpinPage _ true
  | updateRecord rid buf lsn =>
    exact .bind (grows_lock true rid) fun _ => .bind (grows_fetchPageHandle _) fun page =>
      .bind grows_fileHdr fun _ => .bind (grows_write page _) fun _ =>
        .bind (grows_unpinPage _ true) fun _ => grows_write page _
  | getPageLsn n =>
    exact .bind (.bind (grows_fetchPageHandle n) fun page => .bind (grows_read page) fun _ =>
      .bind (grows_unpinPage n false) fun _ => .pure (Nat.le_refl i)) fun _ => hdone
  | scanNext rounds rid => exact .bind (grows_scanNext rounds rid) fun _ => hdone

end Grows

/-- The pages of a file, while nothing changes them. -/
theorem shows_pages {s : RmPages} (hs : Sized 0 s) : Shows pagesAnswer (· = s) s.hdr s.page := by
  obtain ⟨-, hle⟩ := hs
  constructor
  · rintro _ rfl
    rfl
  · rintro s' rfl n h1 hn
    refine ⟨s', rfl, fun k => ?_⟩
    have hfetch := onPages_fetchPageHandle (by omega : 0 ≤ n) (by omega : n < s'.nextPage)
    exact exec_bind_ok hfetch

end RmProgram

/-! ### Every file -/

/-- What happens to a record file: a call, or it is closed and opened again. -/
inductive RmFileEvent where
  | call (c : RmCall)
  | reopen (fd : Int)

/-- **A file of records of `r` bytes** and its calls in any order, on any pages and slots.  A call may be
    refused its locks and pages and end with an exception; what it did before stays. -/
def rmFiles (r : Nat) : TransitionSystem RmPages RmFileEvent where
  init s := 1 ≤ r ∧ r ≤ 512 ∧ s.hdr = RmFileHdr.create r ∧ s.nextPage = 1
  step s e s' :=
    match e with
    | .call c => ∃ a, Answers a ∧ s' = (c.program.run.exec a s).2
    | .reopen fd => s' = { s with
        fd := fd
        nextPage := s.hdr.numPages }

/-- In every reachable state the header counts no page that the file does not have. -/
theorem sized_of_reachable {r : Nat} {s : RmPages} (hs : (rmFiles r).Reachable s) : Sized 0 s := by
  refine hs.invariant (fun s hinit => ?_) fun s e s' h hstep => ?_
  · obtain ⟨-, -, hhdr, hnext⟩ := hinit
    have hpages : s.hdr.numPages = 1 := by
      rw [hhdr]
      rfl
    exact ⟨by omega, by omega⟩
  · cases e with
    | call c =>
      obtain ⟨a, ha, rfl⟩ := hstep
      have hrun := grows_program (i := 0) c a ha s h
      split at hrun
      · rename_i hx
        rw [hx]
        exact hrun
      · rename_i hx
        rw [hx]
        exact hrun
    | reopen fd =>
      subst hstep
      exact ⟨h.1, by show s.hdr.numPages + (0 : Nat) ≤ s.hdr.numPages; omega⟩

/-- **A scan of any record file comes to its end**, leaves the file as it is, and has met exactly the
    record ids of the records, each once, page by page and slot by slot. -/
theorem scanAll_visits {r : Nat} {s : RmPages} (hs : (rmFiles r).Reachable s) :
    ∃ l, (∃ n, ∀ rounds, n ≤ rounds → onPages (scanAll rounds) s = (.ok (some l), s)) ∧
      l.Pairwise Rid.Before ∧ l.Nodup ∧ ∀ rid, rid ∈ l ↔ (contents s.hdr s.page rid).isSome = true := by
  have hsized := sized_of_reachable hs
  refine ⟨RmScan.rids s.hdr s.page,
    ⟨s.hdr.numPages.toNat + (RmScan.rids s.hdr s.page).length + 1, fun rounds hr => ?_⟩,
    RmScan.pairwise_rids, RmScan.pairwise_rids.imp Rid.Before.ne, fun rid => RmScan.mem_rids hsized.1⟩
  have hrounds : s.hdr.numPages ≤ (rounds : Int) := by omega
  obtain ⟨s', rfl, hrun⟩ := (shows_pages hsized).scanAll hrounds (by omega) rfl
  exact hrun

/-- Runs may be continued. -/
theorem rmFiles_after {r : Nat} {s : RmPages} (cs : List RmCall) (hs : (rmFiles r).Reachable s) :
    (rmFiles r).Reachable (s.after cs) := by
  induction cs generalizing s with
  | nil => exact hs
  | cons c cs ih => exact ih (hs.step (a := .call c) ⟨pagesAnswer, fun _ _ => Or.inl rfl, rfl⟩)

/-- Two records in an empty file. -/
theorem scanAll_visits_two_records : ∃ s l, (rmFiles 512).Reachable s ∧
    (∃ n, ∀ rounds, n ≤ rounds → onPages (scanAll rounds) s = (.ok (some l), s)) ∧
    (⟨1, 0⟩ : Rid) ∈ l ∧ (⟨1, 1⟩ : Rid) ∈ l ∧ (⟨1, 2⟩ : Rid) ∉ l := by
  have hreach : (rmFiles 512).Reachable
      (emptyPages.after [.insertRecord someRecord 0, .insertRecord someRecord 0]) :=
    rmFiles_after _ (.init ⟨by decide, by decide, rfl, rfl⟩)
  obtain ⟨l, hrun, -, -, hmem⟩ := scanAll_visits hreach
  refine ⟨_, l, hreach, hrun, (hmem _).mpr ?_, (hmem _).mpr ?_, fun hc => ?_⟩
  · decide +kernel
  · decide +kernel
  · have hsome := (hmem _).mp hc
    revert hsome
    decide +kernel

/-! ### Over the buffer pool -/

section Pool

open BufferPoolManager

/-- A page that is fetched, and released as it is. -/
theorem idle_fetch_unpin {δ : Type} {D : DiskOps δ} {b : BufferPoolManager δ} {fd n m : Int}
    {V : Int → PageData} (L : D.Lawful) (h : Idle D b fd n V) (h1 : 1 ≤ m) (h2 : m < n)
    (ha : D.Addressable b.disk ⟨fd, m⟩) : ∃ f b', b.fetchPage D ⟨fd, m⟩ = (.ok (some f), b') ∧
      (b'.pages f).data = V m ∧ (b'.pages f).id.pageNo = m ∧
      Idle D (b'.unpinPage ⟨fd, m⟩ false).2 fd n V := by
  obtain ⟨f, b', hfetch, hheld⟩ := h.fetch L h1 h2 ha
  have hsafe : Safe D b ⟨fd, m⟩ (V m) := h.safe m id h1 h2
  obtain ⟨hk, -⟩ := fetchPage_spec L h.ok ha (fun _ g _ => h.safeReuse g)
    (fun hu => ⟨V m, (safe_of_uncached hu).mp hsafe⟩)
  rw [hfetch] at hk
  refine ⟨f, b', hfetch, hheld.data, ?_, ?_⟩
  · rw [(hheld.others.ok.inv.mapped _ f hheld.look).2]
  · obtain ⟨hk', hres⟩ := unpinPage_spec hheld.others.ok ⟨fd, m⟩ false
    obtain ⟨-, hlook, -, hpin, -⟩ := hres f hheld.look (by rw [hheld.pin]; decide)
    have hothers := hheld.others.kept hk' (unpinPage_free _ _) (Int.le_refl n) (· = m) (fun _ => id)
      (fun k hkm heq => hkm (PageId.mk.inj heq).2)
      (fun p g hp _ => by rw [hp]; exact hheld.others.cached _ f hheld.look) (fun _ _ => id)
      (fun _ _ => id)
    refine ⟨hothers.ok, hothers.size, fun k g _ hg => ?_, hothers.free, hothers.cached,
      fun k _ hk1 hk2 => hk'.safe _ _ id (hk.safe _ _ id (h.safe k id hk1 hk2))⟩
    by_cases hkm : k = m
    · subst hkm
      rw [hlook] at hg
      rw [← Option.some.inj hg, hpin, hheld.pin]
      rfl
    · exact hothers.pins k g hkm hg

variable {s : RmFileHandle} {path : String} {others : List (Int × String)} {V : Int → PageData}
  {chain : List Int} (context : RmContext)

/-- **The pool shows the pages of the file.** -/
theorem shows_ready : RmProgram.Shows (answer context)
    (fun s' => s'.fileHdr = s.fileHdr ∧ s'.Ready path others V chain) s.fileHdr V := by
  constructor
  · rintro s' ⟨hhdr, -⟩
    rw [← hhdr]
    rfl
  · rintro s' ⟨hhdr, h⟩ n h1 h2
    rw [← hhdr] at h2
    have hle := h.le
    obtain ⟨f, b', hfetch, hdata, hno, hidle⟩ := idle_fetch_unpin lawful h.idle h1 h2
      (h.disk.addressable (by omega) (by omega))
    have hdisk := fetchPage_disk keptByWrites_open h.idle.ok.inv (fun _ _ _ => trivial) h.disk ⟨s'.fd, n⟩
    rw [hfetch] at hdisk
    refine ⟨{ s' with pool := (b'.unpinPage ⟨s'.fd, n⟩ false).2 }, ⟨hhdr, h.inv, hidle, ?_, h.le⟩,
      fun k => ?_⟩
    · show OpenFile (b'.unpinPage _ false).2.disk _ _ _ _
      rw [unpinPage_disk]
      exact hdisk
    · have hgot : (fetchPageHandle n).run.exec (answer context) s' = (.ok ⟨f, n⟩, { s' with pool := b' }) := by
        have hpage : (fetchPage n).run.exec (answer context) s' = (.ok (some f), { s' with pool := b' }) := by
          show (orThrow (s'.pool.fetchPage ops ⟨s'.fd, n⟩).1).run.exec (answer context)
            { s' with pool := (s'.pool.fetchPage ops ⟨s'.fd, n⟩).2 } = _
          rw [hfetch]
          rfl
        unfold fetchPageHandle
        rw [if_neg (by simp only [invalidPageId]; omega), exec_bind_ok hpage]
        rfl
      refine (exec_bind_ok hgot).trans ?_
      show (k (b'.pages f).data).run.exec (answer context)
        { s' with pool := (b'.unpinPage ⟨s'.fd, (b'.pages f).id.pageNo⟩ false).2 } = _
      rw [hdata, hno]

/-- A table file that returns from its calls keeps the invariant. -/
theorem tableSystem_inv {r : Int} {t : TableState} (ht : (tableSystem path r).Reachable t) :
    TableInv path r t := by
  refine ht.invariant (fun t h0 => ?_) fun t op t' h hstep => h.step ?_ hstep
  · obtain ⟨s, others, V, rfl, hready, -, hsize, hcont⟩ := TableStart.ready h0
    exact ⟨s, others, V, [], hready, hsize, hcont, rfl⟩
  · cases hstep with
    | insert hbuf hrun =>
      intro s hs
      obtain ⟨s₀, others, V, chain, hready, -, -, hfile⟩ := h
      cases hs
      cases hfile
      by_contra hno
      obtain ⟨s₁, herror⟩ := insertRecord_without_room hready hno _ _
      rw [hrun] at herror
      cases herror
    | update | delete | get | close | reopen => trivial

/-- **The scan over the buffer pool**: it meets exactly the records the calls have left, in their order. -/
theorem tableSystem_scanAll {r : Int} {M : Rid → Option (List UInt8)}
    (ht : (tableSystem path r).Reachable ⟨.opened s, M⟩) : ∃ l, (∃ n, ∀ rounds, n ≤ rounds →
      ∃ s', alone context (scanAll rounds) s = (.ok (some l), s') ∧ s'.fileHdr = s.fileHdr ∧ s'.Consistent) ∧
      l.Pairwise Rid.Before ∧ ∀ rid, rid ∈ l ↔ (M rid).isSome = true := by
  obtain ⟨_, others, V, chain, hready, -, hrec, rfl⟩ := tableSystem_inv ht
  have hrec' : contents s.fileHdr V = M := hrec
  refine ⟨RmScan.rids s.fileHdr V, ⟨s.fileHdr.numPages.toNat + (RmScan.rids s.fileHdr V).length + 1,
    fun rounds hr => ?_⟩, RmScan.pairwise_rids, fun rid => ?_⟩
  · have hrounds : s.fileHdr.numPages ≤ (rounds : Int) := by omega
    obtain ⟨s', ⟨hhdr, hready'⟩, hrun⟩ := (shows_ready (s := s) context).scanAll hrounds (by omega)
      ⟨rfl, hready⟩
    exact ⟨s', hrun, hhdr, ready_consistent hready'⟩
  · rw [← hrec']
    exact RmScan.mem_rids hready.inv.one_le

/-- A file with one record, just inserted: the scan meets it, and ends. -/
theorem tableSystem_scanAll_inserted : ∃ s rid,
    (tableSystem "t" 512).Reachable
      ⟨.opened s, Function.update (fun _ => none) rid (some (List.replicate 512 0))⟩ ∧
    ∃ n, ∀ rounds, n ≤ rounds → ∃ s', alone ⟨fun _ => true, 0⟩ (scanAll rounds) s = (.ok (some [rid]), s') := by
  obtain ⟨s, hs⟩ := DiskManager.blank_start
  obtain ⟨_, others, V, hopened, hready, hhdr, hsize, -⟩ := TableStart.ready hs
  cases hopened
  have hroom : HasRoom s := Or.inr (by rw [hhdr]; decide)
  have hbuf : (List.replicate 512 (0 : UInt8)).length = s.fileHdr.recordSize := by
    rw [List.length_replicate]
    omega
  obtain ⟨rid, s', _, _, hrun, -, -, -⟩ := RmFileHandle.insertRecord_spec hready hroom hbuf 0
  have ht : (tableSystem "t" 512).Reachable
      ⟨.opened s', Function.update (fun _ => none) rid (some (List.replicate 512 0))⟩ :=
    .step (.init hs) (.insert (by rw [List.length_replicate]; rfl) hrun)
  obtain ⟨l, ⟨n, hscan⟩, hsorted, hmem⟩ := tableSystem_scanAll ⟨fun _ => true, 0⟩ ht
  have hrid : ∀ r, r ∈ l ↔ r = rid := by
    intro r
    rw [hmem, Function.update_apply]
    split
    · rename_i heq
      exact iff_of_true rfl heq
    · rename_i hne
      exact iff_of_false Bool.false_ne_true hne
  -- one record, met once
  obtain rfl : l = [rid] := by
    cases l with
    | nil => exact absurd ((hrid rid).mpr rfl) (List.not_mem_nil)
    | cons a l =>
      obtain rfl := (hrid a).mp List.mem_cons_self
      refine congrArg _ (List.eq_nil_iff_forall_not_mem.mpr fun r hr => ?_)
      have hr' := (hrid r).mp (List.mem_cons_of_mem _ hr)
      exact ((List.pairwise_cons.mp hsorted).1 r hr).ne hr'.symm
  exact ⟨s', rid, ht, n, fun rounds hn => (hscan rounds hn).imp fun _ h => h.1⟩

end Pool

end Rmdb
