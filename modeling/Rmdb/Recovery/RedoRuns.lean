import Rmdb.Recovery.Redo

namespace Rmdb

open Lib

/-!
# Crashes while the log is redone (`RecoveryManager::redo`)

Where only updates have been redone, a page that is written to the disk has the slots of its LSN, up to
values that the next updates write: they are redone after the next restart.

* `PagePlan` — what has been done with a page since the restart, and what is left;
* `RecoveryInv` — the invariant of the recovery;
* `redo_restores` — in the runs of safe steps, each page has the changes of the log when `redo` has ended,
  and neither `analyze` nor `redo` fails.
-/

/-! ### One page -/

/-- **The plan for a page**: `left` are the numbers that are left in its list.  The page has LSN `lsn`, and
its slots are `x`. -/
structure PagePlan (cs : List (Lsn × LoggedChange)) (lsn : Lsn) (x : Slots Int (List UInt8))
    (left : List Lsn) (done rest : List (Lsn × LoggedChange)) : Prop where
  split : above cs lsn = done ++ rest
  left : left = rest.map Prod.fst ∨ done = [] ∧ left = lsn :: rest.map Prod.fst
  near : Near (opsOf rest) x (replay (pageAt cs lsn) (opsOf done))
  /-- As long as only updates have been redone, the slots are those of the LSN, nearly. -/
  kept : (∀ c ∈ done, c.2.op.overwrites = true) → Near (opsOf (above cs lsn)) x (pageAt cs lsn)

namespace PagePlan

variable {cs done rest : List (Lsn × LoggedChange)} {lsn l : Lsn} {x : Slots Int (List UInt8)}
  {left : List Lsn} {c : LoggedChange}

/-- After `analyze`. -/
theorem start (h : Near (opsOf (above cs lsn)) x (pageAt cs lsn))
    (hleft : left = redoList lsn cs ∨ left = [] ∧ cs = []) : PagePlan cs lsn x left [] (above cs lsn) := by
  refine ⟨rfl, ?_, h, fun _ => h⟩
  rcases hleft with rfl | ⟨rfl, rfl⟩
  · exact .inr ⟨rfl, rfl⟩
  · exact .inl rfl

/-- Nothing is left: the page is complete. -/
theorem finished (h : PagePlan cs lsn x [] done rest) (hcs : Increasing cs) : x = pageAfter cs := by
  have hrest : rest = [] := by
    rcases h.left with heq | ⟨-, heq⟩
    · exact List.map_eq_nil_iff.mp heq.symm
    · cases heq
  have hnear := h.near
  have hsplit := h.split
  rw [hrest] at hnear hsplit
  rw [List.append_nil] at hsplit
  rw [hnear.eq rfl, ← hsplit, replay_above hcs]

/-- The cases of the next number. -/
theorem next_cases (h : PagePlan cs lsn x (l :: left) done rest) :
    (∃ c rest', rest = (l, c) :: rest' ∧ left = rest'.map Prod.fst) ∨
      (l = lsn ∧ done = [] ∧ left = rest.map Prod.fst) := by
  rcases h.left with heq | ⟨hdone, heq⟩
  · obtain ⟨⟨l', c⟩, rest', rfl, rfl, rfl⟩ := List.map_eq_cons_iff.mp heq.symm
    exact .inl ⟨c, rest', rfl, rfl⟩
  · obtain ⟨rfl, rfl⟩ := List.cons.inj heq
    exact .inr ⟨rfl, hdone, rfl⟩

/-- **The next change is redone.** -/
theorem redone {rest' : List (Lsn × LoggedChange)} (h : PagePlan cs lsn x (l :: left) done rest)
    (hrest : rest = (l, c) :: rest') (hleft : left = rest'.map Prod.fst) :
    PagePlan cs lsn (c.op.apply x) left (done ++ [(l, c)]) rest' := by
  subst hrest
  have hsplit : above cs lsn = done ++ [(l, c)] ++ rest' := by
    rw [h.split, List.append_assoc]
    rfl
  refine ⟨hsplit, .inl hleft, ?_, fun hall => ?_⟩
  · rw [opsOf_append, replay_append]
    exact h.near.step
  · have hover := hall (l, c) (List.mem_append_right _ (List.mem_singleton_self _))
    refine (h.kept fun e he => hall e (List.mem_append_left _ he)).overwritten hover ?_
    rw [hsplit, opsOf_append]
    refine mem_overwrittenNext (fun o ho => ?_) _ ?_
    · obtain ⟨e, he, rfl⟩ := List.mem_map.mp ho
      exact hall e he
    · exact List.mem_map.mpr ⟨(l, c), List.mem_append_right _ (List.mem_singleton_self _), rfl⟩

/-- There is nothing to be redone for the LSN of the page. -/
theorem skipped (h : PagePlan cs lsn x (l :: left) done rest)
    (hleft : left = rest.map Prod.fst) : PagePlan cs lsn x left done rest :=
  ⟨h.split, .inl hleft, h.near, h.kept⟩

/-- The update with the LSN of the page is redone. -/
theorem again (h : PagePlan cs lsn x (l :: left) done rest) (hcs : Increasing cs) (hdone : done = [])
    (hleft : left = rest.map Prod.fst) (hmem : (lsn, c) ∈ cs) (hover : c.op.overwrites = true) :
    PagePlan cs lsn (c.op.apply x) left done rest := by
  subst hdone
  cases hop : c.op with
  | insert k v => rw [hop] at hover; cases hover
  | remove k => rw [hop] at hover; cases hover
  | overwrite k v =>
    have hv := pageAt_value hcs hmem hop
    exact ⟨h.split, .inl hleft, h.near.again hv, fun hall => (h.kept hall).again hv⟩

/-- The page is written to the disk. -/
theorem flushed (h : PagePlan cs lsn x left done rest) (hcs : Increasing cs)
    (hsafe : ∀ c ∈ above cs lsn, c.2.op.overwrites = false → c.1 ∈ left) :
    Near (opsOf (above cs lsn)) x (pageAt cs lsn) := by
  refine h.kept fun c hc => ?_
  by_contra hnot
  rw [Bool.not_eq_true] at hnot
  have hinc : Increasing (done ++ rest) := by
    rw [← h.split]
    exact hcs.filter _
  have hmem : c ∈ above cs lsn := h.split ▸ List.mem_append_left _ hc
  have hleft := hsafe c hmem hnot
  -- a change that has been redone is not left
  have hnew : c.1 ∉ rest.map Prod.fst := by
    intro hin
    obtain ⟨e, he, heq⟩ := List.mem_map.mp hin
    exact absurd ((List.pairwise_append.mp hinc).2.2 c hc e he) (heq ▸ Int.lt_irrefl _)
  rcases h.left with heq | ⟨hdone, -⟩
  · exact hnew (heq ▸ hleft)
  · rw [hdone] at hc
    cases hc

end PagePlan

/-! ### What is left to be done -/

/-- The numbers that are left for a page. -/
def lsnsAt (tab : String) (n : Int) (todo : List RedoItem) : List Lsn :=
  (todo.filter fun i => i.tableFile = tab ∧ i.pageNo = n).map RedoItem.lsn

/-- An entry of this page. -/
theorem lsnsAt_cons_self (i : RedoItem) (todo : List RedoItem) :
    lsnsAt i.tableFile i.pageNo (i :: todo) = i.lsn :: lsnsAt i.tableFile i.pageNo todo := by
  unfold lsnsAt
  rw [List.filter_cons_of_pos (by simp), List.map_cons]

/-- An entry of another page. -/
theorem lsnsAt_cons_of_ne {tab : String} {n : Int} {i : RedoItem}
    (h : ¬ (i.tableFile = tab ∧ i.pageNo = n)) (todo : List RedoItem) :
    lsnsAt tab n (i :: todo) = lsnsAt tab n todo := by
  unfold lsnsAt
  rw [List.filter_cons_of_neg (by simpa using h)]

/-- An entry that is to be redone. -/
theorem mem_lsnsAt {tab : String} {n : Int} {lsn : Lsn} {todo : List RedoItem}
    (h : (⟨tab, n, lsn⟩ : RedoItem) ∈ todo) : lsn ∈ lsnsAt tab n todo :=
  List.mem_map.mpr ⟨_, List.mem_filter.mpr ⟨h, by simp⟩, rfl⟩

/-- The items of an entry. -/
theorem lsnsAt_append (tab : String) (n : Int) (todo todo' : List RedoItem) :
    lsnsAt tab n (todo ++ todo') = lsnsAt tab n todo ++ lsnsAt tab n todo' := by
  unfold lsnsAt
  rw [List.filter_append, List.map_append]

/-- The items of one entry. -/
theorem lsnsAt_entry (tab t : String) (n m : Int) (lsns : List Lsn) :
    lsnsAt tab n (lsns.map fun lsn => ⟨t, m, lsn⟩) = if t = tab ∧ m = n then lsns else [] := by
  unfold lsnsAt
  split
  · next h =>
    rw [List.filter_eq_self.mpr fun i hi => ?_, List.map_map]
    · exact List.map_id _
    · obtain ⟨l, -, rfl⟩ := List.mem_map.mp hi
      exact decide_eq_true h
  · next h =>
    rw [List.filter_eq_nil_iff.mpr fun i hi => ?_]
    · rfl
    · obtain ⟨l, -, rfl⟩ := List.mem_map.mp hi
      exact fun hd => h (of_decide_eq_true hd)

/-- **What is left for a page after `analyze`.** -/
theorem lsnsAt_redoItems {env : LogTables} {log : List LogRecord}
    {table pages : List (PageId × RedoLogsInPage)} (h : DirtyOf env log table) (hperm : pages.Perm table)
    (hdistinct : env.Distinct) {tab : String} {fd : Int} (hfd : env.fhs tab = some fd) (n : Int) :
    (∃ lsn, env.pageLsn ⟨fd, n⟩ = some lsn ∧
      lsnsAt tab n (redoItems pages) = redoList lsn (changesOn tab n log)) ∨
    lsnsAt tab n (redoItems pages) = [] ∧ changesOn tab n log = [] := by
  have hnodup : (pages.map Prod.fst).Nodup := (hperm.map Prod.fst).nodup_iff.mpr h.nodup
  -- the entry of the page is the one of the table
  have hentry : ∀ e ∈ pages, (e.2.tableFile = tab ∧ e.1.pageNo = n) ↔ e.1 = ⟨fd, n⟩ := by
    intro e he
    obtain ⟨htab, -⟩ := h.entry e (hperm.mem_iff.mp he)
    obtain ⟨⟨fd', n'⟩, logs⟩ := e
    dsimp only at htab ⊢
    constructor
    · rintro ⟨rfl, rfl⟩
      rw [Option.some.inj (hfd.symm.trans htab)]
    · intro heq
      cases heq
      exact ⟨hdistinct _ _ _ htab hfd, rfl⟩
  have hnone : ∀ es, es ⊆ pages → (⟨fd, n⟩ : PageId) ∉ es.map Prod.fst → lsnsAt tab n (redoItems es) = [] := by
    intro es hsub hnot
    induction es with
    | nil => rfl
    | cons e es ih =>
      obtain ⟨he, hes⟩ := List.cons_subset.mp hsub
      rw [List.map_cons, List.mem_cons, not_or] at hnot
      unfold redoItems at ih ⊢
      rw [List.flatMap_cons, lsnsAt_append, lsnsAt_entry, ih hes hnot.2, if_neg, List.append_nil]
      rw [hentry e he]
      exact fun heq => hnot.1 heq.symm
  by_cases hmem : (⟨fd, n⟩ : PageId) ∈ touchedPages env log
  · left
    rw [← h.keys] at hmem
    obtain ⟨e, he, hkey⟩ := List.mem_map.mp hmem
    obtain ⟨-, lsn, hlsn, hlogs⟩ := h.entry e he
    have hep := hperm.mem_iff.mpr he
    have hpage := (hentry e hep).mpr hkey
    obtain ⟨before, after, rfl⟩ := List.append_of_mem hep
    rw [List.map_append, List.map_cons, hkey, List.nodup_append] at hnodup
    obtain ⟨-, hafter, hbefore⟩ := hnodup
    refine ⟨lsn, hkey ▸ hlsn, ?_⟩
    have hfirst := hnone before (List.subset_append_left _ _)
      fun hin => hbefore _ hin _ List.mem_cons_self rfl
    have hlast := hnone after (fun x hx => List.mem_append_right _ (List.mem_cons_of_mem _ hx))
      (List.nodup_cons.mp hafter).1
    unfold redoItems at hfirst hlast ⊢
    rw [List.flatMap_append, List.flatMap_cons, lsnsAt_append, lsnsAt_append, lsnsAt_entry, hfirst, hlast,
      if_pos hpage, List.nil_append, List.append_nil, hlogs, hpage.1, hpage.2]
  · refine .inr ⟨hnone pages (List.Subset.refl _) fun hin => hmem ?_, changesOn_eq_nil hfd hmem⟩
    rw [← h.keys]
    exact (hperm.map Prod.fst).mem_iff.mp hin

/-! ### The invariant -/

/-- **The invariant of the recovery.** -/
structure RecoveryInv (log : List LogRecord) (d : RecoveryState) : Prop where
  pages : ∀ r ∈ log, ∀ c, r.body = .change c → HasPage d.fhs c
  disk : ∀ tab f n, d.fhs tab = some f → (f.page n).isSome = true →
    Near (opsOf (above (changesOn tab n log) (d.disk tab n).lsn)) (d.disk tab n).slots
      (pageAt (changesOn tab n log) (d.disk tab n).lsn)
  lsn2log : ∀ todo, d.todo = some todo → d.lsn2log = lsn2log log
  items : ∀ todo, d.todo = some todo → ∀ i ∈ todo, ∃ f, d.fhs i.tableFile = some f ∧
    (f.page i.pageNo).isSome = true
  plan : ∀ todo, d.todo = some todo → ∀ tab f n x, d.fhs tab = some f → f.content n = some x →
    x.1 = (d.disk tab n).lsn ∧
      ∃ done rest, PagePlan (changesOn tab n log) x.1 x.2 (lsnsAt tab n todo) done rest

section Steps

variable {log : List LogRecord} {d d' : RecoveryState} {env : LogTables} {i : RedoItem} {todo : List RedoItem}
  {f : RecordFile} {r : LogRecord} {c : LoggedChange} {tab : String} {n : Int}

/-- The invariant holds at the start of the recovery. -/
theorem RecoveryStart.inv (h : RecoveryStart log d) : RecoveryInv log d where
  pages := h.pages
  disk tab f n hf hn := by
    rw [h.disk tab f n hf hn]
    exact .refl _ _
  lsn2log todo htodo := by rw [h.todo] at htodo; cases htodo
  items todo htodo := by rw [h.todo] at htodo; cases htodo
  plan todo htodo := by rw [h.todo] at htodo; cases htodo

/-! ### A restart -/

/-- A file that is opened again was there before. -/
theorem reopened_eq_some {f' : RecordFile} (h : d.reopened tab = some f') :
    ∃ f, d.fhs tab = some f ∧ f' = RecoveryState.reopen f (d.disk tab) := by
  obtain ⟨f, hf, rfl⟩ := Option.map_eq_some_iff.mp h
  exact ⟨f, hf, rfl⟩

/-- It has the same pages. -/
theorem isSome_reopen (f : RecordFile) (disk : Int → RecordPage) (n : Int) :
    ((RecoveryState.reopen f disk).page n).isSome = (f.page n).isSome := Option.isSome_map

/-- A crash during the recovery leads to a state from which it can be started again. -/
theorem RecoveryInv.restart (h : RecoveryInv log d) (hlog : Redoable log) (hsees : d.Sees env)
    {s : RecoveryManager} (hs : analyze env (log.flatMap (·.serialize)) = .ok s)
    {pages : List (PageId × RedoLogsInPage)} (hperm : pages.Perm s.dirtyPageTable)
    (hordered : PageId.Ordered (touchedPages env log)) :
    RecoveryInv log { d with
      fhs := d.reopened, lsn2log := s.lsn2log, todo := some (redoItems pages) } := by
  obtain ⟨-, hall⟩ := (analyze_complete hlog.written hlog.size s).mp hs
  -- the table that `analyze` builds has each page once
  have hdirty := processAll_dirty hsees.distinct hordered hall
  refine ⟨fun r hr c hc => ?_, fun tab f' n hf' hn => ?_, fun todo htodo => ?_, fun todo htodo i hi => ?_,
    fun todo htodo tab f' n x hf' hx => ?_⟩
  · obtain ⟨f, hf, hpage⟩ := h.pages r hr c hc
    exact ⟨_, by show (d.fhs _).map _ = _; rw [hf]; rfl, by rw [isSome_reopen]; exact hpage⟩
  · obtain ⟨f, hf, rfl⟩ := reopened_eq_some hf'
    rw [isSome_reopen] at hn
    exact h.disk tab f n hf hn
  · exact (processAll_spec (pagesRead_new env) log).2 s hall |>.lsn2log
  · -- each entry is of a page that exists
    obtain rfl := Option.some.inj htodo
    obtain ⟨e, he, hi⟩ := List.mem_flatMap.mp hi
    obtain ⟨lsn, -, rfl⟩ := List.mem_map.mp hi
    obtain ⟨hfd, pageLsn, hlsn, -⟩ := hdirty.entry e (hperm.mem_iff.mp he)
    have hpage := hsees.pageLsn e.2.tableFile e.1.fd e.1.pageNo hfd
    rw [show (⟨e.1.fd, e.1.pageNo⟩ : PageId) = e.1 from rfl, hlsn] at hpage
    obtain ⟨y, hy, -⟩ := Option.map_eq_some_iff.mp hpage.symm
    obtain ⟨f, hf, hfy⟩ := Option.bind_eq_some_iff.mp hy
    refine ⟨RecoveryState.reopen f (d.disk e.2.tableFile), ?_, ?_⟩
    · show (d.fhs _).map _ = _
      rw [hf]
      rfl
    · rw [isSome_reopen, hfy]
      rfl
  · obtain rfl := Option.some.inj htodo
    obtain ⟨f, hf, rfl⟩ := reopened_eq_some hf'
    obtain ⟨y, hy, rfl⟩ := Option.map_eq_some_iff.mp hx
    obtain ⟨y', hy', rfl⟩ := Option.map_eq_some_iff.mp hy
    have hpage : (f.page n).isSome = true := by rw [hy', Option.isSome_some]
    refine ⟨rfl, [], _, PagePlan.start (h.disk tab f n hf hpage) ?_⟩
    obtain ⟨fd, hfd⟩ := Option.isSome_iff_exists.mp ((hsees.fhs tab).trans (by rw [hf, Option.isSome_some]))
    have hlsn := hsees.pageLsn tab fd n hfd
    rw [hf, Option.bind_some, hy', Option.map_some] at hlsn
    rcases lsnsAt_redoItems hdirty hperm hsees.distinct hfd n with ⟨lsn, hlsn', hleft⟩ | hnone
    · left
      rw [hlsn] at hlsn'
      rw [hleft, ← Option.some.inj hlsn']
    · exact .inr hnone

/-! ### A step of `redo` -/

/-- A change is redone, if an insert goes to the rid of its record. -/
theorem redoRecord_change {lsn2log : Lsn → Option LogRecord} {fhs : Tables} (hf : fhs i.tableFile = some f)
    (hr : lsn2log i.lsn = some r) (hbody : r.body = .change c) (hpage : (f.page c.rid.pageNo).isSome = true)
    (hnext : ∀ value rid tab, c = .insert value rid tab → f.nextRid = some rid) :
    ∃ f', redoRecord lsn2log fhs i = .ok (lsn2log, Function.update fhs i.tableFile (some f')) ∧
      f.Changes f' c.rid c.op none := by
  unfold redoRecord
  rw [hf, hr]
  dsimp only
  rw [hbody]
  cases c with
  | insert value rid tab =>
    have hrid := hnext value rid tab rfl
    obtain ⟨f', hf', hchanges, -⟩ := RecordFile.insertRecord_changes hrid value none
    rw [RecordFile.createPageHandle_of_page hrid hpage] at hchanges
    refine ⟨f', ?_, hchanges⟩
    dsimp only
    rw [hf']
    have hsame : ({ r with body := .change (.insert value rid tab) } : LogRecord) = r := by
      rw [← hbody]
    show Except.ok (Function.update lsn2log i.lsn (some { r with body := .change (.insert value rid tab) }),
      Function.update fhs i.tableFile (some f')) = _
    rw [hsame, ← hr, Function.update_eq_self]
  | delete value rid tab =>
    obtain ⟨f', hf', hchanges⟩ := RecordFile.deleteRecord_changes hpage none
    refine ⟨f', ?_, hchanges⟩
    dsimp only
    rw [show f.deleteRecord rid none = .ok f' from hf']
    rfl
  | update before after rid tab =>
    obtain ⟨f', hf', hchanges⟩ := RecordFile.updateRecord_changes hpage after none
    refine ⟨f', ?_, hchanges⟩
    dsimp only
    rw [show f.updateRecord rid after none = .ok f' from hf']
    rfl

/-- A record that is no change, or that is not there. -/
theorem redoRecord_other {lsn2log : Lsn → Option LogRecord} {fhs : Tables} (hf : fhs i.tableFile = some f)
    (hr : ∀ r c, lsn2log i.lsn = some r → r.body ≠ .change c) :
    redoRecord lsn2log fhs i = .ok (lsn2log, fhs) := by
  unfold redoRecord
  rw [hf]
  cases hrec : lsn2log i.lsn with
  | none => rfl
  | some r =>
    dsimp only
    cases hbody : r.body with
    | change c => exact absurd hbody (hr r c hrec)
    | begin => rfl
    | commit => rfl
    | abort => rfl

/-- What `lsn2log` finds is in the log. -/
theorem mem_of_lsn2log {lsn : Lsn} (h : lsn2log log lsn = some r) : r ∈ log ∧ r.lsn = lsn := by
  induction log using List.reverseRecOn with
  | nil => cases h
  | append_singleton log x ih =>
    have hsnoc : lsn2log (log ++ [x]) = Function.update (lsn2log log) x.lsn (some x) := List.foldl_append
    rw [hsnoc] at h
    by_cases hx : lsn = x.lsn
    · subst hx
      rw [Function.update_self] at h
      obtain rfl := Option.some.inj h
      exact ⟨List.mem_append_right _ (List.mem_singleton_self _), rfl⟩
    · rw [Function.update_of_ne hx] at h
      exact ⟨List.mem_append_left _ (ih h).1, (ih h).2⟩

/-- **A number of the list is redone**: the page follows its plan, and the other pages stay. -/
theorem RecoveryInv.item (h : RecoveryInv log d) (hlog : Redoable log) (htodo : d.todo = some (i :: todo))
    (hsafe : ItemSafe d i) : ∃ f f', d.fhs i.tableFile = some f ∧
      redoRecord d.lsn2log d.fhs i = .ok (d.lsn2log, Function.update d.fhs i.tableFile (some f')) ∧
      (∀ n, (f'.page n).isSome = (f.page n).isSome) ∧ (∀ n, n ≠ i.pageNo → f'.content n = f.content n) ∧
      ∀ x', f'.content i.pageNo = some x' → x'.1 = (d.disk i.tableFile i.pageNo).lsn ∧
        ∃ done rest, PagePlan (changesOn i.tableFile i.pageNo log) x'.1 x'.2
          (lsnsAt i.tableFile i.pageNo todo) done rest := by
  obtain ⟨f, hf, hpage⟩ := h.items _ htodo i List.mem_cons_self
  obtain ⟨x, hx⟩ := Option.isSome_iff_exists.mp ((f.isSome_content i.pageNo).trans hpage)
  obtain ⟨hlsn, done, rest, hplan⟩ := h.plan _ htodo _ f _ x hf hx
  rw [lsnsAt_cons_self] at hplan
  have hlsn2log := h.lsn2log _ htodo
  have hcs := increasing_changesOn hlog.increasing i.tableFile i.pageNo
  -- a record of this page is redone
  have hchange : ∀ r c, d.lsn2log i.lsn = some r → r.body = .change c → c.tableName = i.tableFile →
      c.rid.pageNo = i.pageNo → ∃ f', redoRecord d.lsn2log d.fhs i =
        .ok (d.lsn2log, Function.update d.fhs i.tableFile (some f')) ∧
        (∀ n, (f'.page n).isSome = (f.page n).isSome) ∧ (∀ n, n ≠ i.pageNo → f'.content n = f.content n) ∧
        f'.content i.pageNo = some (x.1, c.op.apply x.2) := by
    intro r c hr hbody _ hn
    obtain ⟨f', hredo, hchanges⟩ := redoRecord_change hf hr hbody (by rw [hn]; exact hpage)
      (hsafe f r c hf hr hbody).1
    refine ⟨f', hredo, hchanges.isSome_page, fun n hne => ?_, ?_⟩
    · rw [hchanges.content, if_neg (by rw [hn]; exact hne)]
    · rw [hchanges.content, if_pos hn.symm, hx]
      rfl
  rcases hplan.next_cases with ⟨c, rest', hrest, hleft⟩ | ⟨hl, hdone, hleft⟩
  · -- a number above the LSN of the page
    have hmem : (i.lsn, c) ∈ changesOn i.tableFile i.pageNo log := by
      have habove : (i.lsn, c) ∈ above (changesOn i.tableFile i.pageNo log) x.1 := by
        rw [hplan.split, hrest]
        exact List.mem_append_right _ List.mem_cons_self
      exact List.mem_of_mem_filter habove
    obtain ⟨r, hr, hbody, hrlsn, htab, hn⟩ := mem_changesOn.mp hmem
    have hfound : d.lsn2log i.lsn = some r := by
      rw [hlsn2log, ← show r.lsn = i.lsn from hrlsn]
      exact lsn2log_of_nodup (hlog.increasing.imp Int.ne_of_lt) r hr
    obtain ⟨f', hredo, hpages, hother, hself⟩ := hchange r c hfound hbody htab hn
    refine ⟨f, f', hf, hredo, hpages, hother, fun x' hx' => ?_⟩
    obtain rfl := Option.some.inj (hself.symm.trans hx')
    exact ⟨hlsn, _, _, hplan.redone hrest hleft⟩
  · by_cases hbody : ∃ r c, d.lsn2log i.lsn = some r ∧ r.body = .change c
    · -- the update with the LSN of the page
      obtain ⟨r, c, hr, hbody⟩ := hbody
      obtain ⟨hover, htab, hn⟩ := (hsafe f r c hf hr hbody).2 (by rw [hl, hlsn])
      obtain ⟨f', hredo, hpages, hother, hself⟩ := hchange r c hr hbody htab hn
      refine ⟨f, f', hf, hredo, hpages, hother, fun x' hx' => ?_⟩
      obtain rfl := Option.some.inj (hself.symm.trans hx')
      have hmem : (x.1, c) ∈ changesOn i.tableFile i.pageNo log := by
        obtain ⟨hrlog, hrlsn⟩ := mem_of_lsn2log (hlsn2log ▸ hr)
        exact mem_changesOn.mpr ⟨r, hrlog, hbody, hrlsn.trans hl, htab, hn⟩
      exact ⟨hlsn, _, _, hplan.again hcs hdone hleft hmem hover⟩
    · refine ⟨f, f, hf, ?_, fun _ => rfl, fun _ _ => rfl, fun x' hx' => ?_⟩
      · rw [redoRecord_other hf fun r c hr hc => hbody ⟨r, c, hr, hc⟩, ← hf, Function.update_eq_self]
      · obtain rfl := Option.some.inj (hx.symm.trans hx')
        exact ⟨hlsn, _, _, hplan.skipped hleft⟩

/-- A page that is there is not made anew. -/
theorem diskWithNew_eq (hf : d.fhs tab = some f) (hn : (f.page n).isSome = true) :
    d.diskWithNew tab n = d.disk tab n := by
  unfold RecoveryState.diskWithNew
  rw [hf]
  exact if_pos hn

/-- **A step of `redo`** goes on, and keeps the invariant. -/
theorem RecoveryInv.redo (h : RecoveryInv log d) (hlog : Redoable log) (htodo : d.todo = some (i :: todo))
    (hsafe : ItemSafe d i) : ∃ r, redoRecord d.lsn2log d.fhs i = .ok r ∧
      RecoveryInv log { fhs := r.2, disk := d.diskWithNew, lsn2log := r.1, todo := some todo } := by
  obtain ⟨f, f', hf, hredo, hpages, hother, hself⟩ := h.item hlog htodo hsafe
  -- what is known of a table after the step
  have htables : ∀ tab g', Function.update d.fhs i.tableFile (some f') tab = some g' →
      ∃ g, d.fhs tab = some g ∧ (∀ n, (g'.page n).isSome = (g.page n).isSome) ∧
        ∀ n, ¬ (i.tableFile = tab ∧ i.pageNo = n) → g'.content n = g.content n := by
    intro tab g' hg'
    by_cases ht : tab = i.tableFile
    · subst ht
      rw [Function.update_self] at hg'
      obtain rfl := Option.some.inj hg'
      exact ⟨f, hf, hpages, fun n hne => hother n fun heq => hne ⟨rfl, heq.symm⟩⟩
    · rw [Function.update_of_ne ht] at hg'
      exact ⟨g', hg', fun _ => rfl, fun _ _ => rfl⟩
  refine ⟨_, hredo, fun r hr c hc => ?_, fun tab g' n hg' hn => ?_, fun _ _ => h.lsn2log _ htodo,
    fun todo' htodo' j hj => ?_, fun todo' htodo' tab g' n x hg' hx => ?_⟩
  · exact (h.pages r hr c hc).mono (extends_update hf fun n hn => by rw [hpages]; exact hn)
  · obtain ⟨g, hg, hgpages, -⟩ := htables tab g' hg'
    rw [hgpages] at hn
    dsimp only
    rw [diskWithNew_eq hg hn]
    exact h.disk tab g n hg hn
  · obtain rfl := Option.some.inj htodo'
    obtain ⟨g, hg, hgpage⟩ := h.items _ htodo j (List.mem_cons_of_mem _ hj)
    by_cases ht : j.tableFile = i.tableFile
    · rw [ht, hf] at hg
      obtain rfl := Option.some.inj hg
      exact ⟨f', by rw [ht]; exact Function.update_self _ _ _, by rw [hpages]; exact hgpage⟩
    · exact ⟨g, by show Function.update _ _ _ _ = _; rw [Function.update_of_ne ht, hg], hgpage⟩
  · obtain rfl := Option.some.inj htodo'
    obtain ⟨g, hg, hgpages, hgcontent⟩ := htables tab g' hg'
    have hn : (g.page n).isSome = true := by
      rw [← hgpages, ← RecordFile.isSome_content, hx, Option.isSome_some]
    dsimp only
    rw [diskWithNew_eq hg hn]
    by_cases hkey : i.tableFile = tab ∧ i.pageNo = n
    · obtain ⟨rfl, rfl⟩ := hkey
      dsimp only at hg'
      rw [Function.update_self] at hg'
      obtain rfl := Option.some.inj hg'
      exact hself x hx
    · rw [hgcontent n hkey] at hx
      have hplan := h.plan _ htodo tab g n x hg hx
      rw [lsnsAt_cons_of_ne hkey] at hplan
      exact hplan

/-- **A page that is written** keeps the invariant, if no insert or delete of it has been redone. -/
theorem RecoveryInv.flush (h : RecoveryInv log d) (hlog : Redoable log) (htodo : d.todo = some todo)
    (hf : d.fhs tab = some f) {x : RecordPage} (hx : f.page n = some x) (hsafe : FlushSafe log d tab n) :
    RecoveryInv log { d with disk := Function.update d.disk tab (Function.update (d.disk tab) n x) } := by
  have hcontent : f.content n = some (x.lsn, x.slots) := by
    unfold RecordFile.content
    rw [hx]
    rfl
  obtain ⟨hlsn, done, rest, hplan⟩ := h.plan _ htodo tab f n _ hf hcontent
  have hcs := increasing_changesOn hlog.increasing tab n
  have hnear := hplan.flushed hcs fun c hc hover => mem_lsnsAt (hsafe _ htodo c (hlsn ▸ hc) hover)
  -- the page on the disk has its LSN still
  have hdisk : ∀ t m, Function.update d.disk tab (Function.update (d.disk tab) n x) t m =
      if t = tab ∧ m = n then x else d.disk t m := by
    intro t m
    by_cases ht : t = tab
    · subst ht
      rw [Function.update_self]
      by_cases hm : m = n
      · rw [hm, Function.update_self, if_pos ⟨rfl, rfl⟩]
      · rw [Function.update_of_ne hm, if_neg fun hand => hm hand.2]
    · rw [Function.update_of_ne ht, if_neg fun hand => ht hand.1]
  refine ⟨h.pages, fun t g m hg hm => ?_, h.lsn2log, h.items, fun todo' htodo' t g m y hg hy => ?_⟩
  · dsimp only
    rw [hdisk]
    split
    · next hkey =>
      obtain ⟨rfl, rfl⟩ := hkey
      exact hnear
    · exact h.disk t g m hg hm
  · obtain ⟨hy1, hyplan⟩ := h.plan _ htodo' t g m y hg hy
    refine ⟨?_, hyplan⟩
    dsimp only
    rw [hdisk, hy1]
    split
    · next hkey =>
      obtain ⟨rfl, rfl⟩ := hkey
      exact hlsn.symm
    · rfl

/-- Every safe step keeps the invariant. -/
theorem RecoveryInv.step (h : RecoveryInv log d) (hlog : Redoable log) {a : RecoveryLabel}
    (hstep : RecoveryStep log d a d') (hsafe : StepSafe log d a) : RecoveryInv log d' := by
  cases hstep with
  | restart hsees hs hperm => exact h.restart hlog hsees hs hperm hsafe
  | redo htodo hredo =>
    obtain ⟨r, hr, hinv⟩ := h.redo hlog htodo (hsafe _ _ htodo)
    obtain rfl := Except.ok.inj (hredo.symm.trans hr)
    exact hinv
  | flush htodo hf hx => exact h.flush hlog htodo hf hx hsafe

/-- After a restart `analyze` ends. -/
theorem RecoveryInv.analyzed (h : RecoveryInv log d) (hlog : Redoable log) (hsees : d.Sees env) :
    ∃ s, analyze env (log.flatMap (·.serialize)) = .ok s := by
  obtain ⟨hok, -⟩ := processAll_spec (pagesRead_new env) log
  obtain ⟨s, hs⟩ := hok.mpr fun r hr => by
    unfold Readable
    cases hbody : r.body with
    | begin => exact hlog.begins r hr hbody
    | commit => trivial
    | abort => trivial
    | change c =>
      obtain ⟨f, hf, hpage⟩ := h.pages r hr c hbody
      obtain ⟨fd, hfd⟩ := Option.isSome_iff_exists.mp ((hsees.fhs _).trans (by rw [hf, Option.isSome_some]))
      refine ⟨fd, hfd, ?_⟩
      rw [hsees.pageLsn _ fd _ hfd, hf, Option.isSome_map]
      exact hpage
  exact ⟨s, (analyze_complete hlog.written hlog.size s).mpr ⟨hlog.windows, hs⟩⟩

end Steps

/-- **Where the log is redone rightly.**  After any safe steps, with any number of crashes among them,
`analyze` ends if the server is started again, `redo` goes on as long as its next step is safe, and when it
has ended each page has exactly the changes of the log, each record under its own record id. -/
theorem redo_restores {log : List LogRecord} (hlog : Redoable log) {d : RecoveryState}
    (h : ((recoverySystem log).restrict fun d a _ => StepSafe log d a).Reachable d) :
    (∀ env, d.Sees env → ∃ d', RecoveryStep log d (.restart env) d') ∧
    (∀ i todo, d.todo = some (i :: todo) → ItemSafe d i → ∃ d', RecoveryStep log d .redo d') ∧
    (d.todo = some [] → ∀ tab f n x, d.fhs tab = some f → f.page n = some x →
      x.slots = pageAfter (changesOn tab n log)) := by
  have hinv : RecoveryInv log d := by
    refine h.invariant (I := RecoveryInv log) (fun _ hstart => RecoveryStart.inv hstart) ?_
    rintro d a d' hd ⟨hstep, hsafe⟩
    exact hd.step hlog hstep hsafe
  refine ⟨fun env hsees => ?_, fun i todo htodo hsafe => ?_, fun htodo tab f n x hf hx => ?_⟩
  · obtain ⟨s, hs⟩ := hinv.analyzed hlog hsees
    exact ⟨_, .restart hsees hs (.refl _)⟩
  · obtain ⟨r, hr, -⟩ := hinv.redo hlog htodo hsafe
    exact ⟨_, .redo htodo hr⟩
  · have hcontent : f.content n = some (x.lsn, x.slots) := by
      unfold RecordFile.content
      rw [hx]
      rfl
    obtain ⟨-, done, rest, hplan⟩ := hinv.plan _ htodo tab f n _ hf hcontent
    exact hplan.finished (increasing_changesOn hlog.increasing tab n)

/-! ### One insert -/

/-- A transaction that has inserted a record. -/
def insertLog : List LogRecord :=
  [⟨0, 0, -1, .begin⟩, ⟨1, 0, 0, .change (.insert [1] ⟨1, 0⟩ "t")⟩]

/-- The disk after a crash; the page has this LSN. -/
def crashed (lsn : Lsn) : RecoveryState where
  fhs := oneRecordTables
  disk := fun _ _ => ⟨lsn, rmNoPage, pageAt (changesOn "t" 1 insertLog) lsn⟩
  lsn2log := fun _ => none
  todo := none

/-- What `analyze` sees there. -/
def crashedTables (lsn : Lsn) : LogTables where
  fhs := fun tab => if tab = "t" then some 3 else none
  pageLsn := fun p => if p = ⟨3, 1⟩ then some lsn else none
  find := findPage
  find_key := findPage_key
  find_mem := fun keys p _ => findPage_mem keys p

/-- The only table. -/
theorem oneRecordTables_eq_some {tab : String} {f : RecordFile} (h : oneRecordTables tab = some f) :
    tab = "t" ∧ f = oneRecordFile := by
  unfold oneRecordTables at h
  split at h
  · next ht => exact ⟨ht, (Option.some.inj h).symm⟩
  · cases h

/-- The recovery may start there, whatever LSN the page has. -/
theorem crashed_start (lsn : Lsn) : RecoveryStart insertLog (crashed lsn) := by
  refine ⟨rfl, fun r hr c hc => ?_, fun tab f n hf hn => ?_⟩
  · obtain rfl | rfl := List.mem_pair.mp hr
    · cases hc
    · cases hc
      exact ⟨oneRecordFile, rfl, rfl⟩
  · obtain ⟨rfl, rfl⟩ := oneRecordTables_eq_some hf
    have h1 : n = 1 := by
      by_contra hne
      rw [show oneRecordFile.page n = none from if_neg hne] at hn
      cases hn
    rw [h1]
    rfl

/-- What the recovery sees of it. -/
theorem crashed_sees (lsn : Lsn) : (crashed lsn).Sees (crashedTables lsn) := by
  have hfhs : ∀ tab fd, (crashedTables lsn).fhs tab = some fd → tab = "t" ∧ fd = 3 := by
    intro tab fd hfd
    unfold crashedTables at hfd
    dsimp only at hfd
    split at hfd
    · next ht => exact ⟨ht, (Option.some.inj hfd).symm⟩
    · cases hfd
  refine ⟨fun tab => ?_, fun tab tab' fd htab htab' => ?_, fun tab fd n hfd => ?_⟩
  · show (if tab = "t" then some 3 else none : Option Int).isSome =
      (if tab = "t" then some oneRecordFile else none : Option RecordFile).isSome
    split <;> rfl
  · rw [(hfhs tab fd htab).1, (hfhs tab' fd htab').1]
  · obtain ⟨rfl, rfl⟩ := hfhs tab fd hfd
    show (if (⟨3, n⟩ : PageId) = ⟨3, 1⟩ then some lsn else none) =
      (if n = 1 then some _ else none : Option RecordPage).map fun _ => lsn
    by_cases hn : n = 1
    · rw [if_pos (by rw [hn]), if_pos hn]
      rfl
    · rw [if_neg (by simpa using hn), if_neg hn]
      rfl

/-- Its log can be redone. -/
theorem redoable_insertLog : Redoable insertLog := by
  have hsum : (insertLog.map (·.totLen)).sum = 62 := rfl
  have hLBS : 62 + 12 ≤ logBufferSize := by decide
  refine ⟨fun r hr => ?_, ?_, ⟨62, ?_, hLBS⟩, by decide, fun r hr hbegin => ?_⟩
  · obtain rfl | rfl := List.mem_pair.mp hr
    · exact ⟨⟨⟨by decide, by decide⟩, ⟨by decide, by decide⟩, ⟨by decide, by decide⟩, nofun⟩, by decide⟩
    · refine ⟨⟨⟨by decide, by decide⟩, ⟨by decide, by decide⟩, ⟨by decide, by decide⟩, fun c hc => ?_⟩, by decide⟩
      cases hc
      exact ⟨⟨by decide, by decide⟩, ⟨by decide, by decide⟩⟩
  · have hlens : insertLog.map (fun r => r.serialize.length) = insertLog.map (·.totLen) :=
      List.map_congr_left fun r _ => r.length_serialize
    rw [List.length_flatMap, hlens, hsum]
    decide
  · rw [lastOffset_of_fits (by rw [hsum]; omega), hsum]
  · obtain rfl | rfl := List.mem_pair.mp hr
    · exact Int.le_refl 0
    · cases hbegin

/-- After `analyze`. -/
def restarted (lsn : Lsn) : RecoveryState where
  fhs := (crashed lsn).reopened
  disk := (crashed lsn).disk
  lsn2log := lsn2log insertLog
  todo := some ((redoList lsn (changesOn "t" 1 insertLog)).map fun lsn => ⟨"t", 1, lsn⟩)

/-- The server is started after the crash. -/
theorem crashed_restart {lsn : Lsn} (hlsn : lsn = 0 ∨ lsn = 1) :
    RecoveryStep insertLog (crashed lsn) (.restart (crashedTables lsn)) (restarted lsn) := by
  obtain ⟨s, hs⟩ := (crashed_start lsn).inv.analyzed redoable_insertLog (crashed_sees lsn)
  obtain ⟨-, hall⟩ := (analyze_complete redoable_insertLog.written redoable_insertLog.size s).mp hs
  have hfound : s.lsn2log = lsn2log insertLog :=
    ((processAll_spec (pagesRead_new _) _).2 s hall).lsn2log
  have htodo : redoItems s.dirtyPageTable =
      (redoList lsn (changesOn "t" 1 insertLog)).map fun lsn => ⟨"t", 1, lsn⟩ := by
    rcases hlsn with rfl | rfl <;> cases hall <;> rfl
  unfold restarted
  rw [← hfound, ← htodo]
  exact .restart (crashed_sees lsn) hs (.refl _)

/-- **The insert is redone**: it is not in the page, which has LSN 0. -/
theorem insert_redone : ∃ d f x, (recoverySystem insertLog).Reachable d ∧ d.todo = some [] ∧
    d.fhs "t" = some f ∧ f.page 1 = some x ∧ x.slots = pageAfter (changesOn "t" 1 insertLog) := by
  have hstart : ((recoverySystem insertLog).restrict fun d a _ => StepSafe insertLog d a).Reachable
      (crashed 0) := .init (crashed_start 0)
  have hordered : PageId.Ordered (touchedPages (crashedTables 0) insertLog) := by
    rw [show touchedPages (crashedTables 0) insertLog = [⟨3, 1⟩] from rfl]
    intro p hp q hq hlt
    rw [List.mem_singleton.mp hp, List.mem_singleton.mp hq] at hlt
    exact absurd hlt (by decide)
  have hrestart := hstart.step ⟨crashed_restart (.inl rfl), hordered⟩
  -- record 0 is no change
  have hbegin : redoRecord (restarted 0).lsn2log (restarted 0).fhs ⟨"t", 1, 0⟩ =
    .ok ((restarted 0).lsn2log, (restarted 0).fhs) := rfl
  have htodo : (restarted 0).todo = some [⟨"t", 1, 0⟩, ⟨"t", 1, 1⟩] := rfl
  have hsafe : ItemSafe (restarted 0) ⟨"t", 1, 0⟩ := by
    intro f r c _ hr hbody
    obtain rfl := Option.some.inj ((show (restarted 0).lsn2log 0 = some _ from rfl).symm.trans hr)
    cases hbody
  have hfirst := hrestart.step ⟨RecoveryStep.redo htodo hbegin, fun i todo hi => by
    obtain ⟨rfl, -⟩ := List.cons.inj (Option.some.inj (htodo.symm.trans hi))
    exact hsafe⟩
  -- record 1 goes to the first slot
  obtain ⟨r, hr⟩ : ∃ r, redoRecord (restarted 0).lsn2log (restarted 0).fhs ⟨"t", 1, 1⟩ = .ok r := ⟨_, rfl⟩
  have hsecond := hfirst.step ⟨RecoveryStep.redo (i := ⟨"t", 1, 1⟩) rfl hr, fun i todo hi => by
    obtain ⟨rfl, -⟩ := List.cons.inj (Option.some.inj hi)
    intro f r' c hf hr' hbody
    obtain rfl := Option.some.inj ((show (restarted 0).lsn2log 1 = some _ from rfl).symm.trans hr')
    cases hbody
    refine ⟨fun value rid tab heq => ?_, fun hlsn => ?_⟩
    · cases heq
      cases hf
      rfl
    · exact absurd (show (0 : Int) = 1 from hlsn) (by decide)⟩
  obtain ⟨f, hf, x, hx⟩ : ∃ f, r.2 "t" = some f ∧ ∃ x, f.page 1 = some x := by
    cases hr
    exact ⟨_, rfl, _, rfl⟩
  exact ⟨_, f, x, hsecond.of_restrict, rfl, hf, hx,
    (redo_restores redoable_insertLog hsecond).2.2 rfl _ _ _ _ hf hx⟩

/-- **The insert is redone again**: it is in the page, which has its LSN. -/
theorem insert_redone_twice : ∃ d f x, (recoverySystem insertLog).Reachable d ∧ d.todo = some [] ∧
    d.fhs "t" = some f ∧ f.page 1 = some x ∧
    x.slots.count = 2 ∧ x.slots.value 1 = some [1] ∧
    (pageAfter (changesOn "t" 1 insertLog)).count = 1 ∧ (pageAfter (changesOn "t" 1 insertLog)).value 1 = none := by
  have hrestart : (recoverySystem insertLog).Reachable (restarted 1) :=
    .step (.init (crashed_start 1)) (crashed_restart (.inr rfl))
  obtain ⟨r, hr⟩ : ∃ r, redoRecord (restarted 1).lsn2log (restarted 1).fhs ⟨"t", 1, 1⟩ = .ok r := ⟨_, rfl⟩
  have htodo : (restarted 1).todo = some [⟨"t", 1, 1⟩] := rfl
  have hend := hrestart.step (RecoveryStep.redo htodo hr)
  obtain ⟨f, hf, x, hx, hcount, hvalue⟩ : ∃ f, r.2 "t" = some f ∧ ∃ x, f.page 1 = some x ∧
      x.slots.count = 2 ∧ x.slots.value 1 = some [1] := by
    cases hr
    exact ⟨_, rfl, _, rfl, rfl, rfl⟩
  exact ⟨_, f, x, hend, rfl, hf, hx, hcount, hvalue, rfl, rfl⟩

end Rmdb
