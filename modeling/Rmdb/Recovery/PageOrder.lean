import Rmdb.Recovery.DirtyPages

namespace Rmdb

open Lib

/-!
# The order of the pages (`PageId::operator<`)

`operator<` compares the page numbers also when the descriptors differ, so that of two pages of different
files each can be before the other.  `dirty_page_table` is searched with it.

* `PageId.StrictWeakOn` — what the map of the library asks of `operator<`;
* `strictWeakOn_iff` — it is so unless two of the pages are each before the other;
* `analyze_reads` — which records `analyze` reads does not depend on the search;
* `LogTables.strict` — the search that finds no page that it need not find;
* `pageOrder_iff` — for which logs every page has one entry, whatever the search does.
-/

/-! ### The comparison -/

/-- **`operator<` is a strict weak order** on these pages, and pages of which none is before the other are
the same. -/
structure PageId.StrictWeakOn (pages : List PageId) : Prop where
  irrefl : ∀ p ∈ pages, p.lt p = false
  asymm : ∀ p ∈ pages, ∀ q ∈ pages, p.lt q = true → q.lt p = false
  trans : ∀ p ∈ pages, ∀ q ∈ pages, ∀ r ∈ pages, p.lt q = true → q.lt r = true → p.lt r = true
  incomp_trans : ∀ p ∈ pages, ∀ q ∈ pages, ∀ r ∈ pages, p.lt q = false → q.lt p = false →
    q.lt r = false → r.lt q = false → p.lt r = false ∧ r.lt p = false
  eq_iff : ∀ p ∈ pages, ∀ q ∈ pages, p.lt q = false ∧ q.lt p = false ↔ p = q

section Comparison

variable {pages : List PageId} {p q r : PageId}

/-- The comparison of `PageId`s, as it stands in the source. -/
theorem PageId.lt_eq_true : p.lt q = true ↔ p.fd < q.fd ∨ p.pageNo < q.pageNo := by
  simp [PageId.lt]

/-- Its negation. -/
theorem PageId.lt_eq_false : p.lt q = false ↔ q.fd ≤ p.fd ∧ q.pageNo ≤ p.pageNo := by
  simp [PageId.lt]

/-- Two pages of which neither is smaller are the same. -/
theorem PageId.eq_of_incomparable (h : p.lt q = false) (h' : q.lt p = false) : p = q := by
  obtain ⟨hfd, hpage⟩ := PageId.lt_eq_false.mp h
  obtain ⟨hfd', hpage'⟩ := PageId.lt_eq_false.mp h'
  obtain ⟨fd, n⟩ := p
  obtain ⟨fd', n'⟩ := q
  obtain rfl : fd = fd' := le_antisymm hfd' hfd
  obtain rfl : n = n' := le_antisymm hpage' hpage
  rfl

/-- No page is smaller than itself. -/
theorem PageId.lt_self (p : PageId) : p.lt p = false := by
  simp [PageId.lt]

/-- **When `operator<` is as the map needs it.** -/
theorem strictWeakOn_iff : PageId.StrictWeakOn pages ↔ PageId.Ordered pages := by
  constructor
  · intro h
    exact h.asymm
  · intro h
    constructor
    · intro p _
      exact p.lt_self
    · exact h
    · intro p hp q hq r hr hpq hqr
      -- neither the descriptor nor the number goes down on the way
      obtain ⟨hfd, hpage⟩ := PageId.lt_eq_false.mp (h p hp q hq hpq)
      obtain ⟨hfd', hpage'⟩ := PageId.lt_eq_false.mp (h q hq r hr hqr)
      rw [PageId.lt_eq_true] at hpq ⊢
      omega
    · intro p _ q _ r _ hpq hqp hqr hrq
      obtain rfl := PageId.eq_of_incomparable hpq hqp
      exact ⟨hqr, hrq⟩
    · intro p _ q _
      constructor
      · rintro ⟨hpq, hqp⟩
        exact PageId.eq_of_incomparable hpq hqp
      · rintro rfl
        exact ⟨p.lt_self, p.lt_self⟩

instance (pages : List PageId) : Decidable (PageId.Ordered pages) :=
  inferInstanceAs (Decidable (∀ p ∈ pages, ∀ q ∈ pages, p.lt q = true → q.lt p = false))

/-- **No page comes again behind two pages that are each before the other.** -/
def PageId.AgainOrdered (pages : List PageId) : Prop :=
  ∀ done p left, pages = done ++ p :: left → p ∈ done → PageId.Ordered done

/-- An ordered list is ordered whatever pages come again. -/
theorem PageId.Ordered.again (h : PageId.Ordered pages) : PageId.AgainOrdered pages := by
  rintro done p left rfl -
  exact h.mono (List.subset_append_left _ _)

/-- The empty list. -/
theorem againOrdered_nil : PageId.AgainOrdered [] := by
  intro done p left h
  simp at h

/-- A part of the list from its beginning. -/
theorem PageId.AgainOrdered.left {pages' : List PageId} (h : PageId.AgainOrdered (pages ++ pages')) :
    PageId.AgainOrdered pages := by
  rintro done p left rfl hp
  exact h done p (left ++ pages') (by simp) hp

/-- One more page: if it comes again, those before it must be ordered. -/
theorem againOrdered_snoc : PageId.AgainOrdered (pages ++ [p]) ↔
    PageId.AgainOrdered pages ∧ (p ∈ pages → PageId.Ordered pages) := by
  constructor
  · intro h
    exact ⟨h.left, fun hp => h pages p [] rfl hp⟩
  · rintro ⟨h, hlast⟩ done q left heq hq
    rcases List.eq_nil_or_concat left with rfl | ⟨left, p', rfl⟩
    · obtain ⟨rfl, hpq⟩ := List.append_inj' heq rfl
      obtain rfl : p = q := by simpa using hpq
      exact hlast hq
    · have hsplit : pages ++ [p] = (done ++ q :: left) ++ [p'] := by
        rw [heq]
        simp
      obtain ⟨rfl, -⟩ := List.append_inj' hsplit rfl
      exact h done q left rfl hq

end Comparison

/-! ### The records that are read -/

section Reads

variable {env env' : LogTables} {file window : List UInt8} {fuel offset : Nat} {logOffset logOffset' : Int}
  {s s' : RecoveryManager} {l : List (LogRecord × Nat)}

/-- What is done with the records one after the other. -/
def processEach (env : LogTables) (s : RecoveryManager) (l : List (LogRecord × Nat)) :
    Except RecoveryError RecoveryManager := l.foldlM (RecoveryManager.process env) s

/-- The first record, then the rest. -/
theorem processEach_cons {x : LogRecord × Nat} :
    processEach env s (x :: l) = (s.process env x).bind fun s => processEach env s l := List.foldlM_cons

/-- Records in two parts. -/
theorem processEach_append (l' : List (LogRecord × Nat)) :
    processEach env s (l ++ l') = (processEach env s l).bind fun s => processEach env s l' := List.foldlM_append

/-- The records processed are kept. -/
theorem processEach_records (h : processEach env s l = .ok s') : s'.records = s.records ++ l := by
  induction l generalizing s with
  | nil =>
    cases h
    simp
  | cons x l ih =>
    rw [processEach_cons] at h
    obtain ⟨s₁, hs₁, h⟩ := bind_eq_ok.mp h
    rw [ih h, (process_frame hs₁).2.2]
    simp

/-- **The loop over a window** reads the same records from any state from which they can be processed. -/
theorem scan_reads (h : scan env window fuel offset logOffset s = .ok (logOffset', s')) :
    ∃ l, processEach env s l = .ok s' ∧ ∀ (env' : LogTables) t t', processEach env' t l = .ok t' →
      scan env' window fuel offset logOffset t = .ok (logOffset', t') := by
  induction fuel generalizing offset logOffset s with
  | zero => cases h
  | succ fuel ih =>
    rw [scan] at h
    obtain ⟨len, hword, h⟩ := bind_eq_ok.mp h
    by_cases hstop : logBufferSize ≤ (offset + len) % 2 ^ 32 ∨ len = 0
    · rw [if_pos hstop] at h
      cases h
      refine ⟨[], rfl, fun env' t t' ht => ?_⟩
      cases ht
      rw [scan, hword]
      exact if_pos hstop
    · rw [if_neg hstop] at h
      obtain ⟨r, hr, h⟩ := bind_eq_ok.mp h
      obtain ⟨s₁, hs₁, h⟩ := bind_eq_ok.mp h
      obtain ⟨l, hl, hother⟩ := ih h
      refine ⟨r.1 :: l, ?_, fun env' t t' ht => ?_⟩
      · rw [processEach_cons, hs₁]
        exact hl
      · rw [processEach_cons] at ht
        obtain ⟨t₁, ht₁, ht⟩ := bind_eq_ok.mp ht
        rw [scan, hword]
        dsimp only [Except.bind]
        rw [if_neg hstop, hr]
        dsimp only [Except.bind]
        rw [ht₁]
        exact hother env' t₁ t' ht

/-- What `analyze` reads does not depend on the tables, as long as each record can be processed.
-/
theorem analyzeFrom_reads (h : analyzeFrom env file fuel logOffset s = .ok s') :
    ∃ l, processEach env s l = .ok s' ∧ ∀ (env' : LogTables) t t', processEach env' t l = .ok t' →
      analyzeFrom env' file fuel logOffset t = .ok t' := by
  induction fuel generalizing logOffset s with
  | zero => cases h
  | succ fuel ih =>
    rw [analyzeFrom] at h
    obtain ⟨w, hw, h⟩ := bind_eq_ok.mp h
    obtain ⟨⟨logOffset', s₁⟩, hscan, h⟩ := bind_eq_ok.mp h
    obtain ⟨l, hl, hother⟩ := scan_reads hscan
    by_cases hlast : w.1 < logBufferSize
    · rw [if_pos hlast] at h
      cases h
      refine ⟨l, hl, fun env' t t' ht => ?_⟩
      rw [analyzeFrom, hw]
      dsimp only [Except.bind]
      rw [hother env' t t' ht]
      exact if_pos hlast
    · rw [if_neg hlast] at h
      obtain ⟨l', hl', hother'⟩ := ih h
      refine ⟨l ++ l', ?_, fun env' t t' ht => ?_⟩
      · rw [processEach_append, hl]
        exact hl'
      · rw [processEach_append] at ht
        obtain ⟨t₁, ht₁, ht⟩ := bind_eq_ok.mp ht
        rw [analyzeFrom, hw]
        dsimp only [Except.bind]
        rw [hother env' t t₁ ht₁]
        dsimp only [Except.bind]
        rw [if_neg hlast]
        exact hother' env' t₁ t' ht

/-- **Which records `analyze` reads** does not depend on the tables, if the records can be processed. -/
theorem analyze_reads (h : analyze env file = .ok s) :
    processEach env .new s.records = .ok s ∧ ∀ (env' : LogTables) s', processEach env' .new s.records = .ok s' →
      analyze env' file = .ok s' := by
  obtain ⟨l, hl, hother⟩ := analyzeFrom_reads h
  obtain rfl : s.records = l := by
    rw [processEach_records hl]
    rfl
  exact ⟨hl, fun env' s' hs' => hother env' .new s' hs'⟩

/-- A record can be processed whatever the search finds. -/
theorem process_isOk (h : s.PagesRead env) (r : LogRecord) (len : Nat) :
    ((∃ s', s.process env (r, len) = .ok s') ↔ Readable env r) ∧
    ∀ s', s.process env (r, len) = .ok s' → s'.PagesRead env := by
  obtain ⟨hok, hpages⟩ := process_spec h r
  rw [← hok]
  unfold RecoveryManager.process at hpages ⊢
  cases hs₁ : s.updateTables env r with
  | error e => exact ⟨⟨nofun, nofun⟩, nofun⟩
  | ok s₁ =>
    have hkeys := hpages _ (congrArg _ hs₁)
    refine ⟨⟨fun _ => ⟨_, rfl⟩, fun _ => ⟨_, rfl⟩⟩, fun s' hs' => ?_⟩
    cases hs'
    exact hkeys

/-- All records can be processed exactly when each page that is asked for can be read. -/
theorem processEach_isOk (h : s.PagesRead env) (l : List (LogRecord × Nat)) :
    (∃ s', processEach env s l = .ok s') ↔ ∀ x ∈ l, Readable env x.1 := by
  induction l generalizing s with
  | nil => exact ⟨fun _ => List.forall_mem_nil _, fun _ => ⟨s, rfl⟩⟩
  | cons x l ih =>
    obtain ⟨hok, hpages⟩ := process_isOk h x.1 x.2
    rw [List.forall_mem_cons, ← hok, processEach_cons]
    cases hs₁ : s.process env x with
    | error e => exact ⟨nofun, nofun⟩
    | ok s₁ =>
      rw [← ih (hpages s₁ hs₁)]
      exact ⟨fun hs' => ⟨⟨s₁, rfl⟩, hs'⟩, fun hs' => hs'.2⟩

end Reads

/-! ### The table at the end -/

section Table

variable {env env' : LogTables} {file : List UInt8} {s s' : RecoveryManager} {rs : List LogRecord}
  {r : LogRecord} {table : List (PageId × RedoLogsInPage)} {l : List (LogRecord × Nat)}

/-- `analyze` ends, and these are the records that it has read from the file. -/
def LogHolds (env : LogTables) (file : List UInt8) (rs : List LogRecord) : Prop :=
  ∃ s, analyze env file = .ok s ∧ s.records.map Prod.fst = rs

/-- The same tables and pages; the search in the map may be another one. -/
structure LogTables.SameTables (env env' : LogTables) : Prop where
  fhs : env'.fhs = env.fhs
  pageLsn : env'.pageLsn = env.pageLsn

/-- **`redo` goes through the entries**, in the order of the map: it comes to each page of the log once, and
to no other page. -/
def VisitedOnce (env : LogTables) (rs : List LogRecord) (table : List (PageId × RedoLogsInPage)) : Prop :=
  ∀ visits : List (PageId × RedoLogsInPage), visits.Perm table → ∀ p,
    (visits.map Prod.fst).count p = if p ∈ touchedPages env rs then 1 else 0

/-- A correct dirty page table has each page once. -/
theorem DirtyPages.visitedOnce (h : DirtyPages env rs table) : VisitedOnce env rs table := by
  intro visits hperm p
  have hnodup : (visits.map Prod.fst).Nodup := (hperm.map Prod.fst).nodup_iff.mpr h.nodup
  have hmem : p ∈ visits.map Prod.fst ↔ p ∈ touchedPages env rs := by
    rw [(hperm.map Prod.fst).mem_iff]
    exact h.keys p
  split
  · next hp => exact List.count_eq_one_of_mem hnodup (hmem.mpr hp)
  · next hp => exact List.count_eq_zero_of_not_mem (mt hmem.mp hp)

/-! ### Every search -/

/-- The search does not matter to the pages a log touches. -/
theorem LogTables.SameTables.touchedPages (h : env.SameTables env') (rs : List LogRecord) :
    touchedPages env' rs = touchedPages env rs := by
  unfold Rmdb.touchedPages
  rw [h.fhs]

/-- Nor to whether a record can be processed. -/
theorem LogTables.SameTables.readable (h : env.SameTables env') (r : LogRecord) :
    Readable env' r ↔ Readable env r := by
  unfold Readable
  rw [h.fhs, h.pageLsn]

/-- Nor to what a correct table is. -/
theorem LogTables.SameTables.dirtyPages (h : env.SameTables env') :
    DirtyPages env' rs table ↔ DirtyPages env rs table := by
  have hchanges : ∀ p, changesOfPage env' p rs = changesOfPage env p rs := by
    intro p
    unfold changesOfPage
    rw [h.fhs]
  constructor
  · rintro ⟨hnodup, hkeys, hentry⟩
    simp only [h.touchedPages, h.fhs, h.pageLsn, hchanges] at hkeys hentry
    exact ⟨hnodup, hkeys, hentry⟩
  · rintro ⟨hnodup, hkeys, hentry⟩
    constructor
    · exact hnodup
    · simp only [h.touchedPages]
      exact hkeys
    · simp only [h.fhs, h.pageLsn, hchanges]
      exact hentry

/-- **Every page has its entry**, if no page comes again behind two that the search may confuse. -/
theorem processEach_dirty (hordered : PageId.AgainOrdered (touchedPages env (l.map Prod.fst)))
    (hs : processEach env .new l = .ok s) : DirtyPages env (l.map Prod.fst) s.dirtyPageTable := by
  induction l using List.reverseRecOn generalizing s with
  | nil =>
    cases hs
    exact .nil env
  | append_singleton l x ih =>
    rw [processEach_append] at hs
    obtain ⟨s₁, hs₁, hs⟩ := bind_eq_ok.mp hs
    rw [processEach_cons] at hs
    obtain ⟨s₂, hs₂, hs⟩ := bind_eq_ok.mp hs
    cases hs
    rw [List.map_append, List.map_singleton] at hordered ⊢
    have hbefore : PageId.AgainOrdered (touchedPages env (l.map Prod.fst)) := by
      unfold touchedPages at hordered ⊢
      rw [List.filterMap_append] at hordered
      exact hordered.left
    refine (ih hbefore hs₁).process (fun c fd hbody hfd hmem => ?_) hs₂
    rw [touchedPages_snoc hbody hfd] at hordered
    exact (againOrdered_snoc.mp hordered).2 hmem

/-- A search that finds a page only where the library promises it. -/
def strictSearch (keys : List PageId) (p : PageId) : Option Nat :=
  if PageId.Ordered keys then findPage keys p else none

/-- These tables, with that search. -/
def LogTables.strict (env : LogTables) : LogTables where
  fhs := env.fhs
  pageLsn := env.pageLsn
  find := strictSearch
  find_key keys p i h := by
    unfold strictSearch at h
    split at h
    · exact findPage_key keys p i h
    · cases h
  find_mem keys p hordered hp := by
    unfold strictSearch
    rw [if_pos hordered]
    exact findPage_mem keys p hp

/-- Another search does not change the tables. -/
theorem LogTables.strict_sameTables (env : LogTables) : env.SameTables env.strict := ⟨rfl, rfl⟩

/-- The keys after a change: the page has been found, or it comes in. -/
theorem touchPage_keys {fd : Int} {c : LoggedChange} {lsn : Lsn} (hfd : env.fhs c.tableName = some fd)
    (h : s.touchPage env lsn c = .ok s') :
    s'.dirtyPageTable.map Prod.fst =
      if (env.find (s.dirtyPageTable.map Prod.fst) ⟨fd, c.rid.pageNo⟩).isSome then
        s.dirtyPageTable.map Prod.fst
      else s.dirtyPageTable.map Prod.fst ++ [⟨fd, c.rid.pageNo⟩] := by
  unfold RecoveryManager.touchPage at h
  rw [hfd] at h
  dsimp only at h
  split at h
  · next i hfind =>
    cases h
    rw [hfind, keys_modify]
    simp
  · next hfind =>
    split at h
    · cases h
    · cases h
      rw [hfind]
      simp

/-- **With that search** the keys are the pages of the log, and there is one of each only if no page has come
again behind two that are each before the other. -/
theorem processEach_strict (hs : processEach env.strict .new l = .ok s) :
    (∀ p, p ∈ s.dirtyPageTable.map Prod.fst ↔ p ∈ touchedPages env (l.map Prod.fst)) ∧
      ((s.dirtyPageTable.map Prod.fst).Nodup → PageId.AgainOrdered (touchedPages env (l.map Prod.fst))) := by
  induction l using List.reverseRecOn generalizing s with
  | nil =>
    cases hs
    exact ⟨fun _ => Iff.rfl, fun _ => againOrdered_nil⟩
  | append_singleton l x ih =>
    rw [processEach_append] at hs
    obtain ⟨s₁, hs₁, hs⟩ := bind_eq_ok.mp hs
    rw [processEach_cons] at hs
    obtain ⟨s₂, hs₂, hs⟩ := bind_eq_ok.mp hs
    cases hs
    obtain ⟨hkeys, hagain⟩ := ih hs₁
    rw [List.map_append, List.map_singleton]
    rcases process_dirty_cases hs₂ with ⟨hbody, hsame⟩ | ⟨c, fd, t, t', hbody, hfd, hsame, htouch, hend⟩
    · rw [hsame, touchedPages_snoc_other hbody]
      exact ⟨hkeys, hagain⟩
    have htouched : touchedPages env (l.map Prod.fst ++ [x.1]) =
        touchedPages env (l.map Prod.fst) ++ [⟨fd, c.rid.pageNo⟩] := touchedPages_snoc hbody hfd _
    rw [htouched, hend, touchPage_keys hfd htouch, hsame]
    cases hfind : env.strict.find (s₁.dirtyPageTable.map Prod.fst) ⟨fd, c.rid.pageNo⟩ with
    | some i =>
      rw [Option.isSome_some, if_pos rfl]
      have hmem := List.mem_of_getElem? (env.strict.find_key _ _ _ hfind)
      refine ⟨fun p => ?_, fun hnodup => againOrdered_snoc.mpr ⟨hagain hnodup, fun _ => ?_⟩⟩
      · rw [List.mem_append, List.mem_singleton, hkeys]
        constructor
        · exact Or.inl
        · rintro (hp | rfl)
          · exact hp
          · exact (hkeys _).mp hmem
      · -- the page has been found, so that the pages are ordered
        by_contra hnot
        have hunordered : ¬ PageId.Ordered (s₁.dirtyPageTable.map Prod.fst) := fun h => hnot fun p hp q hq =>
          h p ((hkeys p).mpr hp) q ((hkeys q).mpr hq)
        have hnone : env.strict.find (s₁.dirtyPageTable.map Prod.fst) ⟨fd, c.rid.pageNo⟩ = none :=
          if_neg hunordered
        rw [hfind] at hnone
        cases hnone
    | none =>
      rw [Option.isSome_none, if_neg (by simp)]
      refine ⟨fun p => ?_, fun hnodup => againOrdered_snoc.mpr ?_⟩
      · rw [List.mem_append, List.mem_append, hkeys]
      · rw [List.nodup_append] at hnodup
        refine ⟨hagain hnodup.1, fun hmem => ?_⟩
        -- a page that is there has come in once more
        exact absurd rfl (hnodup.2.2 _ ((hkeys _).mpr hmem) _ (List.mem_singleton_self _))

/-- **For which logs the table is right.**  `operator<` is a strict weak order on pages of which no two are
each before the other.  Each page of a log has one entry with its numbers, and `redo` comes to it once,
whatever the search does that the library does not promise, just if no page is changed again after two
pages that are each before the other. -/
theorem pageOrder_iff (pages : List PageId) (h : LogHolds env file rs) :
    (PageId.StrictWeakOn pages ↔ PageId.Ordered pages) ∧
    ((∀ env', env.SameTables env' → ∃ s, analyze env' file = .ok s ∧
        DirtyPages env rs s.dirtyPageTable ∧ VisitedOnce env rs s.dirtyPageTable) ↔
      PageId.AgainOrdered (touchedPages env rs)) := by
  refine ⟨strictWeakOn_iff, ?_⟩
  obtain ⟨s, hs, rfl⟩ := h
  obtain ⟨hread, hanalyze⟩ := analyze_reads hs
  -- every search gets to the end of the file
  have hend : ∀ env', env.SameTables env' →
      ∃ s', processEach env' .new s.records = .ok s' ∧ analyze env' file = .ok s' := by
    intro env' hsame
    have hok : ∃ s', processEach env' .new s.records = .ok s' := by
      rw [processEach_isOk (pagesRead_new env')]
      intro x hx
      rw [hsame.readable]
      exact (processEach_isOk (pagesRead_new env) s.records).mp ⟨s, hread⟩ x hx
    obtain ⟨s', hs'⟩ := hok
    exact ⟨s', hs', hanalyze env' s' hs'⟩
  constructor
  · intro h
    obtain ⟨s', hs', hdirty, -⟩ := h _ env.strict_sameTables
    obtain ⟨t, ht, hanalyzed⟩ := hend _ env.strict_sameTables
    obtain rfl : t = s' := Except.ok.inj (hanalyzed.symm.trans hs')
    exact (processEach_strict ht).2 hdirty.nodup
  · intro h env' hsame
    obtain ⟨s', hs', hanalyzed⟩ := hend env' hsame
    have hdirty := processEach_dirty (by rwa [hsame.touchedPages]) hs'
    rw [hsame.dirtyPages] at hdirty
    exact ⟨s', hanalyzed, hdirty, hdirty.visitedOnce⟩

end Table

/-! ### Two tables -/

/-- Table `a` has descriptor 1 and table `b` has descriptor 2. -/
def twoTables : LogTables where
  fhs := fun tab => if tab = "a" then some 1 else if tab = "b" then some 2 else none
  pageLsn := fun _ => some 0
  find := findPage
  find_key := findPage_key
  find_mem := fun keys p _ => findPage_mem keys p

/-- An insert of the only transaction. -/
def insertInto (lsn : Lsn) (tab : String) (rid : Rid) : LogRecord :=
  ⟨lsn, 0, lsn - 1, .change (.insert [1] rid tab)⟩

/-- The transaction inserts on page 3 of `b` and on pages 5 and 2 of `a`. -/
def threePages : List LogRecord :=
  [⟨0, 0, -1, .begin⟩, insertInto 1 "b" ⟨3, 0⟩, insertInto 2 "a" ⟨5, 0⟩, insertInto 3 "a" ⟨2, 0⟩]

/-- And on the first of these pages again. -/
def pageAgain : List LogRecord := threePages ++ [insertInto 4 "b" ⟨3, 1⟩]

/-- The sample log is written by the log manager. -/
theorem written_pageAgain : Written pageAgain := by
  have hinsert : ∀ (lsn : Lsn) (tab : String) (rid : Rid), Int32Range lsn → Int32Range (lsn - 1) →
      Int32Range rid.pageNo → Int32Range rid.slotNo → (insertInto lsn tab rid).Typed := by
    intro lsn tab rid hlsn hprev hpage hslot
    refine ⟨hlsn, show Int32Range 0 from ⟨by decide, by decide⟩, hprev, fun c hc => ?_⟩
    cases hc
    exact ⟨hpage, hslot⟩
  unfold pageAgain threePages Written
  simp only [List.cons_append, List.nil_append, List.forall_mem_cons]
  refine ⟨⟨⟨?_, ?_, ?_, nofun⟩, by decide⟩, ⟨hinsert _ _ _ ?_ ?_ ?_ ?_, by decide⟩,
    ⟨hinsert _ _ _ ?_ ?_ ?_ ?_, by decide⟩, ⟨hinsert _ _ _ ?_ ?_ ?_ ?_, by decide⟩,
    ⟨hinsert _ _ _ ?_ ?_ ?_ ?_, by decide⟩, List.forall_mem_nil _⟩ <;> exact ⟨by decide, by decide⟩

/-- Its records can be read. -/
theorem readable_pageAgain : ∀ r ∈ pageAgain, Readable twoTables r := by
  unfold pageAgain threePages
  simp only [List.cons_append, List.nil_append, List.forall_mem_cons]
  exact ⟨Int.le_refl 0, ⟨2, rfl, rfl⟩, ⟨1, rfl, rfl⟩, ⟨1, rfl, rfl⟩, ⟨2, rfl, rfl⟩, List.forall_mem_nil _⟩

/-- Both logs fit in the window. -/
theorem inWindows_of_short {rs : List LogRecord} (h : (rs.map (·.totLen)).sum < 1000) :
    (rs.flatMap (·.serialize)).length < 2 ^ 31 ∧ InWindows rs := by
  have hLBS : 1012 ≤ logBufferSize := by decide
  have hlens : rs.map (fun r => r.serialize.length) = rs.map (·.totLen) :=
    List.map_congr_left fun r _ => r.length_serialize
  constructor
  · rw [List.length_flatMap, hlens]
    omega
  · refine ⟨_, lastOffset_of_fits (by omega), by omega⟩

/-- The shorter log is a part of it. -/
theorem threePages_sublist : ∀ r ∈ threePages, r ∈ pageAgain := fun _ hr => List.mem_append_left _ hr

/-- A log of such records is read to its end if it is short. -/
theorem logHolds_of_short {rs : List LogRecord} (hsub : ∀ r ∈ rs, r ∈ pageAgain)
    (h : (rs.map (·.totLen)).sum < 1000) : LogHolds twoTables (rs.flatMap (·.serialize)) rs := by
  have hrs : Written rs := fun r hr => written_pageAgain r (hsub r hr)
  obtain ⟨hsize, hin⟩ := inWindows_of_short h
  obtain ⟨s, hs, hrecords⟩ := (analyze_records_iff twoTables hrs).mpr
    ⟨hsize, hin, fun r hr => readable_pageAgain r (hsub r hr)⟩
  refine ⟨s, hs, ?_⟩
  rw [hrecords, List.map_map]
  exact List.map_id rs

/-- **Pages that come in once** have one entry each. -/
theorem pageOrder_iff_three_pages :
    LogHolds twoTables (threePages.flatMap (·.serialize)) threePages ∧
    ∀ env', twoTables.SameTables env' → ∃ s, analyze env' (threePages.flatMap (·.serialize)) = .ok s ∧
      DirtyPages twoTables threePages s.dirtyPageTable ∧
        VisitedOnce twoTables threePages s.dirtyPageTable := by
  have hholds := logHolds_of_short threePages_sublist (by decide)
  refine ⟨hholds, (pageOrder_iff [] hholds).2.mpr ?_⟩
  rintro done p left heq hp
  have hnodup : (touchedPages twoTables threePages).Nodup := by decide
  rw [heq, List.nodup_append] at hnodup
  exact absurd rfl (hnodup.2.2 p hp p (List.mem_cons_self))

/-- **Pages 3 of `b` and 5 of `a` are each before the other**, and page 3 of `b` has two entries: after the
other two pages the search need not find it. -/
theorem page_with_two_entries :
    (⟨2, 3⟩ : PageId).lt ⟨1, 5⟩ = true ∧ (⟨1, 5⟩ : PageId).lt ⟨2, 3⟩ = true ∧
    LogHolds twoTables (pageAgain.flatMap (·.serialize)) pageAgain ∧
    ∃ s, analyze twoTables.strict (pageAgain.flatMap (·.serialize)) = .ok s ∧
      s.dirtyPageTable.map Prod.fst = [⟨2, 3⟩, ⟨1, 5⟩, ⟨1, 2⟩, ⟨2, 3⟩] := by
  have hsum : (pageAgain.map (·.totLen)).sum < 1000 := by decide
  refine ⟨by decide, by decide, logHolds_of_short (fun _ hr => hr) hsum, ?_⟩
  obtain ⟨hsize, hin⟩ := inWindows_of_short hsum
  have hprocess : ∃ s, processAll twoTables.strict .new pageAgain = .ok s ∧
      s.dirtyPageTable.map Prod.fst = [⟨2, 3⟩, ⟨1, 5⟩, ⟨1, 2⟩, ⟨2, 3⟩] := ⟨_, rfl, by decide⟩
  obtain ⟨s, hs, hkeys⟩ := hprocess
  exact ⟨s, (analyze_complete written_pageAgain hsize s).mpr ⟨hin, hs⟩, hkeys⟩

end Rmdb
