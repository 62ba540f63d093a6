import Rmdb.Recovery.LogWindows

namespace Rmdb

open Lib

/-!
# The dirty pages (`RecoveryManager::analyze`, `dirty_page_table`)

The first change of a page makes an entry, which begins with the LSN of the page; the numbers above it are
appended.

* `changesOn`, `changesOfPage` — the changes of a page, in the order of the log;
* `DirtyPages`, `DirtyOf` — the table after these records;
* `DirtyPages.process` — it stays so unless the page is one that the search may miss;
* `processAll_dirty` — it is so if `operator<` orders the pages of the log.
-/

/-! ### The changes of the log -/

/-- The change of a record of an `INSERT`, an `UPDATE` or a `DELETE`. -/
def LogRecord.loggedChange (r : LogRecord) : Option LoggedChange :=
  match r.body with
  | .change c => some c
  | .begin | .commit | .abort => none

/-- The changes of a page of a table, with their numbers. -/
def changesOn (tab : String) (n : Int) (rs : List LogRecord) : List (Lsn × LoggedChange) :=
  rs.filterMap fun r => r.loggedChange.bind fun c =>
    if c.tableName = tab ∧ c.rid.pageNo = n then some (r.lsn, c) else none

/-- The pages of the log. -/
def touchedPages (env : LogTables) (rs : List LogRecord) : List PageId :=
  rs.filterMap fun r => r.loggedChange.bind fun c =>
    (env.fhs c.tableName).map fun fd => ⟨fd, c.rid.pageNo⟩

/-- Different tables have different descriptors. -/
def LogTables.Distinct (env : LogTables) : Prop :=
  ∀ tab tab' fd, env.fhs tab = some fd → env.fhs tab' = some fd → tab = tab'

variable {env : LogTables} {rs : List LogRecord} {r : LogRecord} {s s' : RecoveryManager}
  {table : List (PageId × RedoLogsInPage)} {tab : String} {n : Int} {c : LoggedChange} {p : PageId}

/-- The change of a record. -/
theorem loggedChange_eq_some : r.loggedChange = some c ↔ r.body = .change c := by
  unfold LogRecord.loggedChange
  cases r.body <;> simp

/-- A change of the log to this page. -/
theorem mem_changesOn {e : Lsn × LoggedChange} : e ∈ changesOn tab n rs ↔
    ∃ r ∈ rs, r.body = .change e.2 ∧ r.lsn = e.1 ∧ e.2.tableName = tab ∧ e.2.rid.pageNo = n := by
  unfold changesOn
  rw [List.mem_filterMap]
  refine exists_congr fun r => and_congr_right fun _ => ?_
  rw [Option.bind_eq_some_iff]
  constructor
  · rintro ⟨c, hc, h⟩
    split at h
    · next hkey =>
      obtain rfl := Option.some.inj h
      exact ⟨loggedChange_eq_some.mp hc, rfl, hkey⟩
    · cases h
  · rintro ⟨hbody, hlsn, hkey⟩
    refine ⟨e.2, loggedChange_eq_some.mpr hbody, ?_⟩
    rw [if_pos hkey, hlsn]

/-- A page that the log changes. -/
theorem mem_touchedPages : p ∈ touchedPages env rs ↔
    ∃ r ∈ rs, ∃ c, r.body = .change c ∧ env.fhs c.tableName = some p.fd ∧ c.rid.pageNo = p.pageNo := by
  unfold touchedPages
  rw [List.mem_filterMap]
  refine exists_congr fun r => and_congr_right fun _ => ?_
  rw [Option.bind_eq_some_iff]
  refine exists_congr fun c => ?_
  rw [loggedChange_eq_some, Option.map_eq_some_iff]
  refine and_congr_right fun _ => ⟨?_, fun ⟨hfd, hpage⟩ => ⟨p.fd, hfd, by rw [hpage]⟩⟩
  rintro ⟨fd, hfd, rfl⟩
  exact ⟨hfd, rfl⟩

/-- A page without changes is not one of the log. -/
theorem changesOn_eq_nil {fd : Int} (hfd : env.fhs tab = some fd)
    (h : (⟨fd, n⟩ : PageId) ∉ touchedPages env rs) : changesOn tab n rs = [] := by
  refine List.eq_nil_iff_forall_not_mem.mpr fun e he => h ?_
  obtain ⟨r, hr, hbody, -, htab, hpage⟩ := mem_changesOn.mp he
  exact mem_touchedPages.mpr ⟨r, hr, e.2, hbody, by rw [htab]; exact hfd, hpage⟩

/-- The changes of a page, under its descriptor. -/
def changesOfPage (env : LogTables) (p : PageId) (rs : List LogRecord) : List (Lsn × LoggedChange) :=
  rs.filterMap fun r => r.loggedChange.bind fun c =>
    if env.fhs c.tableName = some p.fd ∧ c.rid.pageNo = p.pageNo then some (r.lsn, c) else none

/-- Different tables have different pages. -/
theorem changesOn_eq_changesOfPage (h : env.Distinct) (htab : env.fhs tab = some p.fd) (rs : List LogRecord) :
    changesOn tab p.pageNo rs = changesOfPage env p rs := by
  unfold changesOn changesOfPage
  refine congrArg (List.filterMap · rs) (funext fun r => congrArg _ (funext fun c => ?_))
  have hiff : c.tableName = tab ↔ env.fhs c.tableName = some p.fd := by
    constructor
    · rintro rfl
      exact htab
    · intro hfd
      exact h _ _ _ hfd htab
  simp only [hiff]

/-- A change to this page. -/
theorem changesOfPage_snoc_self (rs : List LogRecord) (hbody : r.body = .change c)
    (hfd : env.fhs c.tableName = some p.fd) (hpage : c.rid.pageNo = p.pageNo) :
    changesOfPage env p (rs ++ [r]) = changesOfPage env p rs ++ [(r.lsn, c)] := by
  unfold changesOfPage
  rw [List.filterMap_append]
  refine congrArg _ (List.filterMap_cons_some (b := (r.lsn, c)) ?_)
  rw [loggedChange_eq_some.mpr hbody, Option.bind_some, if_pos ⟨hfd, hpage⟩]

/-- A change to another page. -/
theorem changesOfPage_snoc_of_ne (rs : List LogRecord)
    (h : ∀ c, r.body = .change c → ¬ (env.fhs c.tableName = some p.fd ∧ c.rid.pageNo = p.pageNo)) :
    changesOfPage env p (rs ++ [r]) = changesOfPage env p rs := by
  unfold changesOfPage
  rw [List.filterMap_append]
  refine (congrArg _ (List.filterMap_cons_none ?_)).trans (List.append_nil _)
  cases hc : r.loggedChange with
  | none => rfl
  | some c => exact if_neg (h c (loggedChange_eq_some.mp hc))

/-- A page that is not touched. -/
theorem changesOfPage_eq_nil (h : p ∉ touchedPages env rs) : changesOfPage env p rs = [] := by
  unfold changesOfPage
  refine List.filterMap_eq_nil_iff.mpr fun r hr => Option.bind_eq_none_iff.mpr fun c hc => ?_
  refine if_neg fun hkey => h ?_
  exact mem_touchedPages.mpr ⟨r, hr, c, loggedChange_eq_some.mp hc, hkey⟩

/-- The page of one more change. -/
theorem touchedPages_snoc {fd : Int} (hbody : r.body = .change c) (hfd : env.fhs c.tableName = some fd)
    (rs : List LogRecord) : touchedPages env (rs ++ [r]) = touchedPages env rs ++ [⟨fd, c.rid.pageNo⟩] := by
  unfold touchedPages
  rw [List.filterMap_append]
  refine congrArg _ (List.filterMap_cons_some (b := (⟨fd, c.rid.pageNo⟩ : PageId)) ?_)
  rw [loggedChange_eq_some.mpr hbody, Option.bind_some, hfd, Option.map_some]

/-- A record without a change. -/
theorem touchedPages_snoc_other (h : ∀ c, r.body ≠ .change c) (rs : List LogRecord) :
    touchedPages env (rs ++ [r]) = touchedPages env rs := by
  unfold touchedPages
  rw [List.filterMap_append]
  refine (congrArg _ (List.filterMap_cons_none ?_)).trans (List.append_nil _)
  cases hc : r.loggedChange with
  | none => rfl
  | some c => exact absurd (loggedChange_eq_some.mp hc) (h c)

/-! ### The table -/

/-- The LSN of the page, and the numbers above it. -/
def redoList (pageLsn : Lsn) (cs : List (Lsn × LoggedChange)) : List Lsn :=
  pageLsn :: ((cs.filter fun c => pageLsn < c.1).map Prod.fst)

/-- **The table of the dirty pages** after these records: each page of the log has one entry, with the LSN
of the page and the numbers of its changes above it. -/
structure DirtyPages (env : LogTables) (rs : List LogRecord) (table : List (PageId × RedoLogsInPage)) :
    Prop where
  nodup : (table.map Prod.fst).Nodup
  keys : ∀ p, p ∈ table.map Prod.fst ↔ p ∈ touchedPages env rs
  entry : ∀ e ∈ table, env.fhs e.2.tableFile = some e.1.fd ∧ ∃ pageLsn, env.pageLsn e.1 = some pageLsn ∧
    e.2.redoLogs = redoList pageLsn (changesOfPage env e.1 rs)

/-- The same, with the changes of a page told by its table. -/
structure DirtyOf (env : LogTables) (rs : List LogRecord) (table : List (PageId × RedoLogsInPage)) : Prop where
  nodup : (table.map Prod.fst).Nodup
  keys : ∀ p, p ∈ table.map Prod.fst ↔ p ∈ touchedPages env rs
  entry : ∀ e ∈ table, env.fhs e.2.tableFile = some e.1.fd ∧ ∃ pageLsn, env.pageLsn e.1 = some pageLsn ∧
    e.2.redoLogs = redoList pageLsn (changesOn e.2.tableFile e.1.pageNo rs)

/-- The entries, each under its own page. -/
theorem DirtyPages.dirtyOf (h : DirtyPages env rs table) (hdistinct : env.Distinct) : DirtyOf env rs table := by
  refine ⟨h.nodup, h.keys, fun e he => ?_⟩
  obtain ⟨htab, pageLsn, hlsn, hlogs⟩ := h.entry e he
  refine ⟨htab, pageLsn, hlsn, ?_⟩
  rw [changesOn_eq_changesOfPage hdistinct htab]
  exact hlogs

/-- An empty log. -/
theorem DirtyPages.nil (env : LogTables) : DirtyPages env [] [] := ⟨List.nodup_nil, fun _ => Iff.rfl, nofun⟩

/-- A record that is no change leaves the table. -/
theorem DirtyPages.other (h : DirtyPages env rs table) (hbody : ∀ c, r.body ≠ .change c) :
    DirtyPages env (rs ++ [r]) table := by
  refine ⟨h.nodup, fun p => ?_, fun e he => ?_⟩
  · rw [touchedPages_snoc_other hbody]
    exact h.keys p
  · rw [changesOfPage_snoc_of_ne rs fun c hc => absurd hc (hbody c)]
    exact h.entry e he

/-- `pushRedo` appends a number above the LSN of the page. -/
theorem pushRedo_redoLogs {logs : RedoLogsInPage} {pageLsn : Lsn} {cs : List (Lsn × LoggedChange)}
    (h : logs.redoLogs = redoList pageLsn cs) (lsn : Lsn) (c : LoggedChange) :
    (RecoveryManager.pushRedo lsn logs).redoLogs = redoList pageLsn (cs ++ [(lsn, c)]) := by
  unfold RecoveryManager.pushRedo
  rw [h]
  unfold redoList
  rw [List.head?_cons, List.filter_append, List.filter_singleton]
  dsimp only
  by_cases hlt : pageLsn < lsn
  · rw [if_pos hlt, decide_eq_true hlt]
    simp
  · rw [if_neg hlt, decide_eq_false hlt]
    simp [h, redoList]

/-- The file of an entry stays. -/
theorem pushRedo_tableFile (lsn : Lsn) (logs : RedoLogsInPage) :
    (RecoveryManager.pushRedo lsn logs).tableFile = logs.tableFile := by
  unfold RecoveryManager.pushRedo
  split
  · split <;> rfl
  · rfl

/-- What is in a list with one entry changed. -/
theorem mem_modify {α : Type} {l : List α} {i : Nat} {f : α → α} {a' : α} (h : a' ∈ l.modify i f) :
    ∃ j a, l[j]? = some a ∧ a' = if i = j then f a else a := by
  obtain ⟨j, hj⟩ := List.mem_iff_getElem?.mp h
  rw [List.getElem?_modify] at hj
  obtain ⟨a, ha, rfl⟩ := Option.map_eq_some_iff.mp hj
  refine ⟨j, a, ha, ?_⟩
  split <;> rfl

/-- The pages other than that of the change have no new one. -/
theorem changesOfPage_other {fd : Int} (hbody : r.body = .change c) (hfd : env.fhs c.tableName = some fd)
    {p : PageId} (hne : p ≠ ⟨fd, c.rid.pageNo⟩) :
    changesOfPage env p (rs ++ [r]) = changesOfPage env p rs := by
  refine changesOfPage_snoc_of_ne rs fun c' hc' hkey => hne ?_
  obtain rfl : c = c' := LogBody.change.inj (hbody.symm.trans hc')
  obtain ⟨fd', n'⟩ := p
  obtain rfl := Option.some.inj (hfd.symm.trans hkey.1)
  exact congrArg _ hkey.2.symm

/-- **The change is pushed** to the entry of its page. -/
theorem DirtyPages.push (h : DirtyPages env rs table) {fd : Int} (hbody : r.body = .change c)
    (hfd : env.fhs c.tableName = some fd) {i : Nat}
    (hkey : (table.map Prod.fst)[i]? = some ⟨fd, c.rid.pageNo⟩) :
    DirtyPages env (rs ++ [r]) (table.modify i fun e => (e.1, RecoveryManager.pushRedo r.lsn e.2)) := by
  have hkeyi := hkey
  rw [List.getElem?_map] at hkey
  obtain ⟨e₀, he₀, hkey⟩ := Option.map_eq_some_iff.mp hkey
  refine ⟨?_, fun p => ?_, fun e' he' => ?_⟩
  · rw [keys_modify]
    exact h.nodup
  · rw [keys_modify, h.keys, touchedPages_snoc hbody hfd, List.mem_append, List.mem_singleton]
    refine ⟨Or.inl, fun hp => hp.elim id ?_⟩
    rintro rfl
    rw [← h.keys, ← hkey]
    exact List.mem_map_of_mem (List.mem_of_getElem? he₀)
  · obtain ⟨j, e, he, rfl⟩ := mem_modify he'
    have hmem := List.mem_of_getElem? he
    by_cases hij : i = j
    · subst hij
      rw [he₀] at he
      obtain rfl := Option.some.inj he
      rw [if_pos rfl]
      obtain ⟨htab, pageLsn, hlsn, hlogs⟩ := h.entry e₀ hmem
      dsimp only
      refine ⟨by rw [pushRedo_tableFile]; exact htab, pageLsn, hlsn, ?_⟩
      rw [hkey, changesOfPage_snoc_self rs hbody hfd rfl]
      refine pushRedo_redoLogs ?_ r.lsn c
      rw [hlogs, hkey]
    · rw [if_neg hij]
      -- the keys are different, so this is the entry of another page
      have hne : e.1 ≠ ⟨fd, c.rid.pageNo⟩ := by
        intro heq
        have hkeyj : (table.map Prod.fst)[j]? = some ⟨fd, c.rid.pageNo⟩ := by
          rw [List.getElem?_map, he, Option.map_some, heq]
        refine hij ((List.getElem?_inj ?_ h.nodup).mp (hkeyi.trans hkeyj.symm))
        exact (List.getElem?_eq_some_iff.mp hkeyi).1
      rw [changesOfPage_other hbody hfd hne]
      exact h.entry e hmem

/-- **The page of the change is new.** -/
theorem DirtyPages.snoc (h : DirtyPages env rs table) {fd : Int} (hbody : r.body = .change c)
    (hfd : env.fhs c.tableName = some fd) (hnew : (⟨fd, c.rid.pageNo⟩ : PageId) ∉ table.map Prod.fst)
    {pageLsn : Lsn} (hlsn : env.pageLsn ⟨fd, c.rid.pageNo⟩ = some pageLsn) :
    DirtyPages env (rs ++ [r]) (table ++ [(⟨fd, c.rid.pageNo⟩, RecoveryManager.pushRedo r.lsn
      { tableFile := c.tableName, redoLogs := [pageLsn] })]) := by
  refine ⟨?_, fun p => ?_, fun e he => ?_⟩
  · rw [List.map_append]
    exact h.nodup.append (List.nodup_singleton _) (List.disjoint_singleton.mpr hnew)
  · rw [touchedPages_snoc hbody hfd, List.map_append, List.mem_append, List.mem_append, h.keys]
    exact or_congr_right Iff.rfl
  · rcases List.mem_append.mp he with he | he
    · rw [changesOfPage_other hbody hfd fun heq => hnew (heq ▸ List.mem_map_of_mem he)]
      exact h.entry e he
    · obtain rfl := List.mem_singleton.mp he
      refine ⟨by rw [pushRedo_tableFile]; exact hfd, pageLsn, hlsn, ?_⟩
      dsimp only
      rw [changesOfPage_snoc_self rs hbody hfd rfl]
      refine pushRedo_redoLogs ?_ r.lsn c
      rw [changesOfPage_eq_nil (by rw [← h.keys]; exact hnew)]
      rfl

/-- **A change goes into the entry of its page**, if the page is new or the search finds it. -/
theorem DirtyPages.touchPage (h : DirtyPages env rs s.dirtyPageTable) {fd : Int} (hbody : r.body = .change c)
    (hfd : env.fhs c.tableName = some fd)
    (hagain : (⟨fd, c.rid.pageNo⟩ : PageId) ∈ touchedPages env rs → PageId.Ordered (touchedPages env rs))
    (hs' : s.touchPage env r.lsn c = .ok s') : DirtyPages env (rs ++ [r]) s'.dirtyPageTable := by
  unfold RecoveryManager.touchPage at hs'
  rw [hfd] at hs'
  dsimp only at hs'
  split at hs'
  · next i hfind =>
    cases hs'
    exact h.push hbody hfd (env.find_key _ _ _ hfind)
  · next hfind =>
    split at hs'
    · cases hs'
    · next pageLsn hlsn =>
      cases hs'
      refine h.snoc hbody hfd ?_ hlsn
      intro hmem
      have hordered := hagain ((h.keys _).mp hmem)
      have hkeys : PageId.Ordered (s.dirtyPageTable.map Prod.fst) := fun p hp q hq =>
        hordered p ((h.keys p).mp hp) q ((h.keys q).mp hq)
      have hsome := env.find_mem _ _ hkeys hmem
      rw [hfind] at hsome
      cases hsome

/-- What a record does to the table of the dirty pages. -/
theorem process_dirty_cases {len : Nat} (hs' : s.process env (r, len) = .ok s') :
    ((∀ c, r.body ≠ .change c) ∧ s'.dirtyPageTable = s.dirtyPageTable) ∨
    ∃ (c : LoggedChange) (fd : Int) (s₁ s₂ : RecoveryManager), r.body = .change c ∧ env.fhs c.tableName = some fd ∧
      s₁.dirtyPageTable = s.dirtyPageTable ∧ s₁.touchPage env r.lsn c = .ok s₂ ∧
      s'.dirtyPageTable = s₂.dirtyPageTable := by
  unfold RecoveryManager.process at hs'
  cases hs₂ : s.updateTables env r with
  | error e =>
    rw [hs₂] at hs'
    cases hs'
  | ok s₂ =>
    rw [hs₂] at hs'
    cases hs'
    unfold RecoveryManager.updateTables at hs₂
    cases hbody : r.body with
    | change c =>
      rw [hbody] at hs₂
      cases hfd : env.fhs c.tableName with
      | none =>
        dsimp only at hs₂
        unfold RecoveryManager.touchPage at hs₂
        rw [hfd] at hs₂
        cases hs₂
      | some fd => exact .inr ⟨c, fd, s.setActive _ _, s₂, rfl, hfd, rfl, hs₂, rfl⟩
    | begin =>
      rw [hbody] at hs₂
      dsimp only at hs₂
      split at hs₂
      · cases hs₂
      · cases hs₂
        exact .inl ⟨nofun, rfl⟩
    | commit =>
      rw [hbody] at hs₂
      cases hs₂
      exact .inl ⟨nofun, rfl⟩
    | abort =>
      rw [hbody] at hs₂
      cases hs₂
      exact .inl ⟨nofun, rfl⟩

/-- **A record keeps the table**, unless its page may be missed. -/
theorem DirtyPages.process (h : DirtyPages env rs s.dirtyPageTable) {len : Nat}
    (hagain : ∀ c fd, r.body = .change c → env.fhs c.tableName = some fd →
      (⟨fd, c.rid.pageNo⟩ : PageId) ∈ touchedPages env rs → PageId.Ordered (touchedPages env rs))
    (hs' : s.process env (r, len) = .ok s') : DirtyPages env (rs ++ [r]) s'.dirtyPageTable := by
  rcases process_dirty_cases hs' with ⟨hbody, hsame⟩ | ⟨c, fd, s₁, s₂, hbody, hfd, hsame, htouch, hend⟩
  · rw [hsame]
    exact h.other hbody
  · rw [hend]
    rw [← hsame] at h
    exact h.touchPage hbody hfd (hagain c fd hbody hfd) htouch

/-- Fewer pages are ordered. -/
theorem PageId.Ordered.mono {ps qs : List PageId} (h : PageId.Ordered qs) (hsub : ps ⊆ qs) :
    PageId.Ordered ps := fun p hp q hq => h p (hsub hp) q (hsub hq)

/-- A longer log touches more pages. -/
theorem touchedPages_append_left (rs rs' : List LogRecord) :
    touchedPages env rs ⊆ touchedPages env (rs ++ rs') := by
  unfold touchedPages
  rw [List.filterMap_append]
  exact List.subset_append_left _ _

/-- **The dirty pages** after all the records. -/
theorem processAll_dirty (hdistinct : env.Distinct) (hordered : PageId.Ordered (touchedPages env rs))
    (hs : processAll env .new rs = .ok s) : DirtyOf env rs s.dirtyPageTable := by
  refine DirtyPages.dirtyOf ?_ hdistinct
  induction rs using List.reverseRecOn generalizing s with
  | nil =>
    cases hs
    exact .nil env
  | append_singleton rs r ih =>
    have hbefore := hordered.mono (touchedPages_append_left rs [r])
    unfold processAll at hs ih
    rw [List.foldlM_append] at hs
    obtain ⟨s₁, hs₁, hs⟩ := bind_eq_ok.mp hs
    rw [List.foldlM_cons] at hs
    obtain ⟨s₂, hs₂, hs⟩ := bind_eq_ok.mp hs
    cases hs
    exact (ih hbefore hs₁).process (fun _ _ _ _ _ => hbefore) hs₂

end Rmdb
