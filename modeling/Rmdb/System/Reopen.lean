import Rmdb.System.DatabaseInvariant

namespace Rmdb

open Lib

/-!
# A database comes back, without its indexes

`close_db` writes the catalog and all dirty pages; the headers of the tables are on the disk already.
`open_db` reads the catalog and opens the tables.  For an index it opens the file of an index on all
columns of the table, and puts it under the name of the table.

* `flushAllPage_stored` — after `flush_all_page` the pages of every table are on the disk;
* `Database.CatalogOk.read_write` — the catalog is read as it was written;
* `openTables_spec` — the tables are opened on these files;
* `reopen_same_iff` — the database comes back just if it has no index.
-/

namespace SmStore

variable {s s' : SmStore} {f : FrameId} {p : PageId} {n : Int} {name : String}
  {h : FileHandle} {hdr : List UInt8} {ps : List PageId}

/-! ### The disk after `close_db` -/

/-- One step of `flush_all_page`. -/
def flushDirty (s : SmStore) (p : PageId) : SmStore :=
  match s.pageTable p with
  | none => s
  | some f => if (s.frames f).isDirty then s.writeFrame f p else s

/-- `flush_all_pages` goes through the pages one by one. -/
theorem flushAllPage_eq (s : SmStore) (ps : List PageId) : s.flushAllPage ps = ps.foldl flushDirty s :=
  rfl

/-- Pages of the table that are cached elsewhere than `p` keep their bytes on the disk. -/
theorem TableOk.currentPage_writeFrame (ht : s.TableOk name h hdr none)
    (hmap : s.pageTable p = some f) (n : Int) :
    (s.writeFrame f p).currentPage h.fd n = s.currentPage h.fd n := by
  have htable := (writeFrame_pool s f p).1
  unfold SmStore.currentPage
  rw [htable]
  cases hn : s.pageTable ⟨h.fd, n⟩ with
  | some g =>
    simp only
    obtain ⟨files, heq⟩ := s.writePage_frame p (s.frames f).page
    unfold SmStore.writeFrame
    rw [heq]
    by_cases hg : g = f
    · subst hg
      simp
    · simp [hg]
  | none =>
    obtain ⟨file, hfile, -⟩ := ht.stored
    have hof : ∀ {s : SmStore} {file : DiskFile}, s.descriptors.lookup h.fd = some name →
        s.files name = some file → s.fileOf h.fd = some (name, file) := by
      intro s file hl hf
      unfold fileOf
      rw [hl]
      simp only [hf]
    have hdesc : (s.writeFrame f p).descriptors = s.descriptors := by
      obtain ⟨files, frames, heq⟩ := s.writeFrame_frame f p
      rw [heq]
    have hold := hof ht.opened hfile
    by_cases hp : p.fd = h.fd
    · -- another page of the table is written
      have hpn : p = ⟨h.fd, p.pageNo⟩ := by rw [← hp]
      have hne : n ≠ p.pageNo := by
        rintro rfl
        rw [← hpn, hmap] at hn
        cases hn
      obtain ⟨file', hfile', -, hwrite⟩ := ht.writePage_own p.pageNo (s.frames f).page
      obtain rfl : file' = file := Option.some.inj (hfile'.symm.trans hfile)
      have hfiles : (s.writeFrame f p).files name =
          some { file' with pages := Function.update file'.pages p.pageNo (s.frames f).page } := by
        unfold SmStore.writeFrame
        rw [hpn, hwrite]
        simp
      rw [hof (hdesc ▸ ht.opened) hfiles, hold]
      simp [hne]
    · have hfiles : (s.writeFrame f p).files name = some file :=
        (ht.writePage_other hp (s.frames f).page).trans hfile
      rw [hof (hdesc ▸ ht.opened) hfiles, hold]

/-- What flushing keeps, and that what is flushed is clean. -/
structure Flushed (s s' : SmStore) (ps : List PageId) : Prop where
  inv : s'.Inv
  table : s'.pageTable = s.pageTable
  clean : ∀ p ∈ ps, ∀ f, s.pageTable p = some f → (s'.frames f).isDirty = false
  stays : ∀ f, (s.frames f).isDirty = false → (s'.frames f).isDirty = false
  tables : ∀ name h hdr, s.TableOk name h hdr none → s'.TableOk name h hdr none ∧
    ∀ n, s'.currentPage h.fd n = s.currentPage h.fd n

/-- One page is written back if it is dirty. -/
theorem flushDirty_flushed (hi : s.Inv) (p : PageId) : Flushed s (s.flushDirty p) [p] := by
  unfold flushDirty
  split
  · next hnone =>
    refine ⟨hi, rfl, fun q hq f hf => ?_, fun _ hd => hd, fun _ _ _ ht => ⟨ht, fun _ => rfl⟩⟩
    rw [List.mem_singleton.mp hq, hnone] at hf
    cases hf
  · next f hmap =>
    split
    · have hframes : ∀ g, ((s.writeFrame f p).frames g).isDirty =
          if g = f then false else (s.frames g).isDirty := by
        intro g
        obtain ⟨files, heq⟩ := s.writePage_frame p (s.frames f).page
        unfold SmStore.writeFrame
        rw [heq]
        by_cases hg : g = f
        · subst hg
          simp
        · simp [hg]
      refine ⟨hi.writeFrame (.inr ⟨p, hmap⟩) (hi.mapped p f hmap), (writeFrame_pool s f p).1,
        fun q hq g hg => ?_, fun g hg => ?_, fun name h hdr ht => ⟨?_, ?_⟩⟩
      · rw [List.mem_singleton.mp hq, hmap] at hg
        rw [hframes, if_pos (Option.some.inj hg).symm]
      · rw [hframes]
        split
        · rfl
        · exact hg
      · have hflush := ht.flushPage hi p
        unfold SmStore.flushPage at hflush
        simpa only [hmap] using hflush
      · exact ht.currentPage_writeFrame hmap
    · next hclean =>
      refine ⟨hi, rfl, fun q hq g hg => ?_, fun _ hd => hd, fun _ _ _ ht => ⟨ht, fun _ => rfl⟩⟩
      rw [List.mem_singleton.mp hq, hmap] at hg
      rw [← Option.some.inj hg]
      simpa using hclean

/-- The whole loop. -/
theorem flushAllPage_flushed (hi : s.Inv) (ps : List PageId) : Flushed s (s.flushAllPage ps) ps := by
  rw [flushAllPage_eq]
  induction ps generalizing s with
  | nil => exact ⟨hi, rfl, by simp, fun _ hd => hd, fun _ _ _ ht => ⟨ht, fun _ => rfl⟩⟩
  | cons p ps ih =>
    have h₁ := flushDirty_flushed hi p
    have h₂ := ih h₁.inv
    refine ⟨h₂.inv, h₂.table.trans h₁.table, fun q hq f hf => ?_, fun f hf => h₂.stays f (h₁.stays f hf),
      fun name h hdr ht => ?_⟩
    · rcases List.mem_cons.mp hq with rfl | hq
      · exact h₂.stays f (h₁.clean q List.mem_cons_self f hf)
      · exact h₂.clean q hq f (h₁.table ▸ hf)
    · obtain ⟨ht₁, hcur₁⟩ := h₁.tables name h hdr ht
      obtain ⟨ht₂, hcur₂⟩ := h₂.tables name h hdr ht₁
      exact ⟨ht₂, fun n => (hcur₂ n).trans (hcur₁ n)⟩

/-- **The table is on the disk**, its header and its pages. -/
theorem flushAllPage_stored (hi : s.Inv) (hps : ∀ p, p ∈ ps ↔ s.pageTable p ≠ none)
    (ht : s.TableOk name h hdr none) :
    ∃ file, (s.flushAllPage ps).files name = some file ∧ (file.pages 0).bytes = hdr ∧
      ∀ n, (file.pages n).bytes = s.currentPage h.fd n := by
  have hf := flushAllPage_flushed hi ps
  obtain ⟨ht', hcur⟩ := hf.tables name h hdr ht
  obtain ⟨file, hfile, hhdr, hclean⟩ := ht'.stored
  refine ⟨file, hfile, hhdr, fun n => ?_⟩
  rw [← hcur n]
  unfold SmStore.currentPage
  cases hn : (s.flushAllPage ps).pageTable ⟨h.fd, n⟩ with
  | some g =>
    have hold : s.pageTable ⟨h.fd, n⟩ = some g := hf.table ▸ hn
    have hmem : (⟨h.fd, n⟩ : PageId) ∈ ps := (hps _).mpr (by simp [hold])
    simp only
    rw [hclean n g hn (hf.clean _ hmem g hold) (by simp)]
  | none =>
    have hof : (s.flushAllPage ps).fileOf h.fd = some (name, file) := by
      unfold fileOf
      rw [ht'.opened]
      simp only [hfile]
    simp only [hof]

end SmStore

/-! ### The catalog -/

/-- The letters of an identifier. -/
theorem isIdent_chars {s : String} (hs : isIdent s = true) :
    s.toList ≠ [] ∧ ∀ c ∈ s.toList, (c = '_' || c.isAlpha || c.isDigit) = true := by
  unfold isIdent at hs
  split at hs
  · cases hs
  · next c cs hcs =>
    rw [Bool.and_eq_true, List.all_eq_true] at hs
    rw [hcs]
    refine ⟨by simp, fun x hx => ?_⟩
    rcases List.mem_cons.mp hx with rfl | hx
    · simp [hs.1]
    · exact hs.2 x hx

/-- A name of the parser is one word. -/
theorem isToken_of_isIdent {s : String} (hs : isIdent s = true) : IsToken s := by
  obtain ⟨hne, hall⟩ := isIdent_chars hs
  refine ⟨fun heq => hne (by rw [heq]; rfl), fun c hc => ?_⟩
  have hchar := hall c hc
  by_contra hspace
  have hspace : isSpace c = true := by simpa using hspace
  simp only [isSpace, Bool.or_eq_true, decide_eq_true_eq] at hspace
  rcases hspace with ((((rfl | rfl) | rfl) | rfl) | rfl) | rfl <;> exact absurd hchar (by decide)

/-- The name of an index file is not a name of the parser. -/
theorem isIdent_getIndexName (tab : String) (cols : List String) :
    isIdent (getIndexName tab cols) = false := by
  by_contra hid
  have hdot := (isIdent_chars (by simpa using hid)).2 '.' (by simp [getIndexName])
  exact absurd hdot (by decide)

namespace Database

variable {d d' : Database}

/-- The entry of a table in the catalog. -/
def entryOf (d : Database) (tab : String) : SmMeta.Tab :=
  d.tabEntry ((d.store.tabs tab).getD ⟨tab, [], []⟩)

/-- Each key of the catalog has its table. -/
theorem CatalogOk.get (hc : d.CatalogOk) {tab : String} (htab : tab ∈ d.keys) :
    ∃ info, d.store.tabs tab = some info ∧ info.name = tab ∧ d.entryOf tab = d.tabEntry info := by
  obtain ⟨info, hinfo⟩ := Option.ne_none_iff_exists'.mp ((hc.keys tab).mp htab)
  refine ⟨info, hinfo, (hc.named tab info hinfo).1, ?_⟩
  unfold entryOf
  rw [hinfo]
  rfl

/-- The tables are written in the order of their names. -/
theorem CatalogOk.tabs_eq (hc : d.CatalogOk) :
    d.catalog.tabs = (d.keys.sort (· ≤ ·)).map d.entryOf := by
  have hsome : ∀ tab ∈ d.keys.sort (· ≤ ·), (d.store.tabs tab).map d.tabEntry =
      some (d.entryOf tab) := by
    intro tab htab
    obtain ⟨info, hinfo, -, hentry⟩ := hc.get ((Finset.mem_sort _).mp htab)
    rw [hinfo, hentry]
    rfl
  show (d.keys.sort (· ≤ ·)).filterMap (fun tab => (d.store.tabs tab).map d.tabEntry) = _
  rw [List.filterMap_congr hsome, List.filterMap_eq_map']

/-- Each entry has the name of its key. -/
theorem CatalogOk.entryOf_name (hc : d.CatalogOk) {tab : String} (htab : tab ∈ d.keys) :
    (d.entryOf tab).name = tab := by
  obtain ⟨info, -, hname, hentry⟩ := hc.get htab
  rw [hentry]
  exact hname

/-- The names that are written. -/
theorem CatalogOk.names_eq (hc : d.CatalogOk) :
    d.catalog.tabs.map (·.name) = d.keys.sort (· ≤ ·) := by
  rw [hc.tabs_eq, List.map_map]
  refine (List.map_congr_left fun tab htab => ?_).trans (List.map_id _)
  exact hc.entryOf_name ((Finset.mem_sort _).mp htab)

/-- A table is found in the text under its name. -/
theorem CatalogOk.find_eq (hc : d.CatalogOk) (tab : String) :
    d.catalog.tabs.find? (·.name = tab) = if tab ∈ d.keys then some (d.entryOf tab) else none := by
  rw [hc.tabs_eq, List.find?_map]
  by_cases htab : tab ∈ d.keys
  · rw [if_pos htab]
    have hfind : (d.keys.sort (· ≤ ·)).find? ((fun t => decide (t.name = tab)) ∘ d.entryOf) =
        some tab := by
      cases hf : (d.keys.sort (· ≤ ·)).find? ((fun t => decide (t.name = tab)) ∘ d.entryOf) with
      | none =>
        have hno := List.find?_eq_none.mp hf tab ((Finset.mem_sort _).mpr htab)
        simp [hc.entryOf_name htab] at hno
      | some tab' =>
        have hmem := (Finset.mem_sort _).mp (List.mem_of_find?_eq_some hf)
        have heq := List.find?_some hf
        simp only [Function.comp_apply, hc.entryOf_name hmem, decide_eq_true_eq] at heq
        rw [heq]
    rw [hfind]
    rfl
  · rw [if_neg htab, List.find?_eq_none.mpr]
    · rfl
    · intro tab' hmem
      have hmem := (Finset.mem_sort _).mp hmem
      simp only [Function.comp_apply, hc.entryOf_name hmem, decide_eq_true_eq]
      rintro rfl
      exact htab hmem

/-- What is left out of the entry is not lost. -/
theorem toMeta_tabEntry (d : Database) (info : TabMeta) : (d.tabEntry info).toMeta = info := by
  have hcol : ∀ tab flags (cols : List ColMeta),
      (cols.map (colEntry tab flags)).map SmMeta.Col.toMeta = cols := by
    intro tab flags cols
    rw [List.map_map]
    exact (List.map_congr_left fun c _ => rfl).trans (List.map_id cols)
  unfold SmMeta.Tab.toMeta tabEntry
  simp only [hcol, List.map_map]
  congr
  refine (List.map_congr_left fun i _ => ?_).trans (List.map_id _)
  simp only [Function.comp_apply, hcol, id]

/-- The catalog can be written. -/
theorem CatalogOk.wf (hc : d.CatalogOk) : d.catalog.Wf := by
  refine ⟨hc.name, fun t ht => ?_⟩
  rw [hc.tabs_eq] at ht
  obtain ⟨tab, htab, rfl⟩ := List.mem_map.mp ht
  obtain ⟨info, hinfo, hname, hentry⟩ := hc.get ((Finset.mem_sort _).mp htab)
  obtain ⟨-, hident, hcols, hindexes⟩ := hc.named tab info hinfo
  have htoken : IsToken info.name := by
    rw [hname]
    exact isToken_of_isIdent hident
  rw [hentry]
  refine ⟨htoken, fun c hmem => ?_, fun i hmem => ?_⟩
  · obtain ⟨c, hcm, rfl⟩ := List.mem_map.mp hmem
    exact ⟨htoken, isToken_of_isIdent (hcols c hcm)⟩
  · obtain ⟨i, him, rfl⟩ := List.mem_map.mp hmem
    refine ⟨htoken, by simp, fun c hmem => ?_⟩
    obtain ⟨c, hcm, rfl⟩ := List.mem_map.mp hmem
    exact ⟨htoken, isToken_of_isIdent (hindexes i him c hcm)⟩

/-- **The catalog is read as it was written.** -/
theorem CatalogOk.read_write (hc : d.CatalogOk) : SmMeta.Db.read d.catalog.write = some d.catalog :=
  SmMeta.Db.read_write hc.wf

/-- A database with the tables and marks of the catalog has the catalog. -/
theorem CatalogOk.catalog_eq (hc : d.CatalogOk) (hname : d'.name = d.name) (hkeys : d'.keys = d.keys)
    (htabs : ∀ tab, d'.store.tabs tab = (d.catalog.tabs.find? (·.name = tab)).map (·.toMeta))
    (hindexed : ∀ tab col, d'.indexed tab col =
      (d.catalog.tabs.find? (·.name = tab)).any fun t => t.cols.any fun c => c.name = col && c.index) :
    d'.catalog = d.catalog := by
  unfold Database.catalog
  rw [hname, hkeys]
  refine congrArg _ (List.filterMap_congr fun tab htab => ?_)
  have htab := (Finset.mem_sort _).mp htab
  obtain ⟨info, hinfo, hiname, hentry⟩ := hc.get htab
  rw [htabs tab, hc.find_eq, if_pos htab, hentry, hinfo]
  simp only [Option.map_some, toMeta_tabEntry, Option.some.injEq]
  -- the marks of the columns
  unfold tabEntry
  simp only [SmMeta.Tab.mk.injEq, true_and, and_true]
  refine List.map_congr_left fun c hcm => ?_
  unfold colEntry
  simp only [SmMeta.Col.mk.injEq, true_and]
  rw [hindexed, hiname, hc.find_eq, if_pos htab, hentry]
  simp only [Option.any_some, tabEntry, List.any_map]
  rw [Bool.eq_iff_iff, List.any_eq_true]
  constructor
  · rintro ⟨x, -, hx⟩
    simp only [Function.comp_apply, colEntry, Bool.and_eq_true] at hx
    rw [← hiname, ← of_decide_eq_true hx.1]
    exact hx.2
  · intro hmark
    refine ⟨c, hcm, ?_⟩
    simp only [Function.comp_apply, colEntry, decide_true, Bool.true_and]
    rw [hiname]
    exact hmark

/-! ### The new process -/

/-- There is always a free descriptor. -/
theorem lowestFree_isSome (l : List (Int × String)) : ∃ fd, DiskManager.lowestFree l = some fd := by
  by_contra hno
  have hnone : DiskManager.lowestFree l = none :=
    Option.eq_none_iff_forall_ne_some.mpr fun fd hfd => hno ⟨fd, hfd⟩
  have hall := List.find?_eq_none.mp hnone
  have hsub : (List.range (l.length + 1)).map Int.ofNat ⊆ l.map Prod.fst := by
    intro fd hfd
    have hfound := hall fd hfd
    simp only [Option.isNone_iff_eq_none] at hfound
    obtain ⟨path, hpath⟩ := Option.ne_none_iff_exists'.mp hfound
    exact List.mem_map.mpr ⟨_, SmStore.mem_of_lookup hpath, rfl⟩
  have hnodup : ((List.range (l.length + 1)).map Int.ofNat).Nodup :=
    List.nodup_range.map fun a b hab => by simpa using hab
  have hle := (List.subperm_of_subset hnodup hsub).length_le
  simp at hle

/-- `open_file` succeeds on a file that is not open. -/
theorem openFile_some {s : SmStore} {path : String} {file : DiskFile}
    (hopen : ∀ e ∈ s.descriptors, e.2 ≠ path) (hfile : s.files path = some file) :
    ∃ x s', s.openFile path = some (x, s') := by
  obtain ⟨fd, hfd⟩ := lowestFree_isSome s.descriptors
  have hany : ¬ (s.descriptors.any (·.2 = path)) = true := by
    intro hany
    obtain ⟨e, he, heq⟩ := List.any_eq_true.mp hany
    exact hopen e he (by simpa using heq)
  refine ⟨⟨fd, file.ident⟩, { s with descriptors := (fd, path) :: s.descriptors }, ?_⟩
  unfold SmStore.openFile
  rw [if_neg hany]
  simp only [hfile, hfd]

/-- What the loop over the tables has done: the tables `tabs` are open on their files. -/
structure Opened (d d' : Database) (tabs : List String) : Prop where
  files : d'.store.files = d.store.files
  tabsEq : d'.store.tabs = d.store.tabs
  pool : d'.store.pageTable = d.store.pageTable
  ihs : d'.store.ihs = d.store.ihs
  name : d'.name = d.name
  keys : d'.keys = d.keys
  indexed : d'.indexed = d.indexed
  lookups : ∀ fd path, d.store.descriptors.lookup fd = some path →
    d'.store.descriptors.lookup fd = some path
  opened : ∀ tab ∈ tabs, ∃ h file, d'.store.fhs tab = some h ∧
    d'.store.descriptors.lookup h.fd = some tab ∧ d.store.files tab = some file ∧
    d'.hdrs tab = (file.pages 0).bytes
  others : ∀ tab, tab ∉ tabs → d'.store.fhs tab = d.store.fhs tab ∧ d'.hdrs tab = d.hdrs tab

/-- **The loop over the tables.** -/
theorem openTables_spec {tabs : List String} (hnodup : tabs.Nodup)
    (hfiles : ∀ tab ∈ tabs, ∃ file, d.store.files tab = some file)
    (hclosed : ∀ tab ∈ tabs, ∀ e ∈ d.store.descriptors, e.2 ≠ tab) :
    ∃ d', openTables tabs d = some d' ∧ Opened d d' tabs := by
  induction tabs generalizing d with
  | nil => exact ⟨d, rfl, rfl, rfl, rfl, rfl, rfl, rfl, rfl, fun _ _ h => h, by simp, by simp⟩
  | cons tab tabs ih =>
    obtain ⟨hnot, hnodup⟩ := List.nodup_cons.mp hnodup
    obtain ⟨file, hfile⟩ := hfiles tab List.mem_cons_self
    obtain ⟨x, s, hopen⟩ := openFile_some (hclosed tab List.mem_cons_self) hfile
    obtain ⟨-, hfree, rfl⟩ := SmStore.openFile_eq hopen
    have hlook := SmStore.lookup_lowestFree hfree
    -- the new descriptor was free, so the old ones are found as before
    have hkeep : ∀ fd path, d.store.descriptors.lookup fd = some path →
        ((x.fd, tab) :: d.store.descriptors).lookup fd = some path := by
      intro fd path hfd
      have hne : fd ≠ x.fd := by
        rintro rfl
        rw [hlook] at hfd
        cases hfd
      have hbeq : (fd == x.fd) = false := by simpa using hne
      simpa [List.lookup_cons, hbeq] using hfd
    unfold openTables
    simp only [hopen, hfile, Option.map_some, Option.getD_some]
    obtain ⟨d', hd', ho⟩ := @ih
      { d with
        store := { SmStore.setFd2pageno { d.store with
            descriptors := (x.fd, tab) :: d.store.descriptors } x.fd
            (hdrOf (file.pages 0).bytes).numPages with
          fhs := Function.update d.store.fhs tab (some x) }
        hdrs := Function.update d.hdrs tab (file.pages 0).bytes } hnodup
      (fun t ht => hfiles t (List.mem_cons_of_mem _ ht))
      (fun t ht e he => by
        rcases List.mem_cons.mp he with rfl | he
        · rintro rfl
          exact hnot ht
        · exact hclosed t (List.mem_cons_of_mem _ ht) e he)
    refine ⟨d', hd', ho.files, ho.tabsEq, ho.pool, ho.ihs, ho.name, ho.keys, ho.indexed,
      fun fd path hfd => ho.lookups fd path (hkeep fd path hfd), fun t ht => ?_, fun t ht => ?_⟩
    · -- a table further on, or this one, which the rest leaves alone
      by_cases hmem : t ∈ tabs
      · exact ho.opened t hmem
      · obtain rfl : t = tab := by
          rcases List.mem_cons.mp ht with heq | hmem'
          · exact heq
          · exact absurd hmem' hmem
        obtain ⟨h1, h2⟩ := ho.others t hmem
        refine ⟨x, file, h1.trans (Function.update_self _ _ _), ?_, hfile,
          h2.trans (Function.update_self _ _ _)⟩
        exact ho.lookups x.fd t (by simp [SmStore.setFd2pageno])
    · obtain ⟨h1, h2⟩ := ho.others t fun hmem => ht (List.mem_cons_of_mem _ hmem)
      have hne : t ≠ tab := fun heq => ht (by simp [heq])
      exact ⟨h1.trans (Function.update_of_ne hne _ _), h2.trans (Function.update_of_ne hne _ _)⟩

/-- **The loop over the indexes** puts the handles under names of tables. -/
theorem openIndexes_ihs {ts : List SmMeta.Tab} (hr : openIndexes ts d = some d') {name : String}
    (hname : d'.store.ihs name ≠ none) : d.store.ihs name ≠ none ∨ ∃ t ∈ ts, t.name = name := by
  induction ts generalizing d with
  | nil =>
    cases hr
    exact .inl hname
  | cons t ts ih =>
    unfold openIndexes at hr
    simp only at hr
    split at hr
    · cases hr
    · next x s hopen =>
      obtain ⟨-, -, rfl⟩ := SmStore.openFile_eq hopen
      split at hr
      · exact (ih hr).imp id fun ⟨u, hu, heq⟩ => ⟨u, List.mem_cons_of_mem _ hu, heq⟩
      · rcases ih hr with hih | ⟨u, hu, heq⟩
        · by_cases hne : name = t.name
          · exact .inr ⟨t, List.mem_cons_self, hne.symm⟩
          · simp only [Function.update_of_ne hne] at hih
            exact .inl hih
        · exact .inr ⟨u, List.mem_cons_of_mem _ hu, heq⟩

variable {proc : SmStore} {ps : List PageId}

/-- The tables are opened again. -/
theorem Inv.openTables_closeDb (hd : d.Inv) (hproc : NewProcess proc)
    (hps : ∀ p, p ∈ ps ↔ d.store.pageTable p ≠ none) :
    ∃ d₁, openTables (d.keys.sort (· ≤ ·)) (loaded proc (d.closeDb ps) d.catalog) = some d₁ ∧
      Opened (loaded proc (d.closeDb ps) d.catalog) d₁ (d.keys.sort (· ≤ ·)) ∧
      openDb proc (d.closeDb ps) =
        openIndexes (d.catalog.tabs.flatMap fun t => t.indexes.map fun _ => t) d₁ := by
  have hc := hd.catalog
  have hident : ∀ tab ∈ d.keys.sort (· ≤ ·), isIdent tab = true := by
    intro tab htab
    obtain ⟨info, hinfo, -⟩ := hc.get ((Finset.mem_sort _).mp htab)
    exact (hc.named tab info hinfo).2.1
  obtain ⟨d₁, hd₁, ho⟩ := openTables_spec (d := loaded proc (d.closeDb ps) d.catalog)
    (Finset.sort_nodup d.keys (· ≤ ·))
    (by
      intro tab htab
      have hopen := (hc.handles tab).mp ((hc.keys tab).mp ((Finset.mem_sort _).mp htab))
      obtain ⟨x, hx⟩ := Option.ne_none_iff_exists'.mp hopen
      obtain ⟨file, hfile, -⟩ := SmStore.flushAllPage_stored hd.store hps (hd.tables tab x hx)
      exact ⟨file, hfile⟩)
    (by
      rintro tab htab e he rfl
      have hno := hproc.descriptors e he
      rw [hident _ htab] at hno
      cases hno)
  refine ⟨d₁, hd₁, ho, ?_⟩
  unfold openDb
  rw [show (d.closeDb ps).text = d.catalog.write from rfl, hc.read_write]
  simp only [hc.names_eq, hd₁]

/-- **An index is lost.** Nothing is found under its name in the new process. -/
theorem Inv.index_lost (hd : d.Inv) (hproc : NewProcess proc)
    (hps : ∀ p, p ∈ ps ↔ d.store.pageTable p ≠ none)
    (hr : openDb proc (d.closeDb ps) = some d') (tab : String) (cols : List String) :
    d'.indexView (getIndexName tab cols) = none := by
  obtain ⟨d₁, -, ho, heq⟩ := hd.openTables_closeDb hproc hps
  rw [heq] at hr
  unfold indexView
  rw [Option.map_eq_none_iff]
  by_contra hne
  rcases openIndexes_ihs hr hne with hih | ⟨t, ht, hname⟩
  · rw [ho.ihs] at hih
    exact hih (hproc.ihs _)
  · -- the names of tables are those of the parser
    obtain ⟨t', ht', hmem⟩ := List.mem_flatMap.mp ht
    obtain ⟨-, -, rfl⟩ := List.mem_map.mp hmem
    rw [hd.catalog.tabs_eq] at ht'
    obtain ⟨key, hkey, rfl⟩ := List.mem_map.mp ht'
    have hkey := (Finset.mem_sort _).mp hkey
    obtain ⟨info, hinfo, -⟩ := hd.catalog.get hkey
    have hident := (hd.catalog.named key info hinfo).2.1
    rw [hd.catalog.entryOf_name hkey] at hname
    rw [hname, isIdent_getIndexName] at hident
    cases hident

/-- A table that is opened again has its records. -/
theorem Inv.records_eq (hd : d.Inv) (hproc : NewProcess proc)
    (hps : ∀ p, p ∈ ps ↔ d.store.pageTable p ≠ none)
    (ho : Opened (loaded proc (d.closeDb ps) d.catalog) d' (d.keys.sort (· ≤ ·))) (tab : String) :
    d'.records tab = d.records tab := by
  have hc := hd.catalog
  unfold records
  by_cases htab : tab ∈ d.keys
  · obtain ⟨x, hx⟩ := Option.ne_none_iff_exists'.mp
      ((hc.handles tab).mp ((hc.keys tab).mp htab))
    obtain ⟨y, file, hy, hlook, hfile, hhdr⟩ := ho.opened tab ((Finset.mem_sort _).mpr htab)
    obtain ⟨file', hfile', hhdr', hpages⟩ :=
      SmStore.flushAllPage_stored hd.store hps (hd.tables tab x hx)
    obtain rfl : file' = file := Option.some.inj (hfile'.symm.trans hfile)
    have hpage : ∀ n, d'.store.currentPage y.fd n = d.store.currentPage x.fd n := by
      intro n
      rw [← hpages n]
      have hpool : d'.store.pageTable ⟨y.fd, n⟩ = none := by
        rw [ho.pool]
        exact hproc.pool _
      have hof : d'.store.fileOf y.fd = some (tab, file') := by
        unfold SmStore.fileOf
        rw [hlook]
        simp only [ho.files, hfile]
      unfold SmStore.currentPage
      simp only [hpool, hof]
    rw [hx, hy]
    simp only [Option.map_some, hhdr, hhdr', hpage]
  · have hnone : d.store.fhs tab = none := by
      by_contra hne
      exact htab ((hc.keys tab).mpr ((hc.handles tab).mpr hne))
    have hnone' : d'.store.fhs tab = none := by
      rw [(ho.others tab fun hmem => htab ((Finset.mem_sort _).mp hmem)).1]
      exact hproc.fhs tab
    simp only [hnone, hnone', Option.map_none]

end Database

/-- **The database comes back just if it has no index.** In every state of a run of safe steps,
    `close_db` and `open_db` in a new process give the same catalog, the same records in every table
    and an equivalent handle for every index, if and only if no table has an index. -/
theorem reopen_same_iff {γ : Type} (getValue : List UInt8 × (Int → List UInt8) → List UInt8 → γ)
    (proc : SmStore) (hproc : NewProcess proc) (d : Database) (hd : safeDatabase.Reachable d)
    (ps : List PageId) (hps : ∀ p, p ∈ ps ↔ d.store.pageTable p ≠ none) :
    (∃ d', Database.openDb proc (d.closeDb ps) = some d' ∧ SameDatabase getValue d d') ↔
      ∀ t ∈ d.catalog.tabs, t.indexes = [] := by
  have hinv := safeDatabase_inv hd
  constructor
  · rintro ⟨d', hr, hsame⟩ t ht
    refine List.eq_nil_iff_forall_not_mem.mpr fun i hi => ?_
    obtain ⟨x, x', -, hx', -⟩ := hsame.indexes t ht i hi
    rw [hinv.index_lost hproc hps hr] at hx'
    cases hx'
  · intro hno
    obtain ⟨d₁, -, ho, heq⟩ := hinv.openTables_closeDb hproc hps
    have hnil : (d.catalog.tabs.flatMap fun t => t.indexes.map fun _ => t) = [] := by
      refine List.flatMap_eq_nil_iff.mpr fun t ht => ?_
      rw [hno t ht, List.map_nil]
    rw [hnil] at heq
    refine ⟨d₁, heq, ?_, hinv.records_eq hproc hps ho, fun t ht i hi => ?_⟩
    · refine hinv.catalog.catalog_eq ho.name ?_ (fun tab => by rw [ho.tabsEq]; rfl)
        fun tab col => by rw [ho.indexed]; rfl
      rw [ho.keys]
      show (d.catalog.tabs.map (·.name)).toFinset = d.keys
      rw [hinv.catalog.names_eq, Finset.sort_toFinset]
    · rw [hno t ht] at hi
      cases hi

/-! ### Two databases -/

/-- A process with a terminal, and no database yet. -/
def terminal : SmStore := { emptyDb with
  files := fun path =>
    if path = "/dev/tty" then some { ident := 0, pages := fun n => ⟨0, n, []⟩ } else none
  descriptors := [(0, "/dev/tty"), (1, "/dev/tty"), (2, "/dev/tty")] }

/-- A process that has the three standard descriptors open. -/
theorem terminal_newProcess : NewProcess terminal where
  pool _ := rfl
  fhs _ := rfl
  ihs _ := rfl
  descriptors e he := by
    simp only [terminal, List.mem_cons, List.not_mem_nil, or_false] at he
    rcases he with rfl | rfl | rfl <;> rfl

/-- A new database. -/
def newDb : Database where
  store := terminal
  name := "db"
  keys := ∅
  indexed _ _ := false
  hdrs _ := []
  ixHdrs _ := []

/-- A database without tables. -/
theorem newDb_initial : newDb.Initial where
  store := by
    refine ⟨fun _ => rfl, fun _ => rfl, fun _ => rfl, fun _ => rfl, fun _ => rfl, ?_, ?_⟩
    · intro e he
      simp only [newDb, terminal, List.mem_cons, List.not_mem_nil, or_false] at he
      rcases he with rfl | rfl | rfl <;> simp [newDb, terminal]
    · intro path file hf
      simp only [newDb, terminal] at hf ⊢
      split at hf
      · cases hf
        exact ⟨Nat.zero_lt_one, fun n => ⟨rfl, rfl⟩⟩
      · cases hf
  pins _ := le_refl 0
  name := by
    refine ⟨by decide, fun c hc => ?_⟩
    have hchars : c ∈ ['d', 'b'] := hc
    simp only [List.mem_cons, List.not_mem_nil, or_false] at hchars
    rcases hchars with rfl | rfl <;> rfl
  keys := rfl

/-- A table. -/
def oneTable : Database := newDb.createTable "t" twoInts

/-- A table is created in it. -/
theorem oneTable_step : newDb.Step (.createTable "t" twoInts) oneTable :=
  ⟨rfl, by simp [twoInts, isIdent], rfl⟩

/-- So this state is reached. -/
theorem oneTable_reachable : safeDatabase.Reachable oneTable := by
  have h0 : safeDatabase.Reachable newDb := .init newDb_initial
  refine h0.step (a := .createTable "t" twoInts) ⟨oneTable_step, fun _ => ?_⟩
  rintro fd - f - (hd | ⟨p, hp⟩)
  · cases hd
  · cases hp

/-- The header of the table after the first page. -/
def onePageHdr : List UInt8 :=
  hdrBytes { RmFileHdr.create 8 with numPages := 2, firstFreePageNo := 1 }

/-- The table with a record: a page has been created and is still dirty in the pool. -/
def oneRecord : Database :=
  (oneTable.store.newTablePage ⟨3, 1⟩ 0 [] [1, 2, 3] onePageHdr).elim oneTable fun s =>
    { oneTable with store := s, hdrs := Function.update oneTable.hdrs "t" onePageHdr }

/-- And that with a record. -/
theorem oneRecord_reachable : safeDatabase.Reachable oneRecord := by
  refine oneTable_reachable.step (a := .newPage "t" 0 [] [1, 2, 3] onePageHdr) ⟨?_, fun g hg => ?_⟩
  · exact ⟨⟨3, 1⟩, _, rfl, rfl, rfl⟩
  · cases hg

/-- The record comes back. -/
theorem record_reopened :
    ∃ d', Database.openDb terminal (oneRecord.closeDb [⟨3, 1⟩]) = some d' ∧
      SameDatabase (fun _ _ => ()) oneRecord d' := by
  refine (reopen_same_iff (fun _ _ => ()) terminal terminal_newProcess oneRecord oneRecord_reachable
    [⟨3, 1⟩] fun p => ?_).mpr fun t ht => ?_
  · have htable : oneRecord.store.pageTable p =
        Function.update (Function.update (fun _ => none) ⟨-1, -1⟩ none) ⟨3, 1⟩ (some 0) p := rfl
    rw [htable]
    by_cases hp : p = ⟨3, 1⟩
    · subst hp
      simp
    · simp [hp]
  · obtain ⟨key, -, hkey⟩ := List.mem_filterMap.mp ht
    obtain ⟨info, hinfo, rfl⟩ := Option.map_eq_some_iff.mp hkey
    have htabs : oneRecord.store.tabs key = Function.update (fun _ => none) "t"
        (some { name := "t", cols := twoInts, indexes := [] }) key := rfl
    rw [htabs] at hinfo
    by_cases hk : key = "t"
    · subst hk
      simp only [Function.update_self, Option.some.injEq] at hinfo
      rw [← hinfo]
      rfl
    · simp [hk] at hinfo

/-- A table with an index on its first column. -/
def oneIndex : Database := oneTable.createIndex "t" ["a"] [] [] []

/-- **The index does not come back.** A table with an index on one of its two columns: `open_db` looks
    for the index on both columns. -/
theorem index_not_reopened : ¬ ∀ d, database.Reachable d → ∀ ps : List PageId,
    (∀ p, p ∈ ps ↔ d.store.pageTable p ≠ none) →
    ∃ d', Database.openDb terminal (d.closeDb ps) = some d' ∧
      SameDatabase (fun _ _ => ()) d d' := by
  intro hall
  have h0 : database.Reachable newDb := .init newDb_initial
  have h1 : database.Reachable oneTable := h0.step (a := .createTable "t" twoInts) oneTable_step
  have h2 : database.Reachable oneIndex := h1.step (a := .createIndex "t" ["a"] [] [] []) rfl
  have hpool : ∀ p, p ∈ ([] : List PageId) ↔ oneIndex.store.pageTable p ≠ none := by
    intro p
    have hnone : oneIndex.store.pageTable p = none := rfl
    simp [hnone]
  have hinv : oneIndex.Inv := by
    refine (safeDatabase_inv oneTable_reachable).createIndex (fun _ => ?_) [] [] []
    rintro fd - f - (hd | ⟨p, hp⟩)
    · cases hd
    · cases hp
  obtain ⟨d', hr, hsame⟩ := hall oneIndex h2 [] hpool
  have htab : oneIndex.entryOf "t" ∈ oneIndex.catalog.tabs := by
    rw [hinv.catalog.tabs_eq]
    refine List.mem_map_of_mem ((Finset.mem_sort _).mpr ?_)
    exact (hinv.catalog.keys "t").mpr (by simp [show oneIndex.store.tabs "t" = some
      { name := "t", cols := twoInts, indexes := [IndexMeta.create [⟨"a", .int, 4, 0⟩]] } from rfl])
  obtain ⟨x, x', -, hx', -⟩ := hsame.indexes _ htab
    ⟨"t", 0, 1, [⟨"t", "a", .int, 4, 0, true⟩]⟩ (by
      show _ ∈ [_]
      exact List.mem_singleton.mpr rfl)
  rw [hinv.index_lost terminal_newProcess hpool hr] at hx'
  cases hx'

end Rmdb
