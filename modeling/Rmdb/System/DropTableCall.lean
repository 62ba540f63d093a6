import Rmdb.System.OpenHandles

namespace Rmdb

open Lib

/-!
# The loop of `drop_table` (`system/sm_manager.cpp`)

`SmManager::drop_table` goes through the vector of the indexes of the table with a range-based `for`, and
`drop_index` erases from that vector.  Behind an erased element the others move up, so the loop steps over
the next one; its end stays where the end of the vector was at the start.

* `SmStore.dropIndexCall`, `dropTableCall` — the statements, with what they throw;
* `TableDropped` — what `drop_table` is for;
* `dropTableCall_iff` — when it does this: the table has at most one index.
-/

/-- How `drop_table` ends. -/
inductive DropTable where
  /-- It returns; the loop has visited these indexes. -/
  | returned (visited : List IndexMeta) (s : SmStore)
  | thrown (e : SmError) (s : SmStore)
  /-- The loop reads an element behind the end of the vector. -/
  | pastEnd (s : SmStore)
  /-- `close_all_page` asserts that no page is pinned. -/
  | assertion (s : SmStore)

namespace SmStore

/-- `SmManager::drop_index`; `ps` are the cached pages of the index. -/
def dropIndexCall (s : SmStore) (tab : String) (names : List String) (hdr : List UInt8)
    (ps : Int → List PageId) : Except SmError Unit × SmStore :=
  match s.tabs tab with
  | none => (.error .indexEntryNotFoundError, s)
  | some info =>
    match info.indexes.find? (colNames · = names) with
    | none => (.error (.rmdbError "index not find!"), s)
    | some index =>
      let path := getIndexName tab names
      let s := { s with
        tabs := Function.update s.tabs tab
          (some { info with indexes := info.indexes.erase index }) }
      match s.ihs path with
      | none => (.error .outOfRange, s)
      | some h =>
        match s.closeAndDestroyCall h.fd path hdr (ps h.fd) with
        | (.error e, s) => (.error e, s)
        | (.ok (), s) => (.ok (), { s with ihs := Function.update s.ihs path none })

/-- The loop of `drop_table`, with the elements up to the old end of the vector as fuel: it is at the
element `pos`. -/
def dropIndexesFrom (tab : String) (hdrs : String → List UInt8) (ps : Int → List PageId) :
    Nat → Nat → SmStore → DropTable
  | 0, _, s => .returned [] s
  | n + 1, pos, s =>
    match (s.tabs tab).bind fun info => info.indexes[pos]? with
    | none => .pastEnd s
    | some index =>
      let names := colNames index
      match s.dropIndexCall tab names (hdrs (getIndexName tab names)) ps with
      | (.error e, s) => .thrown e s
      | (.ok (), s) =>
        match dropIndexesFrom tab hdrs ps n (pos + 1) s with
        | .returned visited s => .returned (index :: visited) s
        | r => r

/-- `SmManager::drop_table`; `hdrs` are the file headers by name and `ps` the cached pages by
descriptor. -/
def dropTableCall (s : SmStore) (tab : String) (hdrs : String → List UInt8) (ps : Int → List PageId) :
    DropTable :=
  match s.tabs tab with
  | none => .thrown (.tableNotFoundError tab) s
  | some info =>
    match dropIndexesFrom tab hdrs ps info.indexes.length 0 s with
    | .returned visited s =>
      match s.fhs tab with
      -- `fhs_[tab_name]` is a null pointer
      | none => .pastEnd s
      | some h =>
        if (ps h.fd).any s.isPinned then .assertion s
        else
          match (s.deleteAllPage (ps h.fd)).closeAndDestroyCall h.fd tab (hdrs tab) [] with
          | (.error e, s) => .thrown e s
          | (.ok (), s) => .returned visited { s with
              fhs := Function.update s.fhs tab none
              tabs := Function.update s.tabs tab none }
    | r => r

/-- **What `drop_table` is for.** -/
structure TableDropped (s s' : SmStore) (tab : String) (info : TabMeta) : Prop where
  catalog : s'.tabs = Function.update s.tabs tab none
  fhs : s'.fhs = Function.update s.fhs tab none
  ihs : ∀ index ∈ info.indexes, s'.ihs (getIndexName tab (colNames index)) = none
  otherIhs : ∀ name, (∀ index ∈ info.indexes, name ≠ getIndexName tab (colNames index)) →
    s'.ihs name = s.ihs name
  file : s'.files tab = none
  indexFiles : ∀ index ∈ info.indexes, s'.files (getIndexName tab (colNames index)) = none
  otherFiles : ∀ path, path ≠ tab →
    (∀ index ∈ info.indexes, path ≠ getIndexName tab (colNames index)) → s'.files path = s.files path

/-! ### Dropping one index -/

section Index

variable {s s' : SmStore} {tab : String} {names : List String} {info : TabMeta} {hdr : List UInt8}
  {ps : Int → List PageId} {hdrs : String → List UInt8}

/-- The file of an index has not the name of its table. -/
theorem getIndexName_ne (tab : String) (names : List String) : getIndexName tab names ≠ tab := by
  intro heq
  have hgrow : ∀ (names : List String) (start : String),
      start.length ≤ (names.foldl (fun name col => name ++ "_" ++ col) start).length := by
    intro names
    induction names with
    | nil => exact fun start => le_refl _
    | cons col names ih =>
      intro start
      refine le_trans ?_ (ih (start ++ "_" ++ col))
      simp only [String.length_append]
      omega
  have hlen := congrArg String.length heq
  unfold getIndexName at hlen
  rw [String.length_append] at hlen
  have hle := hgrow names tab
  have hidx : ".idx".length = 4 := by decide
  omega

/-- **A `drop_index` that returns** has erased one index from the catalog; there was a handle. -/
theorem dropIndexCall_ok (hinfo : s.tabs tab = some info) (hps : ∀ fd, ∀ p ∈ ps fd, p.fd = fd)
    (h : s.dropIndexCall tab names hdr ps = (.ok (), s')) :
    s.ihs (getIndexName tab names) ≠ none ∧ s'.fhs = s.fhs ∧ s'.isPinned = s.isPinned ∧
      ∃ index ∈ info.indexes,
        s'.tabs tab = some { info with indexes := info.indexes.erase index } := by
  unfold SmStore.dropIndexCall at h
  rw [hinfo] at h
  dsimp only at h
  split at h
  · cases h
  · next index hfind =>
    split at h
    · cases h
    · next x hih =>
      have hhandle : s.ihs (getIndexName tab names) ≠ none := by
        rw [show s.ihs (getIndexName tab names) = some x from hih]
        exact Option.some_ne_none x
      have hsame := closeAndDestroyCall_handles { s with
        tabs := Function.update s.tabs tab
          (some { info with indexes := info.indexes.erase index }) } x.fd (getIndexName tab names) hdr
        (ps x.fd)
      have hpins := closeAndDestroyCall_isPinned { s with
        tabs := Function.update s.tabs tab
          (some { info with indexes := info.indexes.erase index }) } (getIndexName tab names) hdr
        (hps x.fd)
      split at h
      · cases h
      · next hcall =>
        rw [hcall] at hsame hpins
        cases h
        refine ⟨hhandle, hsame.fhs, hpins, index, List.mem_of_find?_eq_some hfind, ?_⟩
        dsimp only
        rw [hsame.tabs]
        exact Function.update_self ..

/-- An index that is open under its handle is dropped. -/
theorem OpenUnder.dropIndexCall (index : IndexMeta) {x : FileHandle} (hinfo : s.tabs tab = some info)
    (hfind : info.indexes.find? (colNames · = names) = some index)
    (hih : s.ihs (getIndexName tab names) = some x) (ho : s.OpenUnder (getIndexName tab names) x)
    (hdr : List UInt8) (hps : ∀ p ∈ ps x.fd, p.fd = x.fd) :
    ∃ s₁, Destroyed { s with
        tabs := Function.update s.tabs tab
          (some { info with indexes := info.indexes.erase index }) } s₁ (getIndexName tab names) x ∧
      s.dropIndexCall tab names hdr ps =
        (.ok (), { s₁ with ihs := Function.update s.ihs (getIndexName tab names) none }) := by
  have hopen : { s with
      tabs := Function.update s.tabs tab
        (some { info with indexes := info.indexes.erase index }) }.OpenUnder
      (getIndexName tab names) x := ⟨ho.opened, ho.fds, ho.paths, ho.file⟩
  obtain ⟨s₁, hcall, hd⟩ := hopen.closeAndDestroyCall hdr hps
  refine ⟨s₁, hd, ?_⟩
  unfold SmStore.dropIndexCall
  rw [hinfo]
  dsimp only
  rw [hfind]
  dsimp only
  rw [hih]
  dsimp only
  rw [hcall]
  dsimp only
  rw [hd.handles.ihs]

/-- **The loop goes on only while there are elements**: one index less for each one it visits. -/
theorem dropIndexesFrom_returned {n pos : Nat} {visited : List IndexMeta}
    (hinfo : s.tabs tab = some info) (hps : ∀ fd, ∀ p ∈ ps fd, p.fd = fd)
    (h : dropIndexesFrom tab hdrs ps n pos s = .returned visited s') :
    (n = 0 ∨ pos + 2 * n ≤ info.indexes.length + 1) ∧ s'.fhs = s.fhs ∧ s'.isPinned = s.isPinned := by
  induction n generalizing s s' info pos visited with
  | zero =>
    cases h
    exact ⟨.inl rfl, rfl, rfl⟩
  | succ n ih =>
    unfold dropIndexesFrom at h
    rw [hinfo, Option.bind_some] at h
    cases hget : info.indexes[pos]? with
    | none =>
      rw [hget] at h
      cases h
    | some index =>
      rw [hget] at h
      dsimp only at h
      have hpos : pos < info.indexes.length := (List.getElem?_eq_some_iff.mp hget).1
      split at h
      · cases h
      · next s₁ hcall =>
        obtain ⟨-, hfhs, hpins, erased, hmem, htabs⟩ := dropIndexCall_ok hinfo hps hcall
        have hlen : (info.indexes.erase erased).length = info.indexes.length - 1 :=
          List.length_erase_of_mem hmem
        split at h
        · next visited' s₂ hrest =>
          cases h
          obtain ⟨hle, hfhs', hpins'⟩ := ih htabs hrest
          refine ⟨.inr ?_, hfhs'.trans hfhs, hpins'.trans hpins⟩
          rcases hle with rfl | hle
          · omega
          · simp only [hlen] at hle
            omega
        · next hno => exact absurd h (hno visited s')

end Index

/-! ### The statement -/

section Table

variable {s s' : SmStore} {tab : String} {info : TabMeta} {h : FileHandle} {hdrs : String → List UInt8}
  {ps : Int → List PageId}

/-- The file of a table that is open under its handle is destroyed. -/
theorem OpenUnder.closeTable (ho : s.OpenUnder tab h) (hm : s.Mapped) (hdr : List UInt8)
    {ps : List PageId} (hps : ∀ p ∈ ps, p.fd = h.fd) :
    ∃ s₁, (s.deleteAllPage ps).closeAndDestroyCall h.fd tab hdr [] = (.ok (), s₁) ∧
      SameHandles s s₁ ∧ s₁.files tab = none ∧ ∀ q, q ≠ tab → s₁.files q = s.files q := by
  have hdel := deleteAllPage_deleted hm hps
  obtain ⟨s₁, hcall, hd⟩ := (ho.deleted hdel).closeAndDestroyCall hdr (List.forall_mem_nil _)
  refine ⟨s₁, hcall, hdel.handles.trans hd.handles, hd.gone, fun q hq => ?_⟩
  rw [hd.files q hq]
  refine hdel.files q fun hlook => hq ?_
  rw [ho.opened] at hlook
  exact (Option.some.inj hlook).symm

/-- A table without indexes. -/
theorem Tidy.dropTableCall_nil (hs : s.Tidy) (hinfo : s.tabs tab = some info)
    (hps : ∀ fd, ∀ p ∈ ps fd, p.fd = fd) (hnil : info.indexes = [])
    (hpin : ∀ h, s.fhs tab = some h → (ps h.fd).any s.isPinned = false) :
    ∃ s', s.dropTableCall tab hdrs ps = .returned [] s' ∧ TableDropped s s' tab info := by
  obtain ⟨h, hfh, ho⟩ := hs.tables tab (by rw [hinfo]; exact Option.some_ne_none _)
  obtain ⟨s₁, hcall, hsame, hgone, hfiles⟩ := ho.closeTable hs.mapped (hdrs tab) (hps h.fd)
  unfold SmStore.dropTableCall
  rw [hinfo]
  simp only [hnil, List.length_nil, dropIndexesFrom, hfh, hpin h hfh, hcall, Bool.false_eq_true, if_false]
  refine ⟨_, rfl, ⟨?_, ?_, by simp [hnil], fun name _ => ?_, hgone, by simp [hnil], fun path hne _ => ?_⟩⟩
  · rw [hsame.tabs]
  · rw [hsame.fhs]
  · exact congrFun hsame.ihs name
  · exact hfiles path hne

/-- A table with one index. -/
theorem Tidy.dropTableCall_singleton (hs : s.Tidy) {index : IndexMeta} {x : FileHandle}
    (hinfo : s.tabs tab = some info) (hps : ∀ fd, ∀ p ∈ ps fd, p.fd = fd)
    (hone : info.indexes = [index]) (hih : s.ihs (getIndexName tab (colNames index)) = some x)
    (hpin : ∀ h, s.fhs tab = some h → (ps h.fd).any s.isPinned = false) :
    ∃ s', s.dropTableCall tab hdrs ps = .returned [index] s' ∧ TableDropped s s' tab info := by
  obtain ⟨h, hfh, ho⟩ := hs.tables tab (by rw [hinfo]; exact Option.some_ne_none _)
  have hx := hs.indexes tab info hinfo index (by simp [hone]) x hih
  have hne : tab ≠ getIndexName tab (colNames index) := (getIndexName_ne tab _).symm
  -- the index is dropped, and the table is as it was
  obtain ⟨s₁, hd, hdrop⟩ := hx.dropIndexCall index hinfo (by simp [hone]) hih
    (hdrs (getIndexName tab (colNames index))) (hps x.fd)
  have ho₁ : s₁.OpenUnder tab h :=
    OpenUnder.other (s := { s with
        tabs := Function.update s.tabs tab
          (some { info with indexes := info.indexes.erase index }) })
      ⟨ho.opened, ho.fds, ho.paths, ho.file⟩ hd hne (hx.fd_ne ho hne)
  have hm₁ : s₁.Mapped := fun p f hp => by
    rw [(hd.frames f).1]
    exact hs.mapped p f (hd.pageTable ▸ hp)
  have hpin₁ : ∀ p, s₁.isPinned p = s.isPinned p := by
    intro p
    unfold SmStore.isPinned
    rw [hd.pageTable]
    dsimp only
    cases s.pageTable p with
    | none => rfl
    | some f =>
      dsimp only
      rw [(hd.frames f).2]
  obtain ⟨s₂, hcall, hsame, hgone, hfiles⟩ := OpenUnder.closeTable
    (s := { s₁ with ihs := Function.update s.ihs (getIndexName tab (colNames index)) none })
    ⟨ho₁.opened, ho₁.fds, ho₁.paths, ho₁.file⟩ hm₁ (hdrs tab) (hps h.fd)
  have hloop : dropIndexesFrom tab hdrs ps info.indexes.length 0 s = .returned [index]
      { s₁ with ihs := Function.update s.ihs (getIndexName tab (colNames index)) none } := by
    rw [hone, List.length_singleton]
    simp only [dropIndexesFrom, hinfo, hone, Option.bind_some, List.getElem?_cons_zero, hdrop]
  unfold SmStore.dropTableCall
  rw [hinfo]
  dsimp only
  rw [hloop]
  dsimp only
  rw [show s₁.fhs tab = some h from (congrFun hd.handles.fhs tab).trans hfh]
  dsimp only
  have hany : (ps h.fd).any
      { s₁ with ihs := Function.update s.ihs (getIndexName tab (colNames index)) none }.isPinned =
      false := by
    rw [← hpin h hfh]
    exact congrArg _ (funext hpin₁)
  rw [hany, if_neg Bool.false_ne_true, hcall]
  refine ⟨_, rfl, ⟨?_, ?_, fun i hi => ?_, fun name hname => ?_, hgone, fun i hi => ?_,
    fun path htab hpath => ?_⟩⟩
  · rw [hsame.tabs, hd.handles.tabs, Function.update_idem]
  · rw [hsame.fhs, hd.handles.fhs]
  · rw [hone, List.mem_singleton] at hi
    rw [hi, hsame.ihs]
    exact Function.update_self ..
  · have hname := hname index (by simp [hone])
    rw [hsame.ihs]
    exact Function.update_of_ne hname ..
  · rw [hone, List.mem_singleton] at hi
    rw [hi]
    exact (hfiles _ hne.symm).trans hd.gone
  · exact (hfiles path htab).trans (hd.files path (hpath index (by simp [hone])))

/-- **When `drop_table` does what it is for**: the table has at most one index. -/
theorem dropTableCall_iff (hs : s.Tidy) (hinfo : s.tabs tab = some info)
    (hps : ∀ fd, s.CachedPages fd (ps fd)) :
    (∃ s', s.dropTableCall tab hdrs ps = .returned info.indexes s' ∧ TableDropped s s' tab info) ↔
      info.indexes.length ≤ 1 ∧
        (∀ index ∈ info.indexes, s.ihs (getIndexName tab (colNames index)) ≠ none) ∧
        ∀ h, s.fhs tab = some h → ∀ n, s.isPinned ⟨h.fd, n⟩ = false := by
  have hown : ∀ fd, ∀ p ∈ ps fd, p.fd = fd := fun fd p hp => ((hps fd p).mp hp).1
  -- `delete_all_page` looks at the cached pages of the file only
  have hpinned : ∀ h : FileHandle,
      (ps h.fd).any s.isPinned = false ↔ ∀ n, s.isPinned ⟨h.fd, n⟩ = false := by
    intro h
    rw [List.any_eq_false]
    constructor
    · intro hall n
      by_cases hcached : s.pageTable ⟨h.fd, n⟩ = none
      · unfold SmStore.isPinned
        rw [hcached]
      · exact Bool.eq_false_iff.mpr (hall _ ((hps h.fd _).mpr ⟨rfl, hcached⟩))
    · intro hall p hp
      have hpage := hall p.pageNo
      rw [← hown h.fd p hp] at hpage
      exact Bool.eq_false_iff.mp hpage
  constructor
  · rintro ⟨s', hcall, -⟩
    unfold SmStore.dropTableCall at hcall
    rw [hinfo] at hcall
    dsimp only at hcall
    split at hcall
    · next visited s₁ hloop =>
      -- the loop has come to its old end, so there was one index at most
      obtain ⟨hle, hfhs, hpins⟩ := dropIndexesFrom_returned hinfo hown hloop
      have hlen : info.indexes.length ≤ 1 := by omega
      refine ⟨hlen, fun index hmem => ?_, fun h hfh => ?_⟩
      · obtain ⟨only, hone⟩ : ∃ only, info.indexes = [only] :=
          List.length_eq_one_iff.mp (le_antisymm hlen (List.length_pos_of_mem hmem))
        obtain rfl : index = only := by simpa [hone] using hmem
        rw [hone, List.length_singleton] at hloop
        simp only [dropIndexesFrom, hinfo, hone, Option.bind_some, List.getElem?_cons_zero] at hloop
        split at hloop
        · cases hloop
        · next hdrop => exact (dropIndexCall_ok hinfo hown hdrop).1
      · rw [hfhs, hfh] at hcall
        dsimp only at hcall
        rw [hpins] at hcall
        refine (hpinned h).mp (Bool.eq_false_iff.mpr fun hany => ?_)
        rw [if_pos hany] at hcall
        cases hcall
    · next hno => exact absurd hcall (hno _ s')
  · rintro ⟨hlen, hih, hpin⟩
    have hpin : ∀ h, s.fhs tab = some h → (ps h.fd).any s.isPinned = false :=
      fun h hfh => (hpinned h).mpr (hpin h hfh)
    -- no index, or one with its handle
    cases hindexes : info.indexes with
    | nil => exact hs.dropTableCall_nil hinfo hown hindexes hpin
    | cons index rest =>
      rw [hindexes, List.length_cons] at hlen
      obtain rfl : rest = [] := List.length_eq_zero_iff.mp (by omega)
      obtain ⟨x, hx⟩ := Option.ne_none_iff_exists'.mp (hih index (by simp [hindexes]))
      exact hs.dropTableCall_singleton hinfo hown hindexes hx hpin

end Table

end SmStore

/-- A table with these indexes, none of its pages cached. -/
def indexedTable (indexes : List (List String)) : SmStore :=
  indexes.foldl (fun s names => s.createIndex "t" names [] [] []) (emptyDb.createTable "t" twoInts [])

theorem indexedTable_reachable (indexes : List (List String)) :
    smManager.Reachable (indexedTable indexes) := by
  have hrun : ∀ s, smManager.Reachable s →
      smManager.Reachable (indexes.foldl (fun s names => s.createIndex "t" names [] [] []) s) := by
    induction indexes with
    | nil => exact fun s hs => hs
    | cons names indexes ih =>
      exact fun s hs => ih _ (hs.step (a := .createIndex "t" names [] [] []) rfl)
  exact hrun _ ((TransitionSystem.Reachable.init emptyDb_initial).step
    (a := .createTable "t" twoInts []) rfl)

/-- A table with one index is dropped with it. -/
theorem one_index_dropped : ∃ info s', (indexedTable [["a"]]).tabs "t" = some info ∧
    info.indexes.length = 1 ∧
    (indexedTable [["a"]]).dropTableCall "t" (fun _ => []) (fun _ => []) = .returned info.indexes s' ∧
    (indexedTable [["a"]]).TableDropped s' "t" info := by
  have hpages : ∀ fd, (indexedTable [["a"]]).CachedPages fd [] :=
    fun fd p => ⟨nofun, fun h => absurd rfl h.2⟩
  obtain ⟨info, hinfo⟩ : ∃ info, (indexedTable [["a"]]).tabs "t" = some info := ⟨_, rfl⟩
  have hdrops : (∃ s', (indexedTable [["a"]]).dropTableCall "t" (fun _ => []) (fun _ => []) =
      .returned info.indexes s' ∧ (indexedTable [["a"]]).TableDropped s' "t" info) ↔ _ :=
    SmStore.dropTableCall_iff (smManager_tidy (indexedTable_reachable [["a"]])) hinfo hpages
  have hone : info.indexes.length = 1 := by
    cases hinfo
    rfl
  have hopen : ∀ index ∈ info.indexes,
      (indexedTable [["a"]]).ihs (getIndexName "t" (SmStore.colNames index)) ≠ none := by
    cases hinfo
    decide +kernel
  obtain ⟨s', hcall, hdropped⟩ := hdrops.mpr ⟨hone.le, hopen, fun h _ n => rfl⟩
  exact ⟨info, s', hinfo, hone, hcall, hdropped⟩

/-- **The loop of `drop_table` reads past the end of the vector** for a table with two indexes: the
second one is still there. -/
theorem second_index_stays : ∃ s info s', smManager.Reachable s ∧ s.tabs "t" = some info ∧
    info.indexes.length = 2 ∧
    s.dropTableCall "t" (fun _ => []) (fun _ => []) = .pastEnd s' ∧
    s'.tabs "t" ≠ none ∧ s'.ihs "t_b.idx" ≠ none ∧ (s'.files "t_b.idx").isSome :=
  ⟨indexedTable [["a"], ["b"]], _, _, indexedTable_reachable _, rfl, rfl, rfl, nofun, nofun, rfl⟩

end Rmdb
