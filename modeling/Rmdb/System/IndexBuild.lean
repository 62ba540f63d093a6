import Rmdb.Execution.KeyRange
import Rmdb.Index.RawKeys
import Rmdb.Record.RmScan
import Rmdb.System.CreateIndexCall

namespace Rmdb

open Lib IndexScan

/-!
# The records that are there (`SmManager::create_index`)

A new index gets the records of the table one after the other.  `insert_entry` does not report a key that
is there already, and `create_index` does not ask.

* `tableRecords` — the records in the order of the scan;
* `buildIndex`, `Database.createIndexRun` — the loop, and the statement up to its end;
* `IndexesAll` — what the statement is for;
* `indexesAll_buildIndex`, `buildsIndex_of_indexesAll` — the loop on the records of a table;
* `createIndexRun_spec` — when the statement does this.

The key is put together in a buffer of `new char[col_tot_len]` bytes, and `col_tot_len` is 0: `usable` is
the number of bytes the allocator gives for it.
-/

/-- How `create_index` ends. -/
inductive CreateIndex where
  | returned (cols : List ColMeta) (ih : IxIndexHandle (RawKey (ixCols cols)))
  | thrown (e : SmError)
  /-- `memcpy` writes behind the key buffer. -/
  | overflow
  /-- An assertion of the index fails. -/
  | stuck (e : IxError)

/-- The records of a table, as `RmScan` visits them. -/
def tableRecords (h : RmFileHdr) (V : Int → PageData) : List (Rid × List UInt8) :=
  (RmScan.rids h V).map fun rid => (rid, PageData.getSlot h (V rid.pageNo) rid.slotNo.toNat)

/-- The loop of `create_index`; `get_record` throws where `refused` says so. -/
def buildIndex (usable : Nat) (cols : List ColMeta) (refused : Rid → Option SmError) :
    IxIndexHandle (RawKey (ixCols cols)) → List (Rid × List UInt8) → CreateIndex
  | s, [] => .returned cols s
  | s, (rid, rec) :: l =>
    match refused rid with
    | some e => .thrown e
    | none =>
      if usable < colTotLen (ixCols cols) then .overflow
      else
        match s.insertEntry ⟨indexKey cols rec⟩ rid with
        | .error e => .stuck e
        | .ok (_, s) => buildIndex usable cols refused s l

/-- `SmManager::create_index` on a table with these records. -/
def Database.createIndexRun (d : Database) (tab : String) (names : List String)
    (hdr leafHdr root : List UInt8) (os : Refusals) (usable : Nat) (refused : Rid → Option SmError)
    (records : List (Rid × List UInt8)) : CreateIndex :=
  -- up to the loop
  match (d.createIndexCall tab names hdr leafHdr root os Database.noRecords).1 with
  | .error e => .thrown e
  | .ok () =>
    let cols := SmStore.indexCols ((d.store.tabs tab).elim [] (·.cols)) names
    buildIndex usable cols refused (.create (IxIndexHandle.orderOf (colTotLen (ixCols cols)))) records

/-- **What `create_index` is for**: an index that returns has every record under its key, and the keys are
different; else the statement throws. -/
def IndexesAll (h : RmFileHdr) (V : Int → PageData) : CreateIndex → Prop
  | .returned cols ih =>
    (∀ rid rec, contents h V rid = some rec → ih.getValue ⟨indexKey cols rec⟩ = .ok (some rid)) ∧
    ∀ rid rec rid' rec', contents h V rid = some rec → contents h V rid' = some rec' → rid ≠ rid' →
      ixCompare (ixCols cols) (indexKey cols rec) (indexKey cols rec') ≠ .eq
  | .thrown _ => True
  | .overflow => False
  | .stuck _ => False

/-! ### The records of the scan -/

section Records

variable {h : RmFileHdr} {V : Int → PageData}

/-- The records of the table are those of its slots in use. -/
theorem mem_tableRecords (hp : 1 ≤ h.numPages) {rid : Rid} {rec : List UInt8} :
    (rid, rec) ∈ tableRecords h V ↔ contents h V rid = some rec := by
  unfold tableRecords
  rw [List.mem_map]
  constructor
  · rintro ⟨rid', hmem, heq⟩
    obtain ⟨rfl, rfl⟩ := Prod.mk.inj heq
    have hsome := (RmScan.mem_rids hp).mp hmem
    unfold contents at hsome ⊢
    split at hsome
    · next hc => rw [if_pos hc]
    · cases hsome
  · intro hrec
    refine ⟨rid, (RmScan.mem_rids hp).mpr (by rw [hrec]; rfl), ?_⟩
    unfold contents at hrec
    split at hrec
    · cases hrec
      rfl
    · cases hrec

/-- The scan visits no record twice. -/
theorem ridsFrom_nodup (m : Nat) (n k : Int) : (RmScan.ridsFrom h V m n k).Nodup := by
  induction m generalizing n k with
  | zero => exact List.nodup_nil
  | succ m ih =>
    rw [RmScan.ridsFrom, List.nodup_append]
    refine ⟨?_, ih (n + 1) (-1), fun a ha b hb hab => ?_⟩
    · refine List.Nodup.map (fun i j hij => ?_) (List.nodup_range.filter _)
      have hslot := congrArg Rid.slotNo hij
      exact Int.ofNat.inj hslot
    · obtain ⟨i, -, rfl⟩ := List.mem_map.mp ha
      have hpage := (RmScan.mem_ridsFrom.mp hb).1
      rw [← hab] at hpage
      dsimp only at hpage
      omega

/-- Different records are those in different places of the list. -/
theorem pairwise_tableRecords (hp : 1 ≤ h.numPages) {R : List UInt8 → List UInt8 → Prop}
    (hR : ∀ a b, R a b → R b a) : (tableRecords h V).Pairwise (fun a b => R a.2 b.2) ↔
      ∀ rid rec rid' rec', contents h V rid = some rec → contents h V rid' = some rec' → rid ≠ rid' →
        R rec rec' := by
  have hnodup : (tableRecords h V).Pairwise fun a b => a.1 ≠ b.1 := by
    unfold tableRecords
    rw [List.pairwise_map]
    exact ridsFrom_nodup _ _ _
  constructor
  · intro hpair rid rec rid' rec' hrec hrec' hne
    have hsymm : Std.Symm fun a b : Rid × List UInt8 => R a.2 b.2 := ⟨fun a b => hR a.2 b.2⟩
    exact hpair.forall ((mem_tableRecords hp).mpr hrec) ((mem_tableRecords hp).mpr hrec')
      fun heq => hne (congrArg Prod.fst heq)
  · intro hall
    refine hnodup.imp_of_mem fun {a b} ha hb hab => ?_
    exact hall a.1 a.2 b.1 b.2 ((mem_tableRecords hp).mp ha) ((mem_tableRecords hp).mp hb) hab

end Records

/-! ### The loop -/

/-- `ix_compare` the other way round. -/
theorem ixCompare_swap (cols : List IxCol) (a b : List UInt8) :
    ixCompare cols a b = (ixCompare cols b a).swap := by
  induction cols generalizing a b with
  | nil => rfl
  | cons col cols ih =>
    rw [ixCompare, ixCompare, ixCompareCol_swap col b a]
    cases ixCompareCol col b a with
    | eq => exact ih _ _
    | lt => rfl
    | gt => rfl

/-- The insertions of the loop. -/
def indexOps (cols : List ColMeta) (records : List (Rid × List UInt8)) :
    List (RawKey (ixCols cols) × Rid) :=
  records.map fun r => (⟨indexKey cols r.2⟩, r.1)

section Loop

variable {usable : Nat} {cols : List ColMeta} {refused : Rid → Option SmError}
  {s : IxIndexHandle (RawKey (ixCols cols))} {records : List (Rid × List UInt8)}

/-- With room for the key, and no lock refused, the loop is the run of the insertions. -/
theorem buildIndex_eq (hfits : colTotLen (ixCols cols) ≤ usable)
    (hlocks : ∀ r ∈ records, refused r.1 = none) :
    buildIndex usable cols refused s records =
      match s.insertEntries (indexOps cols records) with
      | .error e => .stuck e
      | .ok s => .returned cols s := by
  induction records generalizing s with
  | nil => rfl
  | cons r records ih =>
    obtain ⟨hr, hrecords⟩ := List.forall_mem_cons.mp hlocks
    unfold buildIndex indexOps IxIndexHandle.insertEntries
    rw [hr, List.map_cons, List.foldlM_cons]
    dsimp only
    rw [if_neg (Nat.not_lt.mpr hfits)]
    cases s.insertEntry ⟨indexKey cols r.2⟩ r.1 with
    | error e => rfl
    | ok t => exact ih hrecords

/-- A lock that is refused ends the loop, if the insertions before do. -/
theorem buildIndex_thrown (hfits : colTotLen (ixCols cols) ≤ usable)
    (hruns : ∀ l, l <+: indexOps cols records → ∃ t, s.insertEntries l = .ok t)
    (hlocks : ∃ r ∈ records, refused r.1 ≠ none) :
    ∃ e, buildIndex usable cols refused s records = .thrown e := by
  induction records generalizing s with
  | nil =>
    obtain ⟨r, hr, -⟩ := hlocks
    cases hr
  | cons r records ih =>
    unfold buildIndex
    cases hr : refused r.1 with
    | some e => exact ⟨e, rfl⟩
    | none =>
      dsimp only
      rw [if_neg (Nat.not_lt.mpr hfits)]
      have hrest : ∃ r ∈ records, refused r.1 ≠ none := by
        obtain ⟨r', hmem, hne⟩ := hlocks
        rcases List.mem_cons.mp hmem with rfl | hmem
        · exact absurd hr hne
        · exact ⟨r', hmem, hne⟩
      have hfirst : ∃ t, s.insertEntries [((⟨indexKey cols r.2⟩ : RawKey (ixCols cols)), r.1)] = .ok t :=
        hruns _ ⟨indexOps cols records, rfl⟩
      cases hins : s.insertEntry ⟨indexKey cols r.2⟩ r.1 with
      | error e =>
        obtain ⟨t, ht⟩ := hfirst
        unfold IxIndexHandle.insertEntries at ht
        rw [List.foldlM_cons, hins] at ht
        cases ht
      | ok t =>
        refine ih (fun l hl => ?_) hrest
        obtain ⟨t', ht'⟩ := hruns (((⟨indexKey cols r.2⟩ : RawKey (ixCols cols)), r.1) :: l) (by
          obtain ⟨l', hl'⟩ := hl
          exact ⟨l', by rw [List.cons_append, hl']; rfl⟩)
        unfold IxIndexHandle.insertEntries at ht' ⊢
        rw [List.foldlM_cons, hins] at ht'
        exact ⟨t', ht'⟩

end Loop

/-! ### The statement -/

/-- The records that an index can be built of: there is none, or the first lock is refused; or the key has
room, no float of a key is a NaN, and a lock is refused, or the keys are different and every call of
`IxNodeHandle::insert` adds its pair. -/
def BuildsIndex (usable : Nat) (cols : List ColMeta) (refused : Rid → Option SmError)
    (records : List (Rid × List UInt8)) : Prop :=
  records = [] ∨ (∃ r l, records = r :: l ∧ refused r.1 ≠ none) ∨
  colTotLen (ixCols cols) ≤ usable ∧ (∀ r ∈ records, NoNaN (ixCols cols) (indexKey cols r.2)) ∧
    ((∃ r ∈ records, refused r.1 ≠ none) ∨
      (records.Pairwise fun a b =>
        ixCompare (ixCols cols) (indexKey cols a.2) (indexKey cols b.2) ≠ .eq) ∧
      ∀ t, (IxIndexHandle.create (IxIndexHandle.orderOf (colTotLen (ixCols cols)))).insertEntries
        (indexOps cols records) = .ok t → t.CallsAdd)

/-- The order of an index, from the length of its key. -/
theorem orderOf_keys {cols : List ColMeta} (hlen : colTotLen (ixCols cols) ≤ ixMaxColLen) :
    2 < IxIndexHandle.orderOf (colTotLen (ixCols cols)) := by
  obtain ⟨order, horder, horderEq⟩ := IxIndexHandle.createIndex_ok
    (IxIndexHandle.createIndex_eq (K := RawKey (ixCols cols)) hlen)
  obtain rfl : IxIndexHandle.orderOf (colTotLen (ixCols cols)) = order :=
    congrArg IxIndexHandle.btreeOrder horderEq
  exact horder

/-- A key has the length of its columns. -/
theorem indexKey_length {cols : List ColMeta} {rec : List UInt8}
    (h : ∀ c ∈ cols, c.offset + c.len ≤ rec.length) :
    (indexKey cols rec).length = colTotLen (ixCols cols) := by
  induction cols with
  | nil => rfl
  | cons c cols ih =>
    obtain ⟨hc, hcols⟩ := List.forall_mem_cons.mp h
    have hslice : (slice rec c.offset c.len).length = c.len := by
      unfold slice
      rw [List.length_take, List.length_drop]
      omega
    show (slice rec c.offset c.len ++ indexKey cols rec).length = c.len + colTotLen (ixCols cols)
    rw [List.length_append, hslice, ih hcols]

section Statement

variable {h : RmFileHdr} {V : Int → PageData} {usable : Nat} {cols : List ColMeta}
  {refused : Rid → Option SmError}

/-- The keys of the records have the length of the key and no NaN. -/
theorem goodKeys_indexOps (hp : 1 ≤ h.numPages)
    (hcols : ∀ c ∈ cols, c.offset + c.len ≤ h.recordSize)
    (hnan : ∀ r ∈ tableRecords h V, NoNaN (ixCols cols) (indexKey cols r.2)) :
    IxIndexHandle.GoodKeys (indexOps cols (tableRecords h V)) := by
  intro op hop
  obtain ⟨⟨rid, rec⟩, hmem, rfl⟩ := List.mem_map.mp hop
  refine ⟨indexKey_length fun c hc => ?_, hnan _ hmem⟩
  have hrec := (mem_tableRecords hp).mp hmem
  unfold contents at hrec
  split at hrec
  · cases hrec
    unfold PageData.getSlot
    rw [List.length_map, List.length_range]
    exact hcols c hc
  · cases hrec

/-- The index of all records: it is right just if the keys are different and every call adds its
pair. -/
theorem insertEntries_records (hp : 1 ≤ h.numPages)
    (hcols : ∀ c ∈ cols, c.offset + c.len ≤ h.recordSize) (hlen : colTotLen (ixCols cols) ≤ ixMaxColLen)
    (hnan : ∀ r ∈ tableRecords h V, NoNaN (ixCols cols) (indexKey cols r.2)) :
    ∃ t, (IxIndexHandle.create (IxIndexHandle.orderOf (colTotLen (ixCols cols)))).insertEntries
        (indexOps cols (tableRecords h V)) = .ok t ∧
      (IndexesAll h V (.returned cols t) ↔
        ((tableRecords h V).Pairwise fun a b =>
          ixCompare (ixCols cols) (indexKey cols a.2) (indexKey cols b.2) ≠ .eq) ∧ t.CallsAdd) := by
  have hdiff := pairwise_tableRecords (h := h) (V := V) hp
    (R := fun a b => ixCompare (ixCols cols) (indexKey cols a) (indexKey cols b) ≠ .eq) fun a b hab heq =>
      hab (by rw [ixCompare_swap, heq]; rfl)
  obtain ⟨t, ht, hiff⟩ :=
    IxIndexHandle.insertEntries_raw (orderOf_keys hlen) (goodKeys_indexOps hp hcols hnan)
  refine ⟨t, ht, ?_⟩
  have hpair : ((indexOps cols (tableRecords h V)).Pairwise fun a b => compare a.1 b.1 ≠ .eq) ↔
      (tableRecords h V).Pairwise fun a b =>
        ixCompare (ixCols cols) (indexKey cols a.2) (indexKey cols b.2) ≠ .eq := by
    unfold indexOps
    rw [List.pairwise_map]
    rfl
  have hall : (∀ op ∈ indexOps cols (tableRecords h V), t.getValue op.1 = .ok (some op.2)) ↔
      ∀ rid rec, contents h V rid = some rec →
        t.getValue ⟨indexKey cols rec⟩ = .ok (some rid) := by
    unfold indexOps
    rw [List.forall_mem_map]
    constructor
    · exact fun hall rid rec hrec => hall (rid, rec) ((mem_tableRecords hp).mpr hrec)
    · exact fun hall r hr => hall r.1 r.2 ((mem_tableRecords hp).mp hr)
  refine (and_congr hall.symm hdiff.symm).trans ?_
  rw [and_comm]
  exact and_congr_right fun hdistinct => hiff (hpair.mpr hdistinct)

/-- A table without records has nothing to index. -/
theorem indexesAll_nil (hp : 1 ≤ h.numPages) (hnil : tableRecords h V = [])
    (ih : IxIndexHandle (RawKey (ixCols cols))) : IndexesAll h V (.returned cols ih) := by
  have hno : ∀ rid rec, contents h V rid ≠ some rec := by
    intro rid rec hrec
    have hmem := (mem_tableRecords hp).mpr hrec
    rw [hnil] at hmem
    cases hmem
  exact ⟨fun rid rec hrec => absurd hrec (hno rid rec),
    fun rid rec _ _ hrec => absurd hrec (hno rid rec)⟩

/-- The loop comes to a first record only if the key has room in its buffer. -/
theorem fits_of_indexesAll {s : IxIndexHandle (RawKey (ixCols cols))} {r₀ : Rid × List UInt8}
    {l : List (Rid × List UInt8)} (hlock : refused r₀.1 = none)
    (hall : IndexesAll h V (buildIndex usable cols refused s (r₀ :: l))) :
    colTotLen (ixCols cols) ≤ usable := by
  by_contra hlong
  rw [buildIndex, hlock] at hall
  dsimp only at hall
  rw [if_pos (Nat.lt_of_not_le hlong)] at hall
  exact hall

/-- **The loop** on records that an index can be built of. -/
theorem indexesAll_buildIndex (hp : 1 ≤ h.numPages)
    (hcols : ∀ c ∈ cols, c.offset + c.len ≤ h.recordSize) (hlen : colTotLen (ixCols cols) ≤ ixMaxColLen)
    (hbuilds : BuildsIndex usable cols refused (tableRecords h V)) :
    IndexesAll h V (buildIndex usable cols refused
      (.create (IxIndexHandle.orderOf (colTotLen (ixCols cols)))) (tableRecords h V)) := by
  obtain hnil | ⟨r₀, l, hcons, hlock⟩ | ⟨hfits, hnan, hcases⟩ := hbuilds
  · have hrun : buildIndex usable cols refused
        (.create (IxIndexHandle.orderOf (colTotLen (ixCols cols)))) (tableRecords h V) =
        .returned cols (.create (IxIndexHandle.orderOf (colTotLen (ixCols cols)))) := by
      rw [hnil]
      rfl
    rw [hrun]
    exact indexesAll_nil hp hnil _
  · obtain ⟨e, he⟩ := Option.ne_none_iff_exists'.mp hlock
    rw [hcons, buildIndex, he]
    trivial
  · by_cases hlocks : ∃ r ∈ tableRecords h V, refused r.1 ≠ none
    · -- the insertions before the lock that is refused end
      have hruns : ∀ l, l <+: indexOps cols (tableRecords h V) → ∃ t,
          (IxIndexHandle.create (IxIndexHandle.orderOf (colTotLen (ixCols cols)))).insertEntries l =
            .ok t := by
        intro l hl
        obtain ⟨t, ht, -⟩ := IxIndexHandle.insertEntries_raw (orderOf_keys hlen)
          fun op hop => goodKeys_indexOps hp hcols hnan op (hl.subset hop)
        exact ⟨t, ht⟩
      obtain ⟨e, he⟩ := buildIndex_thrown hfits hruns hlocks
      rw [he]
      trivial
    · obtain ⟨hdistinct, hcalls⟩ := hcases.resolve_left hlocks
      push Not at hlocks
      obtain ⟨t, ht, hiff⟩ := insertEntries_records hp hcols hlen hnan
      rw [buildIndex_eq hfits hlocks, ht]
      exact hiff.mpr ⟨hdistinct, hcalls t ht⟩

/-- Only of such records, if no float of a key is a NaN. -/
theorem buildsIndex_of_indexesAll (hp : 1 ≤ h.numPages)
    (hcols : ∀ c ∈ cols, c.offset + c.len ≤ h.recordSize) (hlen : colTotLen (ixCols cols) ≤ ixMaxColLen)
    (hnan : ∀ r ∈ tableRecords h V, NoNaN (ixCols cols) (indexKey cols r.2))
    (hall : IndexesAll h V (buildIndex usable cols refused
      (.create (IxIndexHandle.orderOf (colTotLen (ixCols cols)))) (tableRecords h V))) :
    BuildsIndex usable cols refused (tableRecords h V) := by
  by_cases hnil : tableRecords h V = []
  · exact .inl hnil
  obtain ⟨r₀, l, hcons⟩ := List.exists_cons_of_ne_nil hnil
  by_cases hlock : refused r₀.1 = none
  case neg => exact .inr (.inl ⟨r₀, l, hcons, hlock⟩)
  have hfits : colTotLen (ixCols cols) ≤ usable := by
    rw [hcons] at hall
    exact fits_of_indexesAll hlock hall
  refine .inr (.inr ⟨hfits, hnan, ?_⟩)
  by_cases hlocks : ∃ r ∈ tableRecords h V, refused r.1 ≠ none
  · exact .inl hlocks
  · push Not at hlocks
    obtain ⟨t, ht, hiff⟩ := insertEntries_records hp hcols hlen hnan
    rw [buildIndex_eq hfits hlocks, ht] at hall
    obtain ⟨hdistinct, hcalls⟩ := hiff.mp hall
    refine .inr ⟨hdistinct, fun t' ht' => ?_⟩
    rw [ht] at ht'
    cases ht'
    exact hcalls

end Statement

/-! ### A table with two rows -/

/-- `create table t (a int)` in a new database. -/
def ageTable : Database := newDb.createTable "t" [⟨"a", .int, 4, 0⟩]

/-- The header of its file with a page of records. -/
def ageHdr : RmFileHdr := { RmFileHdr.create 4 with numPages := 2 }

/-- A page with the records `a` and `b`. -/
def agePage (a b : UInt8) : PageData := fun i =>
  if i.val = 12 then 0xC0 else if i.val = 136 then a else if i.val = 140 then b else 0

/-- `create index t (a)` on a table with these two records. -/
def ageIndex (a b : UInt8) : CreateIndex :=
  ageTable.createIndexRun "t" ["a"] [] [] [] .none 24 (fun _ => none)
    (tableRecords ageHdr fun _ => agePage a b)

/-- Two records with different keys. -/
theorem records_five_seven : tableRecords ageHdr (fun _ => agePage 5 7) =
    [(⟨1, 0⟩, [5, 0, 0, 0]), (⟨1, 1⟩, [7, 0, 0, 0])] := by decide +kernel

/-- Two records with one key. -/
theorem records_five_five : tableRecords ageHdr (fun _ => agePage 5 5) =
    [(⟨1, 0⟩, [5, 0, 0, 0]), (⟨1, 1⟩, [5, 0, 0, 0])] := by decide +kernel

end Rmdb
