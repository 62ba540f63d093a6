import Rmdb.Execution.KeyRangeEnds
import Rmdb.Index.IxScan
import Rmdb.Index.RawKeys
import Rmdb.Record.RmScan

namespace Rmdb

open Lib Std

/-!
# The two scans (`executor_seq_scan.h`, `executor_index_scan.h`)

Both executors go through record ids and keep those whose records meet the conditions: the one through
all records of the file, the other through the entries of an index between two keys.  The loop of the
caller (`beginTuple`, `is_end`, `nextTuple`) is `Cursor.scan`.

* `seqScan`, `indexScan` — the record ids of the two executors;
* `IndexedTable` — a table and a B+ tree with exactly one entry for each record;
* `indexScan_agrees_iff` — when the two find the same;
* `indexScan_empty_table` — on an empty table they do not.

The key buffers have room for the key (the code allocates `col_tot_len` bytes), and locks are granted.
-/

/-- What the executors can throw. -/
inductive ScanError where
  | exec (e : ExecError)
  | index (e : IxError)
  | pageNotExistError (pageNo : Int)
  /-- A loop does not end. -/
  | outOfFuel
  deriving DecidableEq, Repr

/-- A table for reading: its name, its columns and its file. -/
structure ScanTable where
  tab : String
  cols : List ColMeta
  hdr : RmFileHdr
  pages : Int → PageData

namespace ScanTable

variable (t : ScanTable)

/-- `RmFileHandle::get_record`. -/
def getRecord (rid : Rid) : Except ScanError (List UInt8) :=
  if rid.pageNo = invalidPageId then .error (.pageNotExistError rid.pageNo)
  else .ok (PageData.getSlot t.hdr (t.pages rid.pageNo) rid.slotNo.toNat)

/-- `_checkConds`. -/
def check (conds : List Condition) (rid : Rid) : Except ScanError Bool := do
  let rec ← t.getRecord rid
  (ExecutorUtils.checkConds t.tab t.cols rec conds).mapError .exec

/-- `SeqScanExecutor`: the record ids it delivers. -/
def seqScan (conds : List Condition) (fuel : Nat) : Except ScanError (List Rid) :=
  (RmScan.cursor t.hdr t.pages ScanError.outOfFuel).scan (t.check conds) fuel
    (RmScan.start t.hdr t.pages)

/-- The constructor of `IndexScanExecutor`: a condition whose left column is of another table changes
    sides. -/
def orientConds (conds : List Condition) : Except ScanError (List Condition) :=
  conds.mapM fun c =>
    if c.lhsCol.tabName = t.tab then .ok c
    else if c.isRhsVal = false ∧ c.rhsCol.tabName = t.tab then .ok c.swap
    else .error (.exec .assertion)

/-- `IndexScanExecutor`: the record ids it delivers. -/
def indexScan (index : IndexMeta) (ih : IxIndexHandle (RawKey (IndexScan.ixCols index.cols)))
    (conds : List Condition) (fuel : Nat) : Except ScanError (List Rid) := do
  let conds ← t.orientConds conds
  let range ← (IndexScan.keyRange conds index.cols false).mapError .exec
  let scan ← (ih.scan ⟨range.1⟩ ⟨range.2⟩).mapError .index
  ((IxScan.cursor ih).mapError .index).scan (t.check conds) fuel scan

/-- **The two scans agree**: the index scan ends without an error and finds what the sequential scan
    finds. -/
def ScansAgree (index : IndexMeta) (ih : IxIndexHandle (RawKey (IndexScan.ixCols index.cols)))
    (conds : List Condition) : Prop :=
  ∃ fuel r r', t.indexScan index ih conds fuel = .ok r ∧ t.seqScan conds fuel = .ok r' ∧
    ∀ rid, rid ∈ r ↔ rid ∈ r'

end ScanTable

/-! ### Keys as bytes -/

section Raw

variable {cols : List IxCol} (s : IxIndexHandle (IxKey cols))

/-- A scan of the bytes is a scan of the keys. -/
theorem scan_mapKeys (lo hi : IxKey cols) : (s.mapKeys IxKey.raw).scan lo.raw hi.raw = s.scan lo hi := by
  have hfind : ∀ k : IxKey cols, (s.mapKeys IxKey.raw).findLeafPage k.raw = s.findLeafPage k :=
    fun k => IxIndexHandle.mapKeys_findLeafPage IxKey.compare_raw s k
  have hlow : (s.mapKeys IxKey.raw).lowerBound lo.raw = s.lowerBound lo := by
    unfold IxIndexHandle.lowerBound
    rw [hfind]
    rfl
  have hhigh : (s.mapKeys IxKey.raw).upperBound hi.raw = s.upperBound hi := by
    unfold IxIndexHandle.upperBound
    rw [hfind]
    rfl
  unfold IxIndexHandle.scan
  rw [hlow, hhigh]

end Raw

/-! ### A table with an index -/

/-- **A table with an index that holds exactly one entry for each record.** -/
structure IndexedTable extends ScanTable where
  index : IndexMeta
  handle : IxIndexHandle (IxKey (IndexScan.ixCols index.cols))
  leaves : List Int
  levels : List (List Int)
  /-- The columns have the lengths of their types. -/
  declared : ∀ c ∈ cols, c.Declared
  /-- The indexed columns are columns of the table. -/
  indexed : ∀ c ∈ index.cols, findCol tab cols ⟨tab, c.name⟩ = .ok c
  one_le : 1 ≤ hdr.numPages
  tree : handle.Tree leaves levels
  /-- Every entry is the key of a record with the record's id. -/
  record_of_entry : ∀ x ∈ handle.contents leaves,
    ∃ rec, contents hdr pages x.2 = some rec ∧ x.1.bytes = indexKey index.cols rec
  /-- Every record has its entry. -/
  entry_of_record : ∀ rid rec, contents hdr pages rid = some rec →
    ∃ k, (k, rid) ∈ handle.contents leaves ∧ k.bytes = indexKey index.cols rec

namespace IndexedTable

variable (t : IndexedTable) (conds : List Condition)

/-- The index as the executor sees it. -/
def rawHandle : IxIndexHandle (RawKey (IndexScan.ixCols t.index.cols)) := t.handle.mapKeys IxKey.raw

/-- The record meets all conditions. -/
def Meets (rec : List UInt8) : Prop :=
  ∀ c ∈ conds, ExecutorUtils.checkCond t.tab t.cols rec c = .ok true

/-- The literals on indexed columns have the types of the columns, and the indexed fields of the
    records lie in the default ranges of `init_key_range`. -/
structure SameTypes : Prop where
  literals : ∀ c ∈ conds, ∀ col ∈ t.index.cols, c.lhsCol.colName = col.name → c.isRhsVal = true →
    c.rhsVal.FitsCol col
  fields : ∀ rid rec, contents t.hdr t.pages rid = some rec → ∀ col ∈ t.index.cols,
    FieldOf col (slice rec col.offset col.len) ∧
      IndexScan.InDefault col (slice rec col.offset col.len)

/-- The ends of the key range are keys: no column of them is a NaN. -/
def RangeWithoutNaN : Prop := ∀ r, IndexScan.keyRange conds t.index.cols false = .ok r →
  NoNaN (IndexScan.ixCols t.index.cols) r.1 ∧ NoNaN (IndexScan.ixCols t.index.cols) r.2

/-- The scan from the smallest to the largest key of the range reaches its end. -/
def RangeEnds (lo hi : IxKey (IndexScan.ixCols t.index.cols)) : Prop :=
  IndexScan.keyRange conds t.index.cols false = .ok (lo.bytes, hi.bytes) ∧
    t.handle.ScanEnds t.leaves lo hi

variable {t conds}

/-- The test of both executors on a record id with a record. -/
theorem check_eq (hconds : ∀ c ∈ conds, Analyze.checkClause t.tab t.cols c = .ok ()) {rid : Rid}
    {rec : List UInt8} (hrec : contents t.hdr t.pages rid = some rec) :
    ∃ b, t.check conds rid = .ok b ∧ (b = true ↔ t.Meets conds rec) := by
  have hget : t.getRecord rid = .ok rec := by
    unfold contents at hrec
    split at hrec
    · rename_i hr
      cases hrec
      unfold ScanTable.getRecord
      rw [if_neg fun hc => ?_]
      have := hr.1
      simp only [invalidPageId] at hc
      omega
    · cases hrec
  obtain ⟨b, hb, hiff⟩ := checkConds_ok rec fun c hc => checkCond_ok t.declared (hconds c hc) rec
  refine ⟨b, ?_, hiff⟩
  unfold ScanTable.check
  rw [hget]
  show (ExecutorUtils.checkConds t.tab t.cols rec conds).mapError ScanError.exec = .ok b
  rw [hb]
  rfl

/-- The test as a predicate on record ids. -/
def passes (t : IndexedTable) (conds : List Condition) (rid : Rid) : Bool :=
  match t.check conds rid with
  | .ok b => b
  | .error _ => false

/-- The conditions can be evaluated on each record, and say what they mean. -/
theorem check_passes (hconds : ∀ c ∈ conds, Analyze.checkClause t.tab t.cols c = .ok ()) {rid : Rid}
    {rec : List UInt8} (hrec : contents t.hdr t.pages rid = some rec) :
    t.check conds rid = .ok (t.passes conds rid) ∧ (t.passes conds rid = true ↔ t.Meets conds rec) := by
  obtain ⟨b, hb, hiff⟩ := check_eq hconds hrec
  unfold passes
  rw [hb]
  exact ⟨rfl, hiff⟩

/-- **The sequential scan** finds the records that meet the conditions. -/
theorem seqScan_eq (hconds : ∀ c ∈ conds, Analyze.checkClause t.tab t.cols c = .ok ()) {fuel : Nat}
    (hfuel : (RmScan.rids t.hdr t.pages).length < fuel) :
    t.seqScan conds fuel = .ok ((RmScan.rids t.hdr t.pages).filter (t.passes conds)) := by
  refine (RmScan.visits ScanError.outOfFuel).scan_eq (fun rid hrid => ?_) hfuel
  obtain ⟨rec, hrec⟩ := Option.isSome_iff_exists.mp ((RmScan.mem_rids t.one_le).mp hrid)
  exact (check_passes hconds hrec).1

/-- The rows of a sequential scan. -/
theorem mem_seqScan (hconds : ∀ c ∈ conds, Analyze.checkClause t.tab t.cols c = .ok ()) {rid : Rid} :
    rid ∈ (RmScan.rids t.hdr t.pages).filter (t.passes conds) ↔
      ∃ rec, contents t.hdr t.pages rid = some rec ∧ t.Meets conds rec := by
  rw [List.mem_filter, RmScan.mem_rids t.one_le, Option.isSome_iff_exists]
  constructor
  · rintro ⟨⟨rec, hrec⟩, hp⟩
    exact ⟨rec, hrec, (check_passes hconds hrec).2.mp hp⟩
  · rintro ⟨rec, hrec, hm⟩
    exact ⟨⟨rec, hrec⟩, (check_passes hconds hrec).2.mpr hm⟩

/-- The constructor leaves conditions on the table as they are. -/
theorem orientConds_eq (hconds : ∀ c ∈ conds, c.lhsCol.tabName = t.tab) :
    t.orientConds conds = .ok conds := by
  unfold ScanTable.orientConds
  induction conds with
  | nil => rfl
  | cons c conds ih =>
    rw [List.mapM_cons, if_pos (hconds c List.mem_cons_self),
      ih fun x hx => hconds x (List.mem_cons_of_mem _ hx)]
    rfl

variable (t conds) in
/-- The records that meet the conditions are among the entries the scan visits. -/
def Covers (lo hi : IxKey (IndexScan.ixCols t.index.cols)) : Prop :=
  ∀ k rid rec, (k, rid) ∈ t.handle.contents t.leaves → contents t.hdr t.pages rid = some rec →
    t.Meets conds rec → t.handle.Scanned t.leaves lo hi k

/-- The index scan, once the range is known. -/
theorem indexScan_eq (hconds : ∀ c ∈ conds, c.lhsCol.tabName = t.tab)
    {lo hi : IxKey (IndexScan.ixCols t.index.cols)} {c : IxScan}
    (hrange : IndexScan.keyRange conds t.index.cols false = .ok (lo.bytes, hi.bytes))
    (hc : t.handle.scan lo hi = .ok c) (fuel : Nat) :
    t.indexScan t.index t.rawHandle conds fuel =
      ((IxScan.cursor t.handle).mapError .index).scan (t.check conds) fuel c := by
  have hscan : t.rawHandle.scan ⟨lo.bytes⟩ ⟨hi.bytes⟩ = .ok c := (scan_mapKeys t.handle lo hi).trans hc
  unfold ScanTable.indexScan
  rw [orientConds_eq hconds]
  show ((IndexScan.keyRange conds t.index.cols false).mapError ScanError.exec >>= _) = _
  rw [hrange]
  show ((t.rawHandle.scan ⟨lo.bytes⟩ ⟨hi.bytes⟩).mapError ScanError.index >>= _) = _
  rw [hscan]
  rfl

/-- The entry of a record id is its only one. -/
theorem entry_unique {x y : IxKey (IndexScan.ixCols t.index.cols) × Rid}
    (hx : x ∈ t.handle.contents t.leaves) (hy : y ∈ t.handle.contents t.leaves) (hxy : x.2 = y.2) :
    x = y := by
  obtain ⟨rec, hrec, hk⟩ := t.record_of_entry x hx
  obtain ⟨rec', hrec', hk'⟩ := t.record_of_entry y hy
  rw [hxy, hrec'] at hrec
  cases hrec
  obtain ⟨⟨bytes, hlen, hnan⟩, rid⟩ := x
  obtain ⟨⟨bytes', hlen', hnan'⟩, rid'⟩ := y
  obtain rfl : rid = rid' := hxy
  obtain rfl : bytes = bytes' := hk.trans hk'.symm
  rfl

/-- **The two results**, as sets. -/
theorem same_iff_covers (hconds : ∀ c ∈ conds, Analyze.checkClause t.tab t.cols c = .ok ())
    {lo hi : IxKey (IndexScan.ixCols t.index.cols)}
    {l : List (IxKey (IndexScan.ixCols t.index.cols) × Rid)}
    (hl : ∀ x, x ∈ l ↔ x ∈ t.handle.contents t.leaves ∧ t.handle.Scanned t.leaves lo hi x.1) :
    (∀ rid, rid ∈ (l.map Prod.snd).filter (t.passes conds) ↔
      rid ∈ (RmScan.rids t.hdr t.pages).filter (t.passes conds)) ↔ t.Covers conds lo hi := by
  constructor
  · intro hsame k rid rec hentry hrec hmeets
    have hrid := (hsame rid).mpr ((mem_seqScan hconds).mpr ⟨rec, hrec, hmeets⟩)
    obtain ⟨x, hx, hx2⟩ := List.mem_map.mp (List.mem_filter.mp hrid).1
    obtain ⟨hxc, hxs⟩ := (hl x).mp hx
    obtain rfl := entry_unique hxc hentry hx2
    exact hxs
  · intro hcov rid
    constructor
    · intro hrid
      obtain ⟨hm, hp⟩ := List.mem_filter.mp hrid
      obtain ⟨x, hx, rfl⟩ := List.mem_map.mp hm
      obtain ⟨rec, hrec, -⟩ := t.record_of_entry x ((hl x).mp hx).1
      exact (mem_seqScan hconds).mpr ⟨rec, hrec, (check_passes hconds hrec).2.mp hp⟩
    · intro hrid
      obtain ⟨rec, hrec, hmeets⟩ := (mem_seqScan hconds).mp hrid
      obtain ⟨k, hk, -⟩ := t.entry_of_record rid rec hrec
      have hin := (hl (k, rid)).mpr ⟨hk, hcov k rid rec hk hrec hmeets⟩
      exact List.mem_filter.mpr ⟨List.mem_map.mpr ⟨_, hin, rfl⟩, (check_passes hconds hrec).2.mpr hmeets⟩

/-- **The two scans, once the range is known.** -/
theorem agree_iff_of_range (hconds : ∀ c ∈ conds, Analyze.checkClause t.tab t.cols c = .ok ())
    {lo hi : IxKey (IndexScan.ixCols t.index.cols)}
    (hrange : IndexScan.keyRange conds t.index.cols false = .ok (lo.bytes, hi.bytes)) :
    t.ScansAgree t.index t.rawHandle conds ↔
      t.handle.ScanEnds t.leaves lo hi ∧ t.Covers conds lo hi := by
  have htabs : ∀ c ∈ conds, c.lhsCol.tabName = t.tab := fun c hc => checkClause_tab (hconds c hc)
  obtain ⟨c, hc⟩ := t.tree.scan_ok lo hi
  have hindex := indexScan_eq htabs hrange hc
  by_cases hends : t.handle.ScanEnds t.leaves lo hi
  · obtain ⟨c', e, hc', he, hv⟩ := t.tree.scan_visits hends
    cases hc.symm.trans hc'
    have hmem := t.tree.mem_visited lo he
    generalize hl : ((t.handle.contents t.leaves).take e).drop
      (lowerIdx lo (t.handle.contents t.leaves)) = l at hv hmem
    -- the visited entries that pass
    have hresult : ∀ {r}, (∃ fuel, t.indexScan t.index t.rawHandle conds fuel = .ok r) ↔
        r = (l.map Prod.snd).filter (t.passes conds) := by
      intro r
      simp only [hindex]
      rw [Cursor.exists_scan_iff (p := t.passes conds) fun l' hl' a ha => ?_]
      · constructor
        · rintro ⟨l', hl', rfl⟩
          rw [(Cursor.visits_mapError.mp hl').unique hv]
        · rintro rfl
          exact ⟨_, Cursor.visits_mapError.mpr hv, rfl⟩
      · rw [(Cursor.visits_mapError.mp hl').unique hv] at ha
        obtain ⟨x, hx, rfl⟩ := List.mem_map.mp ha
        obtain ⟨rec, hrec, -⟩ := t.record_of_entry x ((hmem x).mp hx).1
        exact (check_passes hconds hrec).1
    rw [← same_iff_covers hconds hmem]
    constructor
    · rintro ⟨fuel, r, r', hr, hr', hsame⟩
      have hr₁ := hresult.mp ⟨fuel, hr⟩
      have hr₂ := Except.ok.inj ((Cursor.scan_mono hr'
        (Nat.le_max_left fuel ((RmScan.rids t.hdr t.pages).length + 1))).symm.trans
          (seqScan_eq hconds (by omega)))
      rw [hr₁, hr₂] at hsame
      exact ⟨hends, hsame⟩
    · rintro ⟨-, hsame⟩
      obtain ⟨fuel, hr⟩ := hresult.mpr rfl
      rw [hindex] at hr
      refine ⟨max fuel ((RmScan.rids t.hdr t.pages).length + 1), _, _, ?_,
        seqScan_eq hconds (by omega), hsame⟩
      rw [hindex]
      exact Cursor.scan_mono hr (Nat.le_max_left _ _)
  · -- the scan throws
    refine iff_of_false ?_ fun h => hends h.1
    rintro ⟨fuel, r, r', hr, -⟩
    rw [hindex] at hr
    obtain ⟨l, hl⟩ := Cursor.exists_visits hr
    exact t.tree.scan_fails hends hc l (Cursor.visits_mapError.mp hl)

/-- The range of literals of the right types covers. -/
theorem SameTypes.covers (h : t.SameTypes conds)
    (hconds : ∀ c ∈ conds, Analyze.checkClause t.tab t.cols c = .ok ())
    {lo hi : IxKey (IndexScan.ixCols t.index.cols)}
    (hrange : IndexScan.keyRange conds t.index.cols false = .ok (lo.bytes, hi.bytes)) :
    t.Covers conds lo hi := by
  intro k rid rec hentry hrec hmeets
  obtain ⟨rec', hrec', hk⟩ := t.record_of_entry _ hentry
  rw [hrec] at hrec'
  cases hrec'
  obtain ⟨hlow, hhigh⟩ := IndexScan.keyRange_covers
    (fun col hcol => t.declared col (findCol_eq_ok (t.indexed col hcol)).2) t.indexed
    (h.fields rid rec hrec) h.literals
    (fun c hc => ⟨checkClause_tab (hconds c hc), hmeets c hc⟩) hrange
  rw [← hk] at hlow hhigh
  refine ⟨hlow, Or.inr ?_⟩
  obtain ⟨g, hg⟩ := List.mem_iff_getElem?.mp hentry
  have hlt := (t.tree.sorted.lt_upperIdx_iff (k := hi) hg).mpr hhigh
  rw [t.tree.sorted.lowerIdx_eq hg]
  omega

/-- **When an index scan finds what a sequential scan finds.** The scan from the smallest to the largest
    key of the range must reach its end, and the entries it visits must be enough.  With literals of the
    types of their columns they are. -/
theorem indexScan_agrees_iff (t : IndexedTable) (conds : List Condition)
    (hconds : ∀ c ∈ conds, Analyze.checkClause t.tab t.cols c = .ok ())
    (hnan : t.RangeWithoutNaN conds) :
    (t.ScansAgree t.index t.rawHandle conds ↔
      ∃ lo hi, t.RangeEnds conds lo hi ∧ t.Covers conds lo hi) ∧
    (t.SameTypes conds → (t.ScansAgree t.index t.rawHandle conds ↔ ∃ lo hi, t.RangeEnds conds lo hi)) := by
  have hiff : t.ScansAgree t.index t.rawHandle conds ↔
      ∃ lo hi, t.RangeEnds conds lo hi ∧ t.Covers conds lo hi := by
    constructor
    · rintro ⟨fuel, r, r', hr, hr', hsame⟩
      have hr₁ := hr
      unfold ScanTable.indexScan at hr₁
      rw [orientConds_eq fun c hc => checkClause_tab (hconds c hc)] at hr₁
      obtain ⟨conds', hconds', hr₁⟩ := bind_eq_ok.mp hr₁
      cases hconds'
      obtain ⟨range, hrange, -⟩ := bind_eq_ok.mp hr₁
      have hrange := mapError_eq_ok.mp hrange
      obtain ⟨hlen₁, hlen₂⟩ := IndexScan.keyRange_length hrange
      obtain ⟨hn₁, hn₂⟩ := hnan range hrange
      have hrange' : IndexScan.keyRange conds t.index.cols false =
          .ok ((⟨range.1, hlen₁, hn₁⟩ : IxKey _).bytes, (⟨range.2, hlen₂, hn₂⟩ : IxKey _).bytes) := hrange
      obtain ⟨hends, hcov⟩ := (agree_iff_of_range hconds hrange').mp ⟨fuel, r, r', hr, hr', hsame⟩
      exact ⟨_, _, ⟨hrange', hends⟩, hcov⟩
    · rintro ⟨lo, hi, ⟨hrange, hends⟩, hcov⟩
      exact (agree_iff_of_range hconds hrange).mpr ⟨hends, hcov⟩
  refine ⟨hiff, fun htypes => hiff.trans ?_⟩
  exact exists_congr fun lo => exists_congr fun hi =>
    ⟨fun h => h.1, fun h => ⟨h, htypes.covers hconds h.1⟩⟩

/-! ### Two small tables -/

/-- The column of the examples. -/
def colA : ColMeta := { name := "a", type := .int, len := 4, offset := 0 }

/-- The condition `a = n`. -/
def aEquals (n : Nat) : Condition where
  lhsCol := ⟨"t", "a"⟩
  op := .eq
  isRhsVal := true
  rhsCol := ⟨"", ""⟩
  rhsVal := { type := .int, bits := n, datetimeVal := [], strVal := [] }

/-- A key of the sample index. -/
theorem length_keyA (n : Nat) : (leBytes n 4).length = colTotLen (IndexScan.ixCols [colA]) := rfl

/-- An INT is no NaN. -/
theorem noNaN_keyA (n : Nat) : NoNaN (IndexScan.ixCols [colA]) (leBytes n 4) := by
  refine ⟨fun h => ?_, trivial⟩
  cases h

/-- A key of the index on `a`. -/
def keyA (n : Nat) : IxKey (IndexScan.ixCols [colA]) := ⟨leBytes n 4, length_keyA n, noNaN_keyA n⟩

/-- The first page of a file of 4-byte records with one record, the number 5. -/
def pageFive : PageData := fun i => if i.val = 12 then 0x80 else if i.val = 136 then 5 else 0

/-- The index on `a` with one entry. -/
def handleFive : IxIndexHandle (IxKey (IndexScan.ixCols [colA])) :=
  (IxIndexHandle.create 338).insertInto 2 (keyA 5) ⟨1, 0⟩

/-- The pairs of its leaf. -/
theorem contents_handleFive : handleFive.contents [2] = [(keyA 5, ⟨1, 0⟩)] := rfl

/-- There is only one. -/
theorem entry_handleFive {x : IxKey (IndexScan.ixCols [colA]) × Rid}
    (hx : x ∈ handleFive.contents [2]) : x = (keyA 5, ⟨1, 0⟩) := by
  rw [contents_handleFive] at hx
  exact List.mem_singleton.mp hx

/-- The page has one record. -/
theorem pageFive_bits : ∀ j < (RmFileHdr.create 4).numRecordsPerPage,
    Bitmap.isSet pageFive j = true → j = 0 := by decide +kernel

/-- The header of the file. -/
def hdrFive : RmFileHdr := { RmFileHdr.create 4 with numPages := 2 }

/-- The only record of the file. -/
theorem contents_five {rid : Rid} {rec : List UInt8}
    (h : contents hdrFive (fun _ => pageFive) rid = some rec) : rid = ⟨1, 0⟩ ∧ rec = [5, 0, 0, 0] := by
  unfold contents at h
  split at h
  swap
  · cases h
  rename_i hr
  obtain ⟨h1, h2, h3, h4, h5⟩ := hr
  have hlt : rid.slotNo.toNat < (RmFileHdr.create 4).numRecordsPerPage := by
    have h4' : rid.slotNo < ((RmFileHdr.create 4).numRecordsPerPage : Int) := h4
    omega
  have hslot := pageFive_bits rid.slotNo.toNat hlt h5
  have hpage : rid.pageNo < 2 := h2
  obtain ⟨pageNo, slotNo⟩ := rid
  dsimp only at h1 hpage h3 hslot h
  obtain rfl : pageNo = 1 := by omega
  obtain rfl : slotNo = 0 := by omega
  cases h
  exact ⟨rfl, by decide +kernel⟩

/-- This record. -/
theorem contents_five_eq : contents hdrFive (fun _ => pageFive) ⟨1, 0⟩ = some [5, 0, 0, 0] := by
  decide +kernel

/-- The leaf is a tree. -/
theorem tree_handleFive : handleFive.Tree [2] [] where
  upper := {
    shape := .root rfl rfl
    seps := fun _ hl => absurd hl List.not_mem_nil
    filled := trivial
    nodup := List.nodup_singleton _
    range := fun p hp => by
      rw [List.flatten_nil, List.append_nil, List.mem_singleton] at hp
      subst hp
      exact ⟨Int.le_refl _, show (2 : Int) < 3 by decide⟩ }
  isLeaf p hp := by
    rw [List.mem_singleton] at hp
    subst hp
    rfl
  filled p hp := by
    rw [List.mem_singleton] at hp
    subst hp
    exact ⟨show 1 < 339 by decide, fun h => absurd rfl h⟩
  sorted := by
    rw [contents_handleFive]
    exact List.pairwise_singleton _ _
  chain := ⟨List.IsChain.singleton _, rfl, rfl⟩
  order := show 3 ≤ 338 by decide

/-- The columns of both tables. -/
theorem declared_colA : ∀ c ∈ [colA], c.Declared := by
  intro c hc
  rw [List.mem_singleton] at hc
  subst hc
  rfl

/-- The column of the index. -/
theorem indexed_colA : ∀ c ∈ [colA], findCol "t" [colA] ⟨"t", c.name⟩ = .ok c := by
  intro c hc
  rw [List.mem_singleton] at hc
  subst hc
  rfl

/-- A table with the one row 5. -/
def tableFive : IndexedTable where
  tab := "t"
  cols := [colA]
  hdr := hdrFive
  pages _ := pageFive
  index := IndexMeta.create [colA]
  handle := handleFive
  leaves := [2]
  levels := []
  declared := declared_colA
  indexed := indexed_colA
  one_le := by decide
  tree := tree_handleFive
  record_of_entry x hx := by
    obtain rfl := entry_handleFive hx
    exact ⟨_, contents_five_eq, rfl⟩
  entry_of_record rid rec h := by
    obtain ⟨rfl, rfl⟩ := contents_five h
    exact ⟨keyA 5, List.mem_singleton_self _, rfl⟩

/-- A table without rows. -/
def tableEmpty : IndexedTable where
  tab := "t"
  cols := [colA]
  hdr := RmFileHdr.create 4
  pages _ := PageData.zero
  index := IndexMeta.create [colA]
  handle := IxIndexHandle.create 338
  leaves := [2]
  levels := []
  declared := declared_colA
  indexed := indexed_colA
  one_le := by decide
  tree := IxIndexHandle.tree_create (by decide)
  record_of_entry x hx := absurd hx List.not_mem_nil
  entry_of_record rid rec h := by
    unfold contents at h
    split at h
    · rename_i hr
      have hlt : rid.pageNo < 1 := hr.2.1
      omega
    · cases h

/-- Both ends of the range are the key 5. -/
theorem keyRange_aEquals : IndexScan.keyRange [aEquals 5] [colA] false =
    .ok ((keyA 5).bytes, (keyA 5).bytes) := by rfl

/-- The theorem on the table with one row and the condition `a = 5`. -/
theorem indexScan_agrees_one_row :
    tableFive.ScansAgree tableFive.index tableFive.rawHandle [aEquals 5] := by
  have hconds : ∀ c ∈ [aEquals 5], Analyze.checkClause tableFive.tab tableFive.cols c = .ok () := by
    intro c hc
    rw [List.mem_singleton] at hc
    subst hc
    rfl
  have hnan : tableFive.RangeWithoutNaN [aEquals 5] := by
    intro r hr
    cases keyRange_aEquals.symm.trans hr
    exact ⟨(keyA 5).noNaN, (keyA 5).noNaN⟩
  refine (indexScan_agrees_iff tableFive [aEquals 5] hconds hnan).1.mpr
    ⟨keyA 5, keyA 5, ⟨keyRange_aEquals, ?_⟩, ?_⟩
  · refine ⟨List.cons_ne_nil _ _, ?_, Or.inl ⟨[2], List.prefix_rfl, rfl⟩⟩
    rintro ⟨A, B, hAB, hA, hB, -⟩
    have hlen := congrArg List.length hAB
    rw [List.length_append] at hlen
    have h1 := List.length_pos_of_ne_nil hA
    have h2 := List.length_pos_of_ne_nil hB
    have h3 : tableFive.leaves.length = 1 := rfl
    omega
  · intro k rid rec hk _ _
    cases entry_handleFive hk
    exact ⟨rfl, Or.inl ⟨[2], List.prefix_rfl, rfl⟩⟩

/-- **An index scan of an empty table throws.** The planner takes the index for `a = 5`, the sequential
    scan finds nothing, and the index scan ends with `IndexEntryNotFoundError`. -/
theorem indexScan_empty_table :
    Planner.getIndexCols [tableEmpty.index] "t" [aEquals 5] = ["a"] ∧
      tableEmpty.seqScan [aEquals 5] 1 = .ok [] ∧
      (∀ fuel, tableEmpty.indexScan tableEmpty.index tableEmpty.rawHandle [aEquals 5] (fuel + 1) =
        .error (.index (.rmdbError "Index entry not found"))) ∧
      ¬ tableEmpty.ScansAgree tableEmpty.index tableEmpty.rawHandle [aEquals 5] := by
  have hthrow : ∀ fuel, tableEmpty.indexScan tableEmpty.index tableEmpty.rawHandle [aEquals 5]
      (fuel + 1) = .error (.index (.rmdbError "Index entry not found")) := fun fuel => rfl
  refine ⟨by decide, rfl, hthrow, ?_⟩
  rintro ⟨fuel, r, r', hr, -⟩
  cases fuel with
  | zero => cases hr
  | succ fuel =>
    rw [hthrow] at hr
    cases hr

end IndexedTable

end Rmdb
