import Rmdb.Lib.Bytes
import Rmdb.System.CatalogText

namespace Rmdb

open Lib DiskManager SmMeta

/-!
# The file header of an index (`index/ix_defs.h`, `index/ix_manager.h`)

`create_index` writes a header of 40 bytes and 8 more for each column to the start of the file, and then the
first two pages behind page 0.  The constructor of `IxIndexHandle` reads page 0 into a buffer of one page
and takes the header from it.

* `IxFileHdr.serialize`, `deserialize` — the header as bytes;
* `IxManager.createIndex`, `openIndex`, `closeIndex` — the operations on the disk;
* `createIndex_header_iff` — the header comes back just if there are at most 507 columns.
-/

/-! ### Integers in a row -/

/-- Byte `i` of these 32-bit integers, one after the other. -/
def intsBytes (l : List Int) (i : Nat) : UInt8 := int32Bytes (l.getD (i / 4) 0) (i % 4)

/-- Reading one of them. -/
theorem int32At_intsBytes {l : List Int} {m : Nat → UInt8} (hm : ∀ i < 4 * l.length, m i = intsBytes l i)
    {k : Nat} {v : Int} (hv : l[k]? = some v) (hrange : Int32Range v) : int32At m (4 * k) = v := by
  have hk : k < l.length := (List.getElem?_eq_some_iff.mp hv).1
  refine int32At_eq hrange fun j hj => ?_
  have hdiv : (4 * k + j) / 4 = k := by omega
  have hmod : (4 * k + j) % 4 = j := by omega
  rw [hm _ (by omega), intsBytes, hdiv, hmod, List.getD_eq_getElem?_getD, hv, Option.getD_some]

/-! ### The header -/

/-- `class IxFileHdr`.  A column type is the value of the enumeration. -/
structure IxFileHdr where
  firstFreePageNo : Int
  numPages : Int
  rootPage : Int
  colNum : Int
  colTypes : List Int
  colLens : List Int
  colTotLen : Int
  btreeOrder : Int
  keysSize : Int
  firstLeaf : Int
  lastLeaf : Int
  totLen : Int
  deriving DecidableEq, Repr

namespace IxFileHdr

/-- `update_tot_len`. -/
def updateTotLen (h : IxFileHdr) : IxFileHdr := { h with totLen := Catalog.wrap (40 + 8 * h.colNum) }

/-- The integers that `serialize` writes. -/
def fields (h : IxFileHdr) : List Int :=
  [h.totLen, h.firstFreePageNo, h.numPages, h.rootPage, h.colNum] ++ (h.colTypes.take h.colNum.toNat ++
    (h.colLens.take h.colNum.toNat ++ [h.colTotLen, h.btreeOrder, h.keysSize, h.firstLeaf, h.lastLeaf]))

/-- `serialize` into a buffer of `tot_len_` bytes, with its assertion. -/
def serialize (h : IxFileHdr) : Option (Nat → UInt8) :=
  if (4 * h.fields.length : Int) = h.totLen then some (intsBytes h.fields) else none

/-- `deserialize`, with its assertion. -/
def deserialize (m : Nat → UInt8) : Option IxFileHdr :=
  let colNum := int32At m (4 * 4)
  let n := colNum.toNat
  let h : IxFileHdr :=
    { totLen := int32At m (4 * 0)
      firstFreePageNo := int32At m (4 * 1)
      numPages := int32At m (4 * 2)
      rootPage := int32At m (4 * 3)
      colNum := colNum
      colTypes := (List.range n).map fun i => int32At m (4 * (5 + i))
      colLens := (List.range n).map fun i => int32At m (4 * (5 + n + i))
      colTotLen := int32At m (4 * (5 + 2 * n))
      btreeOrder := int32At m (4 * (6 + 2 * n))
      keysSize := int32At m (4 * (7 + 2 * n))
      firstLeaf := int32At m (4 * (8 + 2 * n))
      lastLeaf := int32At m (4 * (9 + 2 * n)) }
  if (4 * (10 + 2 * n) : Int) = h.totLen then some h else none

/-- A header with `n` column types and lengths whose fields are of type `int`. -/
structure Sized (h : IxFileHdr) (n : Nat) : Prop where
  colNum : h.colNum.toNat = n
  colTypes : h.colTypes.length = n
  colLens : h.colLens.length = n
  totLen : h.totLen = 40 + 8 * n
  range : ∀ v ∈ h.fields, Int32Range v

variable {h : IxFileHdr} {n : Nat} {m : Nat → UInt8}

/-- The fields of a header in the order in which they are written. -/
theorem Sized.fields_eq (hs : h.Sized n) : h.fields =
    [h.totLen, h.firstFreePageNo, h.numPages, h.rootPage, h.colNum] ++ (h.colTypes ++ (h.colLens ++
      [h.colTotLen, h.btreeOrder, h.keysSize, h.firstLeaf, h.lastLeaf])) := by
  unfold fields
  rw [hs.colNum, List.take_of_length_le (Nat.le_of_eq hs.colTypes), List.take_of_length_le (Nat.le_of_eq hs.colLens)]

/-- Ten fields and two for each column. -/
theorem Sized.length_fields (hs : h.Sized n) : h.fields.length = 10 + 2 * n := by
  rw [hs.fields_eq]
  simp only [List.length_append, List.length_cons, List.length_nil, hs.colTypes, hs.colLens]
  omega

/-- The header is written as these fields. -/
theorem Sized.serialize_eq (hs : h.Sized n) : h.serialize = some (intsBytes h.fields) := by
  unfold serialize
  rw [if_pos]
  rw [hs.length_fields, hs.totLen]
  omega

/-- Where the type of a column is. -/
theorem Sized.fields_type (hs : h.Sized n) {i : Nat} (hi : i < n) : h.fields[5 + i]? = h.colTypes[i]? := by
  rw [hs.fields_eq, List.getElem?_append_right (by simp), List.getElem?_append_left (by simp [hs.colTypes, hi])]
  simp

/-- Where the length of a column is. -/
theorem Sized.fields_len (hs : h.Sized n) {i : Nat} (hi : i < n) :
    h.fields[5 + n + i]? = h.colLens[i]? := by
  have hpos : 5 + n + i - 5 - n = i := by omega
  rw [hs.fields_eq, List.getElem?_append_right (by simp; omega),
    List.getElem?_append_right (by simp [hs.colTypes]; omega),
    List.getElem?_append_left (by simp [hs.colTypes, hs.colLens]; omega)]
  simp only [List.length_cons, List.length_nil, hs.colTypes, Nat.zero_add, Nat.reduceAdd, hpos]

/-- Where the last five fields are. -/
theorem Sized.fields_tail (hs : h.Sized n) (i : Nat) : h.fields[5 + 2 * n + i]? =
    [h.colTotLen, h.btreeOrder, h.keysSize, h.firstLeaf, h.lastLeaf][i]? := by
  have hpos : 5 + 2 * n + i - 5 - n - n = i := by omega
  rw [hs.fields_eq, List.getElem?_append_right (by simp; omega),
    List.getElem?_append_right (by simp [hs.colTypes]; omega),
    List.getElem?_append_right (by simp [hs.colTypes, hs.colLens]; omega)]
  simp only [List.length_cons, List.length_nil, hs.colTypes, hs.colLens, Nat.zero_add, Nat.reduceAdd, hpos]

/-- **Round trip.** A header is read from the bytes it was written to, wherever they lie. -/
theorem Sized.deserialize_eq (hs : h.Sized n) (hm : ∀ i < 40 + 8 * n, m i = intsBytes h.fields i) :
    deserialize m = some h := by
  have hlen := hs.length_fields
  have hread : ∀ {k : Nat} {v : Int}, h.fields[k]? = some v → int32At m (4 * k) = v := fun {k v} hv =>
    int32At_intsBytes (fun i hi => hm i (by omega)) hv (hs.range v (List.mem_of_getElem? hv))
  have hhead : ∀ k v, [h.totLen, h.firstFreePageNo, h.numPages, h.rootPage, h.colNum][k]? = some v →
      int32At m (4 * k) = v := fun k v hv => hread <| by
    rw [hs.fields_eq, List.getElem?_append_left (List.getElem?_eq_some_iff.mp hv).1]
    exact hv
  have htail : ∀ i v k, k = 5 + 2 * n + i →
      [h.colTotLen, h.btreeOrder, h.keysSize, h.firstLeaf, h.lastLeaf][i]? = some v →
      int32At m (4 * k) = v := fun i v k hk hv => hread (by rw [hk, hs.fields_tail i, hv])
  have htypes : ((List.range n).map fun i => int32At m (4 * (5 + i))) = h.colTypes := by
    refine List.ext_getElem (by simp [hs.colTypes]) fun i hi hi' => ?_
    rw [List.getElem_map, List.getElem_range]
    exact hread ((hs.fields_type (by simpa using hi)).trans (List.getElem?_eq_getElem hi'))
  have hlens : ((List.range n).map fun i => int32At m (4 * (5 + n + i))) = h.colLens := by
    refine List.ext_getElem (by simp [hs.colLens]) fun i hi hi' => ?_
    rw [List.getElem_map, List.getElem_range]
    exact hread ((hs.fields_len (by simpa using hi)).trans (List.getElem?_eq_getElem hi'))
  have htotLen : (4 * (10 + 2 * n) : Int) = h.totLen := by
    rw [hs.totLen]
    omega
  unfold deserialize
  simp only [hhead 4 _ rfl, hs.colNum, htypes, hlens, hhead 0 _ rfl, hhead 1 _ rfl, hhead 2 _ rfl,
    hhead 3 _ rfl]
  rw [if_pos htotLen, htail 0 _ (5 + 2 * n) (by omega) rfl, htail 1 _ (6 + 2 * n) (by omega) rfl,
    htail 2 _ (7 + 2 * n) (by omega) rfl, htail 3 _ (8 + 2 * n) (by omega) rfl,
    htail 4 _ (9 + 2 * n) (by omega) rfl]

/-- Where the last field is read. -/
theorem lastLeaf_of_deserialize (hd : deserialize m = some h) :
    h.lastLeaf = int32At m (4 * (9 + 2 * h.colNum.toNat)) := by
  unfold deserialize at hd
  obtain ⟨_, heq⟩ := Option.ite_none_right_eq_some.mp hd
  rw [← Option.some.inj heq]

end IxFileHdr

/-! ### The manager -/

/-- What the index manager can throw.  `aborted`: an assertion, or a division by zero. -/
inductive IxManagerError where
  | disk (e : DiskError)
  | invalidColLengthError (len : Int)
  | aborted
  deriving DecidableEq, Repr

/-- The programs of the index manager. -/
abbrev IxM := ExceptT IxManagerError (StateM DiskManager)

namespace IxM

variable {α β : Type} {d d' : DiskManager}

/-- Call an operation of the disk manager. -/
def onDisk (op : DiskManager → Except DiskError α × DiskManager) : IxM α := fun d =>
  ((op d).1.mapError .disk, (op d).2)

/-- What the program cannot go on without. -/
def orAbort (o : Option α) : IxM α :=
  match o with
  | some a => pure a
  | none => throw .aborted

/-- A step that succeeds hands its disk on. -/
theorem bind_ok {m : IxM α} {k : α → IxM β} {a : α} (h : m d = (.ok a, d')) : (m >>= k) d = k a d' := by
  show ExceptT.bindCont k (m d).1 (m d).2 = k a d'
  rw [h]
  rfl

/-- A program that comes to its end has come to the end of its first part. -/
theorem bind_eq_ok {m : IxM α} {k : α → IxM β} {b : β} (h : (m >>= k) d = (.ok b, d')) :
    ∃ a d₁, m d = (.ok a, d₁) ∧ k a d₁ = (.ok b, d') := by
  rcases hm : m d with ⟨e | a, d₁⟩
  · have herror : (m >>= k) d = (.error e, d₁) := by
      show ExceptT.bindCont k (m d).1 (m d).2 = _
      rw [hm]
      rfl
    rw [herror] at h
    cases h
  · exact ⟨a, d₁, rfl, (bind_ok hm).symm.trans h⟩

/-- A call of the disk manager. -/
theorem onDisk_eq_ok {op : DiskManager → Except DiskError α × DiskManager} {a : α} :
    onDisk op d = (.ok a, d') ↔ op d = (.ok a, d') := by
  unfold onDisk
  rcases op d with ⟨e | b, d₁⟩
  · refine ⟨fun h => ?_, fun h => ?_⟩
    · cases (Prod.mk.inj h).1
    · cases (Prod.mk.inj h).1
  · refine ⟨fun h => ?_, fun h => ?_⟩
    · obtain ⟨hb, hd⟩ := Prod.mk.inj h
      exact Prod.ext (congrArg Except.ok (Except.ok.inj hb)) hd
    · obtain ⟨hb, hd⟩ := Prod.mk.inj h
      exact Prod.ext (congrArg Except.ok (Except.ok.inj hb)) hd

/-- A result that must be there. -/
theorem orAbort_eq_ok {o : Option α} {a : α} : orAbort o d = (.ok a, d') ↔ o = some a ∧ d = d' := by
  cases o with
  | none =>
    refine ⟨fun h => ?_, fun h => ?_⟩
    · cases h
    · cases h.1
  | some b =>
    constructor
    · intro h
      obtain ⟨hb, hd⟩ := Prod.mk.inj h
      exact ⟨congrArg some (Except.ok.inj hb), hd⟩
    · rintro ⟨hb, rfl⟩
      rw [Option.some.inj hb]
      rfl

/-- A program goes on behind a check just if the check finds nothing. -/
theorem check_eq_ok {c : Prop} [Decidable c] {e : IxManagerError} {k : Unit → IxM β} {b : β} :
    (if c then throw e >>= k else k ()) d = (.ok b, d') ↔ ¬ c ∧ k () d = (.ok b, d') := by
  by_cases hc : c
  · rw [if_pos hc]
    refine ⟨fun h => ?_, fun h => absurd hc h.1⟩
    cases (Prod.mk.inj h).1
  · rw [if_neg hc]
    exact ⟨fun h => ⟨hc, h⟩, fun h => h.2⟩

end IxM

namespace IxManager

open IxM

/-- `IX_MAX_COL_LEN`. -/
def ixMaxColLen : Int := 512

/-- An `IxPageHdr` in a page of zeros: a leaf without keys between the leaves `n` and `n`. -/
def leafPage (n : Int) : Nat → UInt8 := intsBytes [-1, -1, 0, 1, n, n]

/-- `(int)((PAGE_SIZE - sizeof(IxPageHdr)) / (col_tot_len + sizeof(Rid)) - 1)`, of type `size_t` before the
    cast. -/
def btreeOrder (colTotLen : Int) : Option Int :=
  let divisor := (colTotLen + 8) % 2 ^ 64
  if divisor = 0 then none else some (4072 / divisor - 1)

/-- The header that `create_index` fills in. -/
def newHdr (cols : List Catalog.Col) (btreeOrder : Int) : IxFileHdr :=
  let colTotLen := Catalog.wrap (Catalog.totLen cols)
  let colNum := Catalog.wrap cols.length
  IxFileHdr.updateTotLen
    { firstFreePageNo := -1
      numPages := 3
      rootPage := 2
      colNum := colNum
      colTypes := (cols.take colNum.toNat).map fun c => typeCode c.type
      colLens := (cols.take colNum.toNat).map fun c => c.len
      colTotLen := colTotLen
      btreeOrder := btreeOrder
      keysSize := Catalog.wrap ((btreeOrder + 1) * colTotLen)
      firstLeaf := 2
      lastLeaf := 2
      totLen := 0 }

/-- The name of the index file. -/
def indexName (tab : String) (cols : List Catalog.Col) : String := getIndexName tab (cols.map fun c => c.name)

/-- `IxManager::create_index`. -/
def createIndex (tab : String) (cols : List Catalog.Col) : IxM Unit := do
  let name := indexName tab cols
  onDisk (·.createFile name)
  let fd ← onDisk (·.openFile name)
  let colTotLen := Catalog.wrap (Catalog.totLen cols)
  if ixMaxColLen < colTotLen then throw (.invalidColLengthError colTotLen)
  let order ← orAbort (btreeOrder colTotLen)
  if ¬ 2 < order then throw .aborted
  let hdr := newHdr cols order
  let data ← orAbort hdr.serialize
  onDisk (·.writePage fd 0 hdr.totLen.toNat data)
  onDisk (·.writePage fd 1 pageSize (leafPage 2))
  onDisk (·.writePage fd 2 pageSize (leafPage 1))
  onDisk fun d => (.ok (), d.setFd2pageno fd 2)
  onDisk (·.closeFile fd)

/-- `IxManager::open_index`, with the constructor of `IxIndexHandle`: the descriptor and the header.  The
    buffer has the size of a page; behind it is the heap. -/
def openIndex (heap : Nat → UInt8) (tab : String) (cols : List Catalog.Col) : IxM (Int × IxFileHdr) := do
  let fd ← onDisk (·.openFile (indexName tab cols))
  -- into the pointer `file_hdr_`, which is assigned next
  let _ ← onDisk fun d => ((d.readPage fd 0 8 fun _ => 0).1, d)
  let buf ← onDisk fun d =>
    let r := d.readPage fd 0 pageSize fun _ => 0
    (r.1.map fun _ => r.2, d)
  let hdr ← orAbort (IxFileHdr.deserialize fun i => if i < pageSize then buf i else heap i)
  onDisk fun d => (.ok (), d.setFd2pageno fd hdr.numPages)
  return (fd, hdr)

/-- The loop of `flush_all_pages` over the pages of the file in the pool. -/
def flushPages (fd : Int) : List (Int × PageData) → IxM Unit
  | [] => return ()
  | (n, x) :: pages => do
    onDisk (·.writePage fd n pageSize x.get)
    flushPages fd pages

/-- `IxManager::close_index`. -/
def closeIndex (fd : Int) (hdr : IxFileHdr) (pages : List (Int × PageData)) : IxM Unit := do
  let data ← orAbort hdr.serialize
  onDisk (·.writePage fd 0 hdr.totLen.toNat data)
  flushPages fd pages
  onDisk (·.closeFile fd)

/-! ### Files -/

/-- The file is open under `fd`. -/
structure OpenAt (d : DiskManager) (fd : Int) (name : String) (file : FileData) : Prop where
  lookup : d.descriptors.lookup fd = some name
  file : d.files name = some file
  fd2path : d.fd2path fd = some name

/-- The file is closed. -/
structure ClosedFile (d : DiskManager) (name : String) (file : FileData) : Prop where
  path2fd : d.path2fd name = none
  file : d.files name = some file

variable {d d' : DiskManager} {fd : Int} {name tab : String} {file : FileData} {cols : List Catalog.Col}

/-- A file that exists and is closed can be opened. -/
theorem ClosedFile.openFile (h : ClosedFile d name file) :
    ∃ fd d', onDisk (·.openFile name) d = (.ok fd, d') ∧ OpenAt d' fd name file := by
  obtain ⟨fd, hfd⟩ := Database.lowestFree_isSome d.descriptors
  have hopen : d.openFile name = (.ok fd, { d with
      descriptors := (fd, name) :: d.descriptors
      path2fd := Function.update d.path2fd name (some fd)
      fd2path := Function.update d.fd2path fd (some name) }) := by
    simp only [DiskManager.openFile, h.path2fd, h.file, hfd]
  exact ⟨fd, _, onDisk_eq_ok.mpr hopen, List.lookup_cons_self, h.file, Function.update_self _ _ _⟩

/-- A page of an open file can be written. -/
theorem OpenAt.writePage (h : OpenAt d fd name file) {k : Int} (h0 : 0 ≤ k) (h1 : k < maxPages) (n : Nat)
    (data : Nat → UInt8) : ∃ d', onDisk (·.writePage fd k n data) d = (.ok (), d') ∧
      OpenAt d' fd name (file.write (k * pageSize).toNat n data) :=
  ⟨_, onDisk_eq_ok.mpr (writePage_eq h.lookup h.file h0 h1 n data), h.lookup, Function.update_self _ _ _,
    h.fd2path⟩

/-- An open file can be closed. -/
theorem OpenAt.closeFile (h : OpenAt d fd name file) :
    ∃ d', onDisk (·.closeFile fd) d = (.ok (), d') ∧ ClosedFile d' name file := by
  have hclose : d.closeFile fd = (.ok (), (d.closeFile fd).2) := by
    simp only [DiskManager.closeFile, h.fd2path]
  refine ⟨_, onDisk_eq_ok.mpr hclose, ?_, ?_⟩
  · simp only [DiskManager.closeFile, h.fd2path]
    exact Function.update_self _ _ _
  · simp only [DiskManager.closeFile, h.fd2path]
    exact h.file

/-- The first bytes of the file are those of the header. -/
def HdrAt (file : FileData) (hdr : IxFileHdr) (n : Nat) : Prop :=
  pageSize ≤ file.size ∧ ∀ i < 40 + 8 * n, file.byte i = intsBytes hdr.fields i

/-- Opening a file gives whatever is in the first page, and behind it in the heap. -/
theorem ClosedFile.openIndex_eq (h : ClosedFile d (indexName tab cols) file) (hsize : pageSize ≤ file.size)
    (heap : Nat → UInt8) : ∃ fd d₁, openIndex heap tab cols d =
      (do
        let hdr ← orAbort (IxFileHdr.deserialize fun i => if i < pageSize then file.byte i else heap i)
        onDisk fun d => (.ok (), d.setFd2pageno fd hdr.numPages)
        return (fd, hdr)) d₁ := by
  obtain ⟨fd, d₁, hopen, hat⟩ := h.openFile
  have hread : ∀ n ≤ pageSize, d₁.readPage fd 0 n (fun _ => 0) =
      (.ok (), fun i => if i < n then file.byte i else 0) := fun n hn => by
    have heq := readPage_eq hat.lookup hat.file (Int.le_refl 0) (by decide) n (by simpa using Nat.le_trans hn hsize)
      fun _ => 0
    simpa using heq
  have hptr : onDisk (fun d => ((d.readPage fd 0 8 fun _ => 0).1, d)) d₁ = (.ok (), d₁) := by
    rw [onDisk_eq_ok, hread 8 (by decide)]
  have hbuf : onDisk (fun d =>
      let r := d.readPage fd 0 pageSize fun _ => 0
      (r.1.map fun _ => r.2, d)) d₁ = (.ok fun i => if i < pageSize then file.byte i else 0, d₁) := by
    rw [onDisk_eq_ok]
    dsimp only
    rw [hread pageSize (Nat.le_refl _)]
    rfl
  have hmem : (fun i => if i < pageSize then (if i < pageSize then file.byte i else 0) else heap i) =
      fun i => if i < pageSize then file.byte i else heap i := by
    funext i
    by_cases hi : i < pageSize
    · rw [if_pos hi, if_pos hi, if_pos hi]
    · rw [if_neg hi, if_neg hi]
  refine ⟨fd, d₁, ?_⟩
  unfold IxManager.openIndex
  rw [bind_ok hopen, bind_ok hptr, bind_ok hbuf, hmem]

/-- **Opening an index** whose header ends inside the page. -/
theorem ClosedFile.openIndex {hdr : IxFileHdr} {n : Nat} (h : ClosedFile d (indexName tab cols) file)
    (hs : hdr.Sized n) (hhdr : HdrAt file hdr n) (hn : n ≤ 507) (heap : Nat → UInt8) :
    ∃ fd d', openIndex heap tab cols d = (.ok (fd, hdr), d') := by
  obtain ⟨hsize, hbytes⟩ := hhdr
  obtain ⟨fd, d₁, heq⟩ := h.openIndex_eq hsize heap
  have hread : IxFileHdr.deserialize (fun i => if i < pageSize then file.byte i else heap i) = some hdr := by
    refine hs.deserialize_eq fun i hi => ?_
    have hpage : i < pageSize := by
      simp only [pageSize]
      omega
    rw [if_pos hpage]
    exact hbytes i hi
  refine ⟨fd, d₁.setFd2pageno fd hdr.numPages, heq.trans ?_⟩
  rw [bind_ok (orAbort_eq_ok.mpr ⟨hread, rfl⟩)]
  rfl

/-- Pages behind the header leave it alone. -/
theorem OpenAt.flushPages {hdr : IxFileHdr} {n : Nat} (h : OpenAt d fd name file) (hhdr : HdrAt file hdr n)
    (hn : n ≤ 507) {pages : List (Int × PageData)} (hpages : ∀ e ∈ pages, 1 ≤ e.1 ∧ e.1 < maxPages) :
    ∃ d' file', flushPages fd pages d = (.ok (), d') ∧ OpenAt d' fd name file' ∧ HdrAt file' hdr n := by
  induction pages generalizing d file with
  | nil => exact ⟨d, file, rfl, h, hhdr⟩
  | cons e pages ih =>
    obtain ⟨k, x⟩ := e
    obtain ⟨h1, h2⟩ := hpages _ List.mem_cons_self
    obtain ⟨hsize, hbytes⟩ := hhdr
    obtain ⟨d₁, hwrite, hopen⟩ := h.writePage (by omega : 0 ≤ k) h2 pageSize x.get
    have hhdr₁ : HdrAt (file.write (k * pageSize).toNat pageSize x.get) hdr n := by
      simp only [pageSize] at *
      refine ⟨Nat.le_trans hsize (FileData.size_le_write _ _ _ _).1, fun i hi => ?_⟩
      rw [FileData.byte_write_outside _ _ _ _ (by omega) (Or.inl (by omega))]
      exact hbytes i hi
    obtain ⟨d', file', hrest, hopen', hhdr'⟩ := ih hopen hhdr₁ fun e he => hpages e (List.mem_cons_of_mem _ he)
    refine ⟨d', file', ?_, hopen', hhdr'⟩
    rw [IxManager.flushPages, bind_ok hwrite]
    exact hrest

/-- **Closing an index** with another header of the same size. -/
theorem OpenAt.closeIndex {hdr : IxFileHdr} {n : Nat} (h : OpenAt d fd name file) (hs : hdr.Sized n)
    (hsize : pageSize ≤ file.size) (hn : n ≤ 507) {pages : List (Int × PageData)}
    (hpages : ∀ e ∈ pages, 1 ≤ e.1 ∧ e.1 < maxPages) :
    ∃ d' file', closeIndex fd hdr pages d = (.ok (), d') ∧ ClosedFile d' name file' ∧ HdrAt file' hdr n := by
  have htot : hdr.totLen.toNat = 40 + 8 * n := by
    rw [hs.totLen]
    omega
  obtain ⟨d₁, hwrite, hopen⟩ := h.writePage (Int.le_refl 0) (by decide) hdr.totLen.toNat
    (intsBytes hdr.fields)
  have hhdr : HdrAt (file.write ((0 : Int) * pageSize).toNat hdr.totLen.toNat (intsBytes hdr.fields)) hdr n := by
    refine ⟨Nat.le_trans hsize (FileData.size_le_write _ _ _ _).1, fun i hi => ?_⟩
    have hlt : i < hdr.totLen.toNat := by omega
    have hin := FileData.byte_write_inside file ((0 : Int) * pageSize).toNat _ (intsBytes hdr.fields) hlt
    simpa using hin
  obtain ⟨d₂, file', hflush, hopen', hhdr'⟩ := hopen.flushPages hhdr hn hpages
  obtain ⟨d₃, hclose, hclosed⟩ := hopen'.closeFile
  refine ⟨d₃, file', ?_, hclosed, hhdr'⟩
  unfold IxManager.closeIndex
  rw [bind_ok (orAbort_eq_ok.mpr ⟨hs.serialize_eq, rfl⟩), bind_ok hwrite, bind_ok hflush]
  exact hclose

/-! ### A new index -/

/-- The file that `create_index` writes. -/
def newFile (hdr : IxFileHdr) : FileData :=
  (((⟨0, fun _ => 0⟩ : FileData).write 0 hdr.totLen.toNat (intsBytes hdr.fields)).write pageSize pageSize
    (leafPage 2)).write (2 * pageSize) pageSize (leafPage 1)

/-- A new file is open and empty. -/
theorem openAt_create {d₁ d₂ : DiskManager} (hcreate : d.createFile name = (.ok (), d₁))
    (hopen : d₁.openFile name = (.ok fd, d₂)) : OpenAt d₂ fd name ⟨0, fun _ => 0⟩ := by
  unfold DiskManager.createFile at hcreate
  split at hcreate
  · cases hcreate
  · cases hcreate
    unfold DiskManager.openFile at hopen
    split at hopen
    · cases hopen
    · split at hopen
      · cases hopen
      · split at hopen
        · cases hopen
        · cases hopen
          exact ⟨List.lookup_cons_self, Function.update_self _ _ _, Function.update_self _ _ _⟩

/-- **What `create_index` leaves.** -/
theorem createIndex_spec (hc : createIndex tab cols d = (.ok (), d')) :
    ∃ order, btreeOrder (Catalog.wrap (Catalog.totLen cols)) = some order ∧ 2 < order ∧
      (newHdr cols order).serialize = some (intsBytes (newHdr cols order).fields) ∧
      ClosedFile d' (indexName tab cols) (newFile (newHdr cols order)) := by
  unfold createIndex at hc
  obtain ⟨_, d₁, hcreate, hc⟩ := bind_eq_ok hc
  obtain ⟨fd, d₂, hopen, hc⟩ := bind_eq_ok hc
  have hat := openAt_create (onDisk_eq_ok.mp hcreate) (onDisk_eq_ok.mp hopen)
  obtain ⟨-, hc⟩ := check_eq_ok.mp hc
  obtain ⟨order, _, ho, hc⟩ := bind_eq_ok hc
  obtain ⟨horder, rfl⟩ := orAbort_eq_ok.mp ho
  obtain ⟨hgt, hc⟩ := check_eq_ok.mp hc
  obtain ⟨data, _, hd, hc⟩ := bind_eq_ok hc
  obtain ⟨hdata, rfl⟩ := orAbort_eq_ok.mp hd
  have hbytes : data = intsBytes (newHdr cols order).fields := by
    unfold IxFileHdr.serialize at hdata
    exact (Option.some.inj (Option.ite_none_right_eq_some.mp hdata).2).symm
  subst hbytes
  refine ⟨order, horder, not_not.mp hgt, hdata, ?_⟩
  obtain ⟨d₃, hwrite₀, hat₀⟩ := hat.writePage (Int.le_refl 0) (by decide) (newHdr cols order).totLen.toNat
    (intsBytes (newHdr cols order).fields)
  obtain ⟨d₄, hwrite₁, hat₁⟩ := hat₀.writePage (k := 1) (by decide) (by decide) pageSize (leafPage 2)
  obtain ⟨d₅, hwrite₂, hat₂⟩ := hat₁.writePage (k := 2) (by decide) (by decide) pageSize (leafPage 1)
  rw [bind_ok hwrite₀, bind_ok hwrite₁, bind_ok hwrite₂] at hc
  have hfile : (((⟨0, fun _ => 0⟩ : FileData).write ((0 : Int) * pageSize).toNat (newHdr cols order).totLen.toNat
      (intsBytes (newHdr cols order).fields)).write ((1 : Int) * pageSize).toNat pageSize (leafPage 2)).write
      ((2 : Int) * pageSize).toNat pageSize (leafPage 1) = newFile (newHdr cols order) := by
    simp [newFile, pageSize]
  have hat₃ : OpenAt (d₅.setFd2pageno fd 2) fd (indexName tab cols) (newFile (newHdr cols order)) :=
    ⟨hat₂.lookup, hfile ▸ hat₂.file, hat₂.fd2path⟩
  obtain ⟨d₆, hclose, hclosed⟩ := hat₃.closeFile
  have hend : (Except.ok (), d₆) = ((Except.ok (), d') : Except IxManagerError Unit × DiskManager) := hclose.symm.trans hc
  rw [← (Prod.mk.inj hend).2]
  exact hclosed

/-- The number of columns that a header gets for these columns. -/
def hdrCols (cols : List Catalog.Col) : Nat := (Catalog.wrap cols.length).toNat

/-- The header counts columns of the index only. -/
theorem hdrCols_le (cols : List Catalog.Col) : hdrCols cols ≤ cols.length := by
  have hle : Catalog.wrap cols.length ≤ cols.length := by
    unfold Catalog.wrap
    rw [Int.bmod_def]
    omega
  unfold hdrCols
  omega

/-- The fields of the header of a new index. -/
theorem length_fields_newHdr (order : Int) : (newHdr cols order).fields.length = 10 + 2 * hdrCols cols := by
  have hle := hdrCols_le cols
  unfold hdrCols at *
  simp only [IxFileHdr.fields, newHdr, IxFileHdr.updateTotLen, List.length_append, List.length_cons,
    List.length_nil, List.length_take, List.length_map]
  omega

/-- The order fits into an `int`. -/
theorem btreeOrder_range {total order : Int} (h : btreeOrder total = some order) : -1 ≤ order ∧ order ≤ 4071 := by
  unfold btreeOrder at h
  obtain ⟨hne, heq⟩ := Option.ite_none_left_eq_some.mp h
  have hpos : 0 ≤ (total + 8) % 2 ^ 64 := Int.emod_nonneg _ (by decide)
  have hlo : 0 ≤ 4072 / ((total + 8) % 2 ^ 64) := Int.ediv_nonneg (by decide) hpos
  have hhi : 4072 / ((total + 8) % 2 ^ 64) ≤ 4072 := Int.ediv_le_self _ (by decide)
  have horder := Option.some.inj heq
  omega

/-- **The new header** has the size that its number of columns asks for. -/
theorem sized_newHdr {order : Int} (hlen : ∀ c ∈ cols, Catalog.IsInt c.len)
    (ho : btreeOrder (Catalog.wrap (Catalog.totLen cols)) = some order)
    (hser : (newHdr cols order).serialize = some (intsBytes (newHdr cols order).fields)) :
    (newHdr cols order).Sized (hdrCols cols) := by
  have hle := hdrCols_le cols
  have htot : (newHdr cols order).totLen = 40 + 8 * hdrCols cols := by
    obtain ⟨heq, _⟩ := Option.ite_none_right_eq_some.mp hser
    rw [← heq, length_fields_newHdr]
    omega
  obtain ⟨hlo, hhi⟩ := btreeOrder_range ho
  have hwrap : ∀ n, Int32Range (Catalog.wrap n) := fun n => by
    obtain ⟨h1, h2⟩ := Catalog.isInt_wrap n
    exact ⟨by omega, by omega⟩
  have hcode : ∀ t : ColType, Int32Range (typeCode t) := fun t => by
    cases t <;> exact ⟨by decide, by decide⟩
  refine ⟨by simp only [newHdr, IxFileHdr.updateTotLen, hdrCols], ?_, ?_, htot, ?_⟩
  · simpa [newHdr, IxFileHdr.updateTotLen, hdrCols] using hle
  · simpa [newHdr, IxFileHdr.updateTotLen, hdrCols] using hle
  · intro v hv
    simp only [IxFileHdr.fields, newHdr, IxFileHdr.updateTotLen, List.mem_append, List.mem_cons,
      List.not_mem_nil, or_false] at hv
    rcases hv with (hv | hv | hv | hv | hv) | hv | hv | hv | hv | hv | hv | hv
    · exact hv ▸ hwrap _
    · exact hv ▸ ⟨by decide, by decide⟩
    · exact hv ▸ ⟨by decide, by decide⟩
    · exact hv ▸ ⟨by decide, by decide⟩
    · exact hv ▸ hwrap _
    · obtain ⟨c, -, rfl⟩ := List.mem_map.mp (List.mem_of_mem_take hv)
      exact hcode c.type
    · obtain ⟨c, hc, rfl⟩ := List.mem_map.mp (List.mem_of_mem_take hv)
      obtain ⟨h1, h2⟩ := hlen c (List.mem_of_mem_take hc)
      exact ⟨by omega, by omega⟩
    · exact hv ▸ hwrap _
    · exact hv ▸ ⟨by omega, by omega⟩
    · exact hv ▸ hwrap _
    · exact hv ▸ ⟨by decide, by decide⟩
    · exact hv ▸ ⟨by decide, by decide⟩

/-- The pages of a new file: the header in front, then the leaf header and the root. -/
theorem newFile_spec {hdr : IxFileHdr} {n : Nat} (hs : hdr.Sized n) : 3 * pageSize ≤ (newFile hdr).size ∧
    (n ≤ 507 → ∀ i < 40 + 8 * n, (newFile hdr).byte i = intsBytes hdr.fields i) ∧
    (∀ i < pageSize, (newFile hdr).byte (pageSize + i) = leafPage 2 i) ∧
    ∀ i < pageSize, (newFile hdr).byte (2 * pageSize + i) = leafPage 1 i := by
  have htot : hdr.totLen.toNat = 40 + 8 * n := by
    rw [hs.totLen]
    omega
  let file₀ : FileData := (⟨0, fun _ => 0⟩ : FileData).write 0 hdr.totLen.toNat (intsBytes hdr.fields)
  let file₁ := file₀.write pageSize pageSize (leafPage 2)
  have hsize₀ : 40 + 8 * n ≤ file₀.size := by
    have hle := (FileData.size_le_write (⟨0, fun _ => 0⟩ : FileData) 0 hdr.totLen.toNat (intsBytes hdr.fields)).2
    rw [Nat.zero_add] at hle
    exact htot ▸ hle
  have hsize₁ : file₀.size ≤ file₁.size ∧ pageSize + pageSize ≤ file₁.size := FileData.size_le_write _ _ _ _
  have hsize : 2 * pageSize + pageSize ≤ (newFile hdr).size := (FileData.size_le_write file₁ _ _ _).2
  refine ⟨by omega, fun hn i hi => ?_, fun i hi => ?_, fun i hi => ?_⟩
  · have hpage : i < pageSize := by
      simp only [pageSize]
      omega
    have hin := FileData.byte_write_inside (⟨0, fun _ => 0⟩ : FileData) 0 hdr.totLen.toNat (intsBytes hdr.fields)
      (i := i) (by omega)
    rw [Nat.zero_add] at hin
    calc (newFile hdr).byte i
      _ = file₁.byte i := FileData.byte_write_outside file₁ _ _ _ (by omega) (Or.inl (by omega))
      _ = file₀.byte i := FileData.byte_write_outside file₀ _ _ _ (by omega) (Or.inl hpage)
      _ = intsBytes hdr.fields i := hin
  · calc (newFile hdr).byte (pageSize + i)
      _ = file₁.byte (pageSize + i) :=
        FileData.byte_write_outside file₁ _ _ _ (by omega) (Or.inl (by omega))
      _ = leafPage 2 i := FileData.byte_write_inside file₀ _ _ _ hi
  · exact FileData.byte_write_inside file₁ _ _ _ hi

/-- What an index keeps of `hdr`, created in `d`: the next opening gives it, the leaf header and the root are
    there, and a header of the same size that the index is closed with is the one that it is opened with. -/
structure HeaderKept (tab : String) (cols : List Catalog.Col) (hdr : IxFileHdr) (d : DiskManager) : Prop where
  opened : ∀ heap, ∃ fd d', openIndex heap tab cols d = (.ok (fd, hdr), d')
  pages : ∃ file, d.files (indexName tab cols) = some file ∧ 3 * pageSize ≤ file.size ∧
    (∀ i < pageSize, file.byte (pageSize + i) = leafPage 2 i) ∧
    ∀ i < pageSize, file.byte (2 * pageSize + i) = leafPage 1 i
  closed : ∀ hdr' : IxFileHdr, hdr'.colNum = hdr.colNum → hdr'.Sized (hdrCols cols) →
    ∀ (d₁ : DiskManager) (fd : Int) (file : FileData) (pages : List (Int × PageData)),
      OpenAt d₁ fd (indexName tab cols) file → pageSize ≤ file.size →
      (∀ e ∈ pages, 1 ≤ e.1 ∧ e.1 < maxPages) →
      ∃ d₂, closeIndex fd hdr' pages d₁ = (.ok (), d₂) ∧
        ∀ heap, ∃ fd' d₃, openIndex heap tab cols d₂ = (.ok (fd', hdr'), d₃)

section Created

variable {order : Int} (hlen : ∀ c ∈ cols, Catalog.IsInt c.len) (hc : createIndex tab cols d = (.ok (), d'))
  (horder : btreeOrder (Catalog.wrap (Catalog.totLen cols)) = some order)

include hlen hc horder

/-- The new header has its size, and the file is closed. -/
theorem createIndex_sized :
    (newHdr cols order).Sized (hdrCols cols) ∧ ClosedFile d' (indexName tab cols) (newFile (newHdr cols order)) := by
  obtain ⟨order', horder', -, hser, hclosed⟩ := createIndex_spec hc
  obtain rfl : order = order' := Option.some.inj (horder.symm.trans horder')
  exact ⟨sized_newHdr hlen horder hser, hclosed⟩

/-- A header that fits into the page is kept. -/
theorem headerKept_of_le (hn : hdrCols cols ≤ 507) : HeaderKept tab cols (newHdr cols order) d' := by
  obtain ⟨hs, hclosed⟩ := createIndex_sized hlen hc horder
  obtain ⟨hsize, hbytes, hleaf, hroot⟩ := newFile_spec hs
  refine ⟨fun heap => ?_, ?_, ?_⟩
  · exact hclosed.openIndex hs ⟨by omega, hbytes hn⟩ hn heap
  · exact ⟨_, hclosed.file, hsize, hleaf, hroot⟩
  · intro hdr' _ hs' d₁ fd file pages hopen hpage hpages
    obtain ⟨d₂, file₂, hclose, hclosed₂, hhdr₂⟩ := hopen.closeIndex hs' hpage hn hpages
    exact ⟨d₂, hclose, fun heap => hclosed₂.openIndex hs' hhdr₂ hn heap⟩

/-- The last field of a header that does not fit is read from the heap: here it is 0. -/
theorem not_opened_of_lt (hn : 507 < hdrCols cols) {fd : Int} {d₂ : DiskManager} :
    openIndex (fun _ => 0) tab cols d' ≠ (.ok (fd, newHdr cols order), d₂) := by
  intro hopen
  obtain ⟨hs, hclosed⟩ := createIndex_sized hlen hc horder
  have hsize := (newFile_spec hs).1
  obtain ⟨fd₁, d₁, heq⟩ := hclosed.openIndex_eq (by omega) fun _ => 0
  obtain ⟨hdr, _, habort, hrest⟩ := bind_eq_ok (heq.symm.trans hopen)
  obtain ⟨hd, rfl⟩ := orAbort_eq_ok.mp habort
  have hhdr : hdr = newHdr cols order := (Prod.mk.inj (Except.ok.inj (Prod.mk.inj hrest).1)).2
  subst hhdr
  have hbehind : ¬ 4 * (9 + 2 * hdrCols cols) < pageSize := by
    simp only [pageSize]
    omega
  have hzero : int32At (fun i => if i < pageSize then (newFile (newHdr cols order)).byte i else 0)
      (4 * (9 + 2 * hdrCols cols)) = 0 := by
    refine int32At_eq ⟨by decide, by decide⟩ fun j hj => ?_
    rw [if_neg (by omega)]
    simp [int32Bytes]
  have hlast := IxFileHdr.lastLeaf_of_deserialize hd
  rw [hs.colNum, hzero] at hlast
  simp [newHdr, IxFileHdr.updateTotLen] at hlast

end Created

/-- The assertion of `serialize` holds of a new header. -/
theorem serialize_newHdr (hcols : cols.length < 2 ^ 27) (order : Int) :
    (newHdr cols order).serialize = some (intsBytes (newHdr cols order).fields) := by
  have hnum : Catalog.wrap cols.length = cols.length := Catalog.wrap_eq_iff.mpr ⟨by omega, by omega⟩
  have htot : Catalog.wrap (40 + 8 * cols.length) = 40 + 8 * cols.length :=
    Catalog.wrap_eq_iff.mpr ⟨by omega, by omega⟩
  unfold IxFileHdr.serialize
  rw [if_pos]
  rw [length_fields_newHdr]
  simp only [newHdr, IxFileHdr.updateTotLen, hdrCols, hnum, htot]
  omega

/-- What `create_index` accepts: a new name, and a total length that is not too long. -/
theorem createIndex_ok (hpath : d.path2fd (indexName tab cols) = none) (hfile : d.files (indexName tab cols) = none)
    (h0 : 0 ≤ Catalog.totLen cols) (hmax : Catalog.totLen cols ≤ ixMaxColLen) (hcols : cols.length < 2 ^ 27) :
    ∃ d', createIndex tab cols d = (.ok (), d') := by
  have hmax' : Catalog.totLen cols ≤ 512 := hmax
  have hwrap : Catalog.wrap (Catalog.totLen cols) = Catalog.totLen cols :=
    Catalog.wrap_eq_iff.mpr ⟨by omega, by omega⟩
  have hmod : (Catalog.totLen cols + 8) % 2 ^ 64 = Catalog.totLen cols + 8 :=
    Int.emod_eq_of_lt (by omega) (by omega)
  have horder : btreeOrder (Catalog.totLen cols) = some (4072 / (Catalog.totLen cols + 8) - 1) := by
    unfold btreeOrder
    dsimp only
    rw [hmod, if_neg (by omega)]
  have hgt : 2 < 4072 / (Catalog.totLen cols + 8) - 1 := by
    have hle : 7 ≤ 4072 / (Catalog.totLen cols + 8) := (Int.le_ediv_iff_mul_le (by omega)).mpr (by omega)
    omega
  let hdr := newHdr cols (4072 / (Catalog.totLen cols + 8) - 1)
  let d₁ : DiskManager :=
    { d with files := Function.update d.files (indexName tab cols) (some ⟨0, fun _ => 0⟩) }
  have hcreate : onDisk (·.createFile (indexName tab cols)) d = (.ok (), d₁) := by
    rw [onDisk_eq_ok]
    simp only [DiskManager.createFile, hfile, d₁]
  have hclosed : ClosedFile d₁ (indexName tab cols) ⟨0, fun _ => 0⟩ := ⟨hpath, Function.update_self _ _ _⟩
  obtain ⟨fd, d₂, hopen, hat⟩ := hclosed.openFile
  obtain ⟨d₃, hwrite₀, hat₀⟩ := hat.writePage (Int.le_refl 0) (by decide) hdr.totLen.toNat (intsBytes hdr.fields)
  obtain ⟨d₄, hwrite₁, hat₁⟩ := hat₀.writePage (k := 1) (by decide) (by decide) pageSize (leafPage 2)
  obtain ⟨d₅, hwrite₂, hat₂⟩ := hat₁.writePage (k := 2) (by decide) (by decide) pageSize (leafPage 1)
  obtain ⟨d₆, hclose, -⟩ := OpenAt.closeFile (d := d₅.setFd2pageno fd 2) ⟨hat₂.lookup, hat₂.file, hat₂.fd2path⟩
  refine ⟨d₆, ?_⟩
  unfold createIndex
  dsimp only
  rw [bind_ok hcreate, bind_ok hopen, hwrap]
  refine check_eq_ok.mpr ⟨not_lt.mpr hmax, ?_⟩
  rw [bind_ok (orAbort_eq_ok.mpr ⟨horder, rfl⟩)]
  refine check_eq_ok.mpr ⟨not_not.mpr hgt, ?_⟩
  rw [bind_ok (orAbort_eq_ok.mpr ⟨serialize_newHdr hcols _, rfl⟩), bind_ok hwrite₀, bind_ok hwrite₁, bind_ok hwrite₂]
  exact hclose

/-- **The header of an index** is kept just if it has at most 507 columns. -/
theorem createIndex_header_iff {order : Int} (hlen : ∀ c ∈ cols, Catalog.IsInt c.len)
    (hc : createIndex tab cols d = (.ok (), d'))
    (horder : btreeOrder (Catalog.wrap (Catalog.totLen cols)) = some order) :
    HeaderKept tab cols (newHdr cols order) d' ↔ hdrCols cols ≤ 507 := by
  refine ⟨fun hkept => ?_, headerKept_of_le hlen hc horder⟩
  by_contra hn
  obtain ⟨fd, d₂, hopen⟩ := hkept.opened fun _ => 0
  exact not_opened_of_lt hlen hc horder (not_le.mp hn) hopen

/-- A disk without files. -/
def noFiles : DiskManager where
  files _ := none
  descriptors := []
  path2fd _ := none
  fd2path _ := none
  fd2pageno _ := 0

/-- An index on one INT column. -/
theorem createIndex_header_int : ∃ d', createIndex "t" [⟨"t", "a", .int, 4, 0, true⟩] noFiles = (.ok (), d') ∧
    HeaderKept "t" [⟨"t", "a", .int, 4, 0, true⟩] (newHdr [⟨"t", "a", .int, 4, 0, true⟩] 338) d' := by
  obtain ⟨d', hc⟩ : ∃ d', createIndex "t" [⟨"t", "a", .int, 4, 0, true⟩] noFiles = (.ok (), d') :=
    createIndex_ok rfl rfl (by decide) (by decide) (by decide)
  refine ⟨d', hc, (createIndex_header_iff ?_ hc (by decide)).mpr (by decide)⟩
  simp [Catalog.IsInt]

/-- A column for every byte that a key of a table with 508 bytes has. -/
def byteCols : List Catalog.Col :=
  (List.range 508).map fun i : Nat => ⟨"t", "c" ++ toString i, .string, 1, i, true⟩

/-- An index on 508 columns of a byte each is created, but does not keep its header. -/
theorem createIndex_header_byteCols : (∀ c ∈ byteCols, Catalog.IsInt c.len) ∧ Catalog.totLen byteCols ≤ ixMaxColLen ∧
    ∃ d' order, createIndex "t" byteCols noFiles = (.ok (), d') ∧
      btreeOrder (Catalog.wrap (Catalog.totLen byteCols)) = some order ∧
      ¬ HeaderKept "t" byteCols (newHdr byteCols order) d' := by
  have hlen : ∀ c ∈ byteCols, Catalog.IsInt c.len := fun c hc => by
    obtain ⟨i, -, rfl⟩ := List.mem_map.mp hc
    exact ⟨by simp, by simp⟩
  have hlength : byteCols.length = 508 := by
    unfold byteCols
    rw [List.length_map, List.length_range]
  have htot : Catalog.totLen byteCols = 508 := by
    unfold Catalog.totLen byteCols
    rw [List.map_map, Function.comp_def, List.map_const', List.length_range, List.sum_replicate]
    rfl
  have hnum : hdrCols byteCols = 508 := by
    unfold hdrCols
    rw [hlength]
    rfl
  have hmax : Catalog.totLen byteCols ≤ ixMaxColLen := by
    rw [htot]
    decide
  obtain ⟨d', hc⟩ : ∃ d', createIndex "t" byteCols noFiles = (.ok (), d') :=
    createIndex_ok rfl rfl (by rw [htot]; decide) hmax (by rw [hlength]; decide)
  obtain ⟨order, horder, -, -, -⟩ := createIndex_spec hc
  refine ⟨hlen, hmax, d', order, hc, horder, fun hkept => ?_⟩
  obtain ⟨fd, d₂, hopen⟩ := hkept.opened fun _ => 0
  exact not_opened_of_lt hlen hc horder (by rw [hnum]; decide) hopen

end IxManager

end Rmdb
