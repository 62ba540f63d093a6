import Rmdb.Lib.JoinedWords
import Rmdb.Index.IxManager

namespace Rmdb

open Lib SmMeta IxManager IxM

/-!
# The names of index files (`index/ix_manager.h`)

An index is known by the name of its file, in the directory and in `ihs_`.  The name is made of the table
and the columns with `_` between them, and `_` may be in an identifier.

* `IndexKey` — a table with columns, and the name of its file;
* `IndexKey.name_eq_of_whole` — names without `_` before a letter are told apart;
* `ixFiles` — the index files of a directory, as the manager creates and destroys them;
* `ownsName_iff` — the indexes whose file is theirs alone.
-/

/-! ### Identifiers -/

/-- A letter, as an identifier begins with one. -/
def Letter (c : Char) : Prop := c.isAlpha = true

/-- A character of an identifier. -/
def isIdentChar (c : Char) : Bool := c = '_' || c.isAlpha || c.isDigit

/-- An identifier begins with a letter. -/
theorem isIdent_iff {s : String} : isIdent s = true ↔
    IsWord Letter s.toList ∧ ∀ c ∈ s.toList, isIdentChar c = true := by
  unfold isIdent
  cases s.toList with
  | nil =>
    refine iff_of_false (by simp) fun h => ?_
    obtain ⟨c, cs, hnil, -⟩ := h.1
    cases hnil
  | cons c cs =>
    rw [Bool.and_eq_true, List.all_eq_true, List.forall_mem_cons]
    constructor
    · rintro ⟨hc, hcs⟩
      exact ⟨⟨c, cs, rfl, hc⟩, by simp [isIdentChar, hc], hcs⟩
    · rintro ⟨⟨d, ds, hd, hletter⟩, -, hcs⟩
      obtain ⟨rfl, rfl⟩ := List.cons.inj hd
      exact ⟨hletter, hcs⟩

/-- The underscore is no letter. -/
theorem not_letter : ¬ Letter '_' := by
  unfold Letter
  decide

/-- The name has an underscore directly before a letter. -/
def SplitsName (s : String) : Prop := Splits '_' Letter s.toList

/-- The two parts of such an identifier are identifiers. -/
theorem isIdent_parts {s : String} (hs : isIdent s = true) (h : SplitsName s) :
    ∃ u v, isIdent u = true ∧ isIdent v = true ∧ s = u ++ "_" ++ v := by
  obtain ⟨hword, hall⟩ := isIdent_iff.mp hs
  obtain ⟨u, v, huv, hv⟩ := h
  rw [huv] at hword hall
  have hu : IsWord Letter u := by
    obtain ⟨c, cs, hc, hletter⟩ := hword
    cases u with
    | nil =>
      obtain ⟨rfl, -⟩ := List.cons.inj hc
      exact absurd hletter not_letter
    | cons d u =>
      obtain ⟨rfl, -⟩ := List.cons.inj hc
      exact ⟨d, u, rfl, hletter⟩
  refine ⟨String.ofList u, String.ofList v, isIdent_iff.mpr ⟨by simpa using hu, ?_⟩,
    isIdent_iff.mpr ⟨by simpa using hv, ?_⟩, ?_⟩
  · simpa using fun c hc => hall c (List.mem_append_left _ hc)
  · simpa using fun c hc => hall c (List.mem_append_right _ (List.mem_cons_of_mem _ hc))
  · rw [← String.toList_inj]
    simp [huv]

/-! ### Names -/

/-- `get_index_name` of columns. -/
def getIndexNameOf (tab : String) (cols : List Catalog.Col) : String :=
  cols.foldl (fun name col => name ++ "_" ++ col.name) tab ++ ".idx"

/-- **Both overloads** give one name. -/
theorem getIndexNameOf_eq (tab : String) (cols : List Catalog.Col) :
    getIndexNameOf tab cols = getIndexName tab (cols.map fun c => c.name) := by
  unfold getIndexNameOf getIndexName
  rw [List.foldl_map]

/-- A table and the columns of an index. -/
structure IndexKey where
  tab : String
  cols : List String
  deriving DecidableEq, Repr

namespace IndexKey

/-- The name of the file, and the key in `ihs_`. -/
def name (i : IndexKey) : String := getIndexName i.tab i.cols

/-- What can be written in a statement: identifiers, and at least one column. -/
structure Valid (i : IndexKey) : Prop where
  tab : isIdent i.tab = true
  cols : ∀ c ∈ i.cols, isIdent c = true
  nonempty : i.cols ≠ []

/-- The characters of a name. -/
theorem toList_name (i : IndexKey) :
    i.name.toList = joined '_' i.tab.toList (i.cols.map String.toList) ++ ".idx".toList := by
  obtain ⟨tab, cols⟩ := i
  unfold name getIndexName
  rw [String.toList_append]
  congr 1
  induction cols generalizing tab with
  | nil => simp
  | cons c cs ih =>
    rw [List.foldl_cons, ih, List.map_cons, ← joined_joined]
    simp

/-- Two names are equal when their words are joined to the same text. -/
theorem name_eq_iff {i j : IndexKey} : i.name = j.name ↔
    joined '_' i.tab.toList (i.cols.map String.toList) = joined '_' j.tab.toList (j.cols.map String.toList) := by
  rw [← String.toList_inj, toList_name, toList_name, List.append_left_inj]

variable {i j : IndexKey}

/-- The columns of a valid key are words. -/
theorem Valid.words (h : i.Valid) : ∀ w ∈ i.cols.map String.toList, IsWord Letter w := fun w hw => by
  obtain ⟨c, hc, rfl⟩ := List.mem_map.mp hw
  exact (isIdent_iff.mp (h.cols c hc)).1

/-- A key is determined by its table and columns. -/
theorem ext_toList (htab : i.tab.toList = j.tab.toList)
    (hcols : i.cols.map String.toList = j.cols.map String.toList) : i = j := by
  obtain ⟨tab, cols⟩ := i
  obtain ⟨tab', cols'⟩ := j
  obtain rfl : tab = tab' := String.toList_inj.mp htab
  obtain rfl : cols = cols' := List.map_injective_iff.mpr (fun _ _ => String.toList_inj.mp) hcols
  rfl

/-- **Names without an underscore before a letter** are told apart by the name of the file. -/
theorem name_eq_of_whole (hi : i.Valid) (hj : j.Valid) (hwi : ∀ s ∈ i.tab :: i.cols, ¬ SplitsName s)
    (hwj : ∀ s ∈ j.tab :: j.cols, ¬ SplitsName s) (h : i.name = j.name) : i = j := by
  have hwhole : ∀ k : IndexKey, (∀ s ∈ k.tab :: k.cols, ¬ SplitsName s) →
      ∀ w ∈ k.tab.toList :: k.cols.map String.toList, ¬ Splits '_' Letter w := fun k hk w hw => by
    rw [← List.map_cons (f := String.toList)] at hw
    obtain ⟨s, hs, rfl⟩ := List.mem_map.mp hw
    exact hk s hs
  obtain ⟨htab, hcols⟩ := joined_inj not_letter hi.words hj.words (hwhole i hwi) (hwhole j hwj)
    (name_eq_iff.mp h)
  exact ext_toList htab hcols

/-- One column, and no underscore before a letter. -/
def Whole (i : IndexKey) : Prop := i.cols.length = 1 ∧ ∀ s ∈ i.tab :: i.cols, ¬ SplitsName s

/-- The name of such an index is that of no other. -/
theorem Whole.unique (h : i.Whole) (hj : j.Valid) (hname : j.name = i.name) : j = i := by
  obtain ⟨tab, cols⟩ := i
  obtain ⟨hlen, hwhole⟩ := h
  obtain ⟨c, rfl⟩ := List.length_eq_one_iff.mp hlen
  obtain ⟨htab, hcols⟩ := joined_pair_unique not_letter (hwhole tab (by simp)) (hwhole c (by simp))
    (by simpa using hj.nonempty) hj.words (name_eq_iff.mp hname).symm
  exact ext_toList htab hcols

/-- **Another index has the name** of an index with more columns, or with an underscore before a letter. -/
theorem Valid.exists_other (hi : i.Valid) (h : ¬ i.Whole) : ∃ j : IndexKey, j.Valid ∧ j.name = i.name ∧ j ≠ i := by
  obtain ⟨tab, cols⟩ := i
  obtain ⟨htab, hcols, hne⟩ := hi
  obtain ⟨c, cs, rfl⟩ := List.exists_cons_of_ne_nil hne
  have hc : isIdent c = true := hcols c List.mem_cons_self
  have hcs : ∀ x ∈ cs, isIdent x = true := fun x hx => hcols x (List.mem_cons_of_mem _ hx)
  by_cases hsplit : SplitsName tab
  · -- the end of the table's name as the first column
    obtain ⟨u, v, hu, hv, rfl⟩ := isIdent_parts htab hsplit
    refine ⟨⟨u, v :: c :: cs⟩, ⟨hu, ?_, by simp⟩, ?_, ?_⟩
    · exact List.forall_mem_cons.mpr ⟨hv, hcols⟩
    · rw [name_eq_iff, List.map_cons, ← joined_joined]
      simp
    · intro heq
      have hlen := congrArg List.length (IndexKey.mk.inj heq).2
      simp at hlen
  · by_cases hsplit' : SplitsName c
    · -- one column as two
      obtain ⟨u, v, hu, hv, rfl⟩ := isIdent_parts hc hsplit'
      refine ⟨⟨tab, u :: v :: cs⟩, ⟨htab, ?_, by simp⟩, ?_, ?_⟩
      · exact List.forall_mem_cons.mpr ⟨hu, List.forall_mem_cons.mpr ⟨hv, hcs⟩⟩
      · rw [name_eq_iff]
        simp [joined]
      · intro heq
        have hlen := congrArg List.length (IndexKey.mk.inj heq).2
        simp at hlen
    · -- the first of several columns as the end of the table's name
      have hcs' : cs ≠ [] := fun hnil => h <| by
        subst hnil
        refine ⟨rfl, ?_⟩
        simpa using ⟨hsplit, hsplit'⟩
      refine ⟨⟨tab ++ "_" ++ c, cs⟩, ⟨?_, hcs, hcs'⟩, ?_, ?_⟩
      · obtain ⟨hword, hall⟩ := isIdent_iff.mp htab
        obtain ⟨-, hall'⟩ := isIdent_iff.mp hc
        refine isIdent_iff.mpr ⟨?_, ?_⟩
        · simpa using hword.append ('_' :: c.toList)
        · intro x hx
          simp only [String.toList_append, List.mem_append] at hx
          rcases hx with (hx | hx) | hx
          · exact hall x hx
          · obtain rfl : x = '_' := by simpa using hx
            decide
          · exact hall' x hx
      · rw [name_eq_iff, List.map_cons, ← joined_joined]
        simp
      · intro heq
        have hlen := congrArg List.length (IndexKey.mk.inj heq).2
        simp at hlen

end IndexKey

/-! ### What an operation does to the files that exist -/

/-- No file appears, and none goes away. -/
def SameFiles (d d' : DiskManager) : Prop := ∀ path, (d'.files path).isSome = (d.files path).isSome

/-- A program that creates and destroys nothing. -/
def KeepsFiles {α : Type} (m : IxM α) : Prop := ∀ d, SameFiles d (m d).2

section KeepsFiles

variable {α β : Type} {d d' : DiskManager}

/-- Steps that keep the files. -/
theorem keepsFiles_bind {m : IxM α} {k : α → IxM β} (hm : KeepsFiles m) (hk : ∀ a, KeepsFiles (k a)) :
    KeepsFiles (m >>= k) := by
  intro d path
  show ((ExceptT.bindCont k (m d).1 (m d).2).2.files path).isSome = _
  have hfirst := hm d path
  rcases hmd : m d with ⟨e | a, d₁⟩
  · rw [hmd] at hfirst
    exact hfirst
  · rw [hmd] at hfirst
    exact (hk a d₁ path).trans hfirst

/-- An error changes no file. -/
theorem keepsFiles_throw (e : IxManagerError) : KeepsFiles (throw e : IxM α) := fun _ _ => rfl

/-- A result that must be there changes no file. -/
theorem keepsFiles_orAbort (o : Option α) : KeepsFiles (orAbort o) := by
  cases o with
  | none => exact fun _ _ => rfl
  | some a => exact fun _ _ => rfl

/-- Opening a file changes no file. -/
theorem keepsFiles_openFile (name : String) : KeepsFiles (onDisk (·.openFile name)) := by
  intro d path
  show (((d.openFile name).2).files path).isSome = _
  unfold DiskManager.openFile
  split
  · rfl
  · split
    · rfl
    · split <;> rfl

/-- Writing a page keeps the files that are there. -/
theorem keepsFiles_writePage (fd k : Int) (n : Nat) (data : Nat → UInt8) :
    KeepsFiles (onDisk (·.writePage fd k n data)) := by
  intro d path
  show (((d.writePage fd k n data).2).files path).isSome = _
  unfold DiskManager.writePage
  cases hof : d.fileOf fd with
  | none => rfl
  | some e =>
    obtain ⟨name, file⟩ := e
    -- the file that is written is there
    have hfile : d.files name = some file := by
      unfold DiskManager.fileOf at hof
      obtain ⟨name', -, hof⟩ := Option.bind_eq_some_iff.mp hof
      obtain ⟨file', hfile', hof⟩ := Option.bind_eq_some_iff.mp hof
      cases hof
      exact hfile'
    dsimp only
    split
    · rfl
    · show (Function.update d.files name _ path).isSome = _
      by_cases hpath : path = name
      · rw [hpath, Function.update_self, hfile]
        rfl
      · rw [Function.update_of_ne hpath]

/-- Closing a file changes no file. -/
theorem keepsFiles_closeFile (fd : Int) : KeepsFiles (onDisk (·.closeFile fd)) := by
  intro d path
  show (((d.closeFile fd).2).files path).isSome = _
  unfold DiskManager.closeFile
  split <;> rfl

/-- **`create_index` makes its file**, whatever becomes of the rest. -/
theorem createIndex_files {tab : String} {cols : List Catalog.Col} {r : Except IxManagerError Unit}
    (hnew : d.files (indexName tab cols) = none) (hrun : createIndex tab cols d = (r, d')) (path : String) :
    (d'.files path).isSome = true ↔ path = indexName tab cols ∨ (d.files path).isSome = true := by
  have hcreate : onDisk (·.createFile (indexName tab cols)) d = (.ok (), { d with
      files := Function.update d.files (indexName tab cols) (some ⟨0, fun _ => 0⟩) }) := by
    rw [onDisk_eq_ok]
    simp only [DiskManager.createFile, hnew]
  unfold createIndex at hrun
  dsimp only at hrun
  rw [bind_ok hcreate] at hrun
  -- after `create_file` no call creates or destroys a file, whether it succeeds or not
  have hsame : (d'.files path).isSome =
      (Function.update d.files (indexName tab cols) (some ⟨0, fun _ => 0⟩) path).isSome := by
    have hend : _ = d' := congrArg Prod.snd hrun
    rw [← hend]
    refine keepsFiles_bind (keepsFiles_openFile _) (fun fd => ?_) _ path
    have hwrites : ∀ order, KeepsFiles (do
        let data ← orAbort (newHdr cols order).serialize
        onDisk (·.writePage fd 0 (newHdr cols order).totLen.toNat data)
        onDisk (·.writePage fd 1 pageSize (leafPage 2))
        onDisk (·.writePage fd 2 pageSize (leafPage 1))
        onDisk fun d => (.ok (), d.setFd2pageno fd 2)
        onDisk (·.closeFile fd)) := fun order =>
      keepsFiles_bind (keepsFiles_orAbort _) fun _ => keepsFiles_bind (keepsFiles_writePage _ _ _ _) fun _ =>
        keepsFiles_bind (keepsFiles_writePage _ _ _ _) fun _ =>
          keepsFiles_bind (keepsFiles_writePage _ _ _ _) fun _ =>
            keepsFiles_bind (fun _ _ => rfl) fun _ => keepsFiles_closeFile _
    have horder : KeepsFiles (do
        let order ← orAbort (btreeOrder (Catalog.wrap (Catalog.totLen cols)))
        if ¬ 2 < order then throw .aborted
        let data ← orAbort (newHdr cols order).serialize
        onDisk (·.writePage fd 0 (newHdr cols order).totLen.toNat data)
        onDisk (·.writePage fd 1 pageSize (leafPage 2))
        onDisk (·.writePage fd 2 pageSize (leafPage 1))
        onDisk fun d => (.ok (), d.setFd2pageno fd 2)
        onDisk (·.closeFile fd)) := by
      refine keepsFiles_bind (keepsFiles_orAbort _) fun order => ?_
      split
      · exact keepsFiles_bind (keepsFiles_throw _) fun _ => hwrites order
      · exact hwrites order
    split
    · exact keepsFiles_bind (keepsFiles_throw _) fun _ => horder
    · exact horder
  rw [hsame]
  by_cases hpath : path = indexName tab cols
  · rw [hpath, Function.update_self]
    simp
  · rw [Function.update_of_ne hpath]
    simp [hpath]

end KeepsFiles

/-! ### The index files -/

/-- `IxManager::exists`. -/
def ixExists (d : DiskManager) (i : IndexKey) : Bool := (d.files i.name).isSome

/-- The disk, and the calls of `create_index` that have made the files that are there, the last one first:
    the index, and if the call came to its end. -/
structure IxFiles where
  disk : DiskManager
  made : List (IndexKey × Bool)

/-- What can happen to the files. -/
inductive IxEvent where
  | create (i : IndexKey) (cols : List Catalog.Col)
  | destroy (i : IndexKey)
  | other

/-- The manager on a disk that has no index file at first.  Other operations do not create or destroy index
    files; `create_index` of a name that is there throws and does nothing. -/
inductive IxStep : IxFiles → IxEvent → IxFiles → Prop
  | create {s : IxFiles} {i : IndexKey} {cols : List Catalog.Col} {r : Except IxManagerError Unit}
      {d' : DiskManager} (hi : i.Valid) (hcols : cols.map (fun c => c.name) = i.cols)
      (hnew : s.disk.files i.name = none) (hrun : createIndex i.tab cols s.disk = (r, d')) :
      IxStep s (.create i cols) ⟨d', (i, r.isOk) :: s.made⟩
  | destroy {s : IxFiles} {i : IndexKey} {d' : DiskManager} (hi : i.Valid)
      (hrun : s.disk.destroyFile i.name = (.ok (), d')) :
      IxStep s (.destroy i) ⟨d', s.made.filter fun e => e.1.name ≠ i.name⟩
  | other {s : IxFiles} {d' : DiskManager}
      (h : ∀ i : IndexKey, i.Valid → (d'.files i.name).isSome = (s.disk.files i.name).isSome) :
      IxStep s .other ⟨d', s.made⟩

/-- The runs of the manager. -/
def ixFiles : TransitionSystem IxFiles IxEvent where
  init s := s.made = [] ∧ ∀ i : IndexKey, i.Valid → s.disk.files i.name = none
  step := IxStep

/-- The index files that are there are those that calls have made. -/
structure IxFiles.Tracked (s : IxFiles) : Prop where
  valid : ∀ e ∈ s.made, e.1.Valid
  exists_iff : ∀ i : IndexKey, i.Valid → (ixExists s.disk i = true ↔ ∃ e ∈ s.made, e.1.name = i.name)

/-- Every step keeps track of the files. -/
theorem IxFiles.Tracked.step {s s' : IxFiles} {e : IxEvent} (h : s.Tracked) (hs : IxStep s e s') :
    s'.Tracked := by
  cases hs with
  | @create i cols r d' hi hcols hnew hrun =>
    have hname : indexName i.tab cols = i.name := by
      show getIndexName i.tab (cols.map fun c => c.name) = _
      rw [hcols]
      rfl
    refine ⟨List.forall_mem_cons.mpr ⟨hi, h.valid⟩, fun j hj => ?_⟩
    have hfiles := createIndex_files (hname ▸ hnew) hrun j.name
    have hold := h.exists_iff j hj
    unfold ixExists at hold ⊢
    rw [hfiles, hname, hold]
    simp [eq_comm]
  | @destroy i d' hi hrun =>
    refine ⟨fun e he => h.valid e (List.mem_of_mem_filter he), fun j hj => ?_⟩
    have hfiles : d'.files = Function.update s.disk.files i.name none := by
      unfold DiskManager.destroyFile at hrun
      split at hrun
      · cases hrun
      · split at hrun
        · cases hrun
        · cases hrun
          rfl
    have hold := h.exists_iff j hj
    unfold ixExists at hold ⊢
    rw [hfiles]
    by_cases hji : j.name = i.name
    · rw [hji, Function.update_self]
      simp
    · rw [Function.update_of_ne hji, hold]
      constructor
      · rintro ⟨e, he, heq⟩
        exact ⟨e, List.mem_filter.mpr ⟨he, by simpa [heq] using hji⟩, heq⟩
      · rintro ⟨e, he, heq⟩
        exact ⟨e, List.mem_of_mem_filter he, heq⟩
  | other hsame =>
    refine ⟨h.valid, fun j hj => ?_⟩
    unfold ixExists
    rw [hsame j hj]
    exact h.exists_iff j hj

/-- In every state reached the index files are those that calls have made. -/
theorem tracked_of_reachable {s : IxFiles} (h : ixFiles.Reachable s) : s.Tracked := by
  refine h.invariant (fun s ⟨hmade, hnone⟩ => ?_) fun s e s' htracked hs => htracked.step hs
  refine ⟨by simp [hmade], fun i hi => ?_⟩
  simp [ixExists, hnone i hi, hmade]

/-- The file of the index is its own: no other index has the name, both overloads give it, and `exists` finds
    the file just if it was created for this index, unless a call for it has thrown behind `create_file`. -/
structure IndexKey.OwnsName (i : IndexKey) : Prop where
  unique : ∀ j : IndexKey, j.Valid → j.name = i.name → j = i
  overload : ∀ cols : List Catalog.Col, cols.map (fun c => c.name) = i.cols →
    getIndexNameOf i.tab cols = i.name
  created : ∀ s, ixFiles.Reachable s → (i, false) ∉ s.made → ixExists s.disk i = true → (i, true) ∈ s.made

/-- **The indexes that own the name of their file** have one column, and no underscore before a letter. -/
theorem ownsName_iff {i : IndexKey} (hi : i.Valid) : i.OwnsName ↔ i.Whole := by
  refine ⟨fun h => ?_, fun h => ⟨fun j hj hname => h.unique hj hname, fun cols hcols => ?_,
    fun s hs hthrown hexists => ?_⟩⟩
  · by_contra hwhole
    obtain ⟨j, hj, hname, hne⟩ := hi.exists_other hwhole
    exact hne (h.unique j hj hname)
  · rw [getIndexNameOf_eq, hcols]
    rfl
  · have htracked := tracked_of_reachable hs
    obtain ⟨⟨j, done⟩, he, hname⟩ := (htracked.exists_iff i hi).mp hexists
    obtain rfl := h.unique (htracked.valid _ he) hname
    cases done with
    | true => exact he
    | false => exact absurd he hthrown

/-- A name without an underscore does not split. -/
theorem not_splitsName {s : String} (h : '_' ∉ s.toList) : ¬ SplitsName s := fun ⟨u, _, huv, _⟩ =>
  h (huv ▸ List.mem_append_right u List.mem_cons_self)

/-- The columns in order. -/
theorem IndexKey.name_eq_of_whole_t_ab : (⟨"t", ["a", "b"]⟩ : IndexKey) = ⟨"t", ["a", "b"]⟩ := by
  have hvalid : (⟨"t", ["a", "b"]⟩ : IndexKey).Valid := ⟨by decide, by decide, by simp⟩
  have hwhole : ∀ s ∈ ["t", "a", "b"], ¬ SplitsName s := by
    refine List.forall_mem_cons.mpr ⟨not_splitsName (by decide), List.forall_mem_cons.mpr
      ⟨not_splitsName (by decide), List.forall_mem_cons.mpr ⟨not_splitsName (by decide), by simp⟩⟩⟩
  exact name_eq_of_whole hvalid hvalid hwhole hwhole rfl

theorem ownsName_t_a : (⟨"t", ["a"]⟩ : IndexKey).Valid ∧ (⟨"t", ["a"]⟩ : IndexKey).OwnsName := by
  have hvalid : (⟨"t", ["a"]⟩ : IndexKey).Valid := ⟨by decide, by decide, by simp⟩
  refine ⟨hvalid, (ownsName_iff hvalid).mpr ⟨rfl, ?_⟩⟩
  refine List.forall_mem_cons.mpr ⟨not_splitsName (by decide), List.forall_mem_cons.mpr
    ⟨not_splitsName (by decide), by simp⟩⟩

/-- The indexes `t (a_b)`, `t_a (b)` and `t (a, b)` share a file: when the second is created, the first
    exists. -/
theorem ownsName_shared : (⟨"t", ["a_b"]⟩ : IndexKey).Valid ∧ (⟨"t_a", ["b"]⟩ : IndexKey).Valid ∧
    (⟨"t", ["a", "b"]⟩ : IndexKey).Valid ∧
    (⟨"t", ["a_b"]⟩ : IndexKey).name = "t_a_b.idx" ∧ (⟨"t_a", ["b"]⟩ : IndexKey).name = "t_a_b.idx" ∧
    (⟨"t", ["a", "b"]⟩ : IndexKey).name = "t_a_b.idx" ∧
    ∃ s, ixFiles.Reachable s ∧ s.made = [(⟨"t_a", ["b"]⟩, true)] ∧
      ixExists s.disk ⟨"t", ["a_b"]⟩ = true := by
  have hvalid : (⟨"t_a", ["b"]⟩ : IndexKey).Valid := ⟨by decide, by decide, by simp⟩
  obtain ⟨d', hrun⟩ : ∃ d', createIndex "t_a" [⟨"t_a", "b", .int, 4, 0, true⟩] noFiles = (.ok (), d') :=
    createIndex_ok rfl rfl (by decide) (by decide) (by decide)
  have hreach : ixFiles.Reachable ⟨d', [(⟨"t_a", ["b"]⟩, true)]⟩ := by
    have hinit : ixFiles.Reachable ⟨noFiles, []⟩ := .init ⟨rfl, fun _ _ => rfl⟩
    have hstep : IxStep ⟨noFiles, []⟩ (.create ⟨"t_a", ["b"]⟩ [⟨"t_a", "b", .int, 4, 0, true⟩])
        ⟨d', [(⟨"t_a", ["b"]⟩, true)]⟩ := .create (r := .ok ()) hvalid rfl rfl hrun
    exact .step hinit hstep
  have hexists := (tracked_of_reachable hreach).exists_iff ⟨"t", ["a_b"]⟩ ⟨by decide, by decide, by simp⟩
  refine ⟨⟨by decide, by decide, by simp⟩, hvalid, ⟨by decide, by decide, by simp⟩, by decide, by decide,
    by decide, _, hreach, rfl, hexists.mpr ⟨_, List.mem_cons_self, by decide⟩⟩

end Rmdb
