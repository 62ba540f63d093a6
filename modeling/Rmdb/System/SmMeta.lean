import Rmdb.Execution.Values
import Rmdb.Lib.Stream

namespace Rmdb

open Lib

/-!
# The text of the catalog (`system/sm_meta.h`)

`flush_meta` writes the catalog to the file `db.meta` with `operator<<`, and `open_db` reads it back
with `operator>>`.

* `SmMeta.Col`, `Index`, `Tab`, `Db` — the structures with all their members;
* `write`, `read` — the operators;
* `Db.read_write` — what is read is what was written, if all names are words.
-/

namespace SmMeta

/-- `struct ColMeta`. -/
structure Col where
  tabName : String
  name : String
  type : ColType
  len : Nat
  offset : Nat
  index : Bool
  deriving DecidableEq, Repr

/-- `struct IndexMeta`. -/
structure Index where
  tabName : String
  colTotLen : Nat
  colNum : Nat
  cols : List Col
  deriving DecidableEq, Repr

/-- `struct TabMeta`. -/
structure Tab where
  name : String
  cols : List Col
  indexes : List Index
  deriving DecidableEq, Repr

/-- `class DbMeta`; the tables in the order of the map. -/
structure Db where
  name : String
  tabs : List Tab
  deriving DecidableEq, Repr

/-! ### Writing -/

/-- A string and what is written after it. -/
def word (s : String) (c : Char) : List Char := s.toList ++ [c]

/-- A number and what is written after it. -/
def num (n : Nat) (c : Char) : List Char := writeNat n ++ [c]

/-- The value of the enumeration. -/
def typeCode : ColType → Nat
  | .int => 0
  | .bigint => 1
  | .float => 2
  | .string => 3
  | .datetime => 4

def Col.write (c : Col) : List Char :=
  word c.tabName ' ' ++ (word c.name ' ' ++ (num (typeCode c.type) ' ' ++
    (num c.len ' ' ++ (num c.offset ' ' ++ writeNat c.index.toNat))))

def Index.write (i : Index) : List Char :=
  word i.tabName ' ' ++ (num i.colTotLen ' ' ++ (writeNat i.colNum ++
    i.cols.flatMap fun c => '\n' :: c.write))

def Tab.write (t : Tab) : List Char :=
  word t.name '\n' ++ (num t.cols.length '\n' ++ ((t.cols.flatMap fun c => c.write ++ ['\n']) ++
    (num t.indexes.length '\n' ++ t.indexes.flatMap fun i => i.write ++ ['\n'])))

def Db.write (d : Db) : List Char :=
  word d.name '\n' ++ (num d.tabs.length '\n' ++ d.tabs.flatMap fun t => t.write ++ ['\n'])

/-! ### Reading -/

/-- The enumeration from its value. -/
def readType : Reader ColType := do
  let n ← readNat
  match [ColType.int, .bigint, .float, .string, .datetime][n]? with
  | some t => return t
  | none => failure

/-- `is >> b` for a `bool`: the stream fails at other numbers. -/
def readBool : Reader Bool := do
  let n ← readNat
  if n ≤ 1 then return n = 1 else failure

def readCol : Reader Col := do
  let tabName ← readToken
  let name ← readToken
  let type ← readType
  let len ← readNat
  let offset ← readNat
  let index ← readBool
  return { tabName, name, type, len, offset, index }

def readIndex : Reader Index := do
  let tabName ← readToken
  let colTotLen ← readNat
  let colNum ← readNat
  let cols ← readMany readCol colNum
  return { tabName, colTotLen, colNum, cols }

def readTab : Reader Tab := do
  let name ← readToken
  let n ← readNat
  let cols ← readMany readCol n
  let n ← readNat
  let indexes ← readMany readIndex n
  return { name, cols, indexes }

def readDb : Reader Db := do
  let name ← readToken
  let n ← readNat
  let tabs ← readMany readTab n
  return { name, tabs }

/-- `std::ifstream(DB_META_NAME) >> db_`. -/
def Db.read (text : List Char) : Option Db := (readDb text).map Prod.fst

/-! ### Round trip -/

/-- The names are words. -/
def Col.Wf (c : Col) : Prop := IsToken c.tabName ∧ IsToken c.name

def Index.Wf (i : Index) : Prop := IsToken i.tabName ∧ i.colNum = i.cols.length ∧ ∀ c ∈ i.cols, c.Wf

def Tab.Wf (t : Tab) : Prop :=
  IsToken t.name ∧ (∀ c ∈ t.cols, c.Wf) ∧ ∀ i ∈ t.indexes, i.Wf

def Db.Wf (d : Db) : Prop := IsToken d.name ∧ ∀ t ∈ d.tabs, t.Wf

theorem word_reads {s : String} (hs : IsToken s) {c : Char} (hc : isSpace c = true) :
    Reads Anything readToken (word s c) s :=
  (readToken_reads hs).closed hc

theorem num_reads (n : Nat) {c : Char} (hc : isSpace c = true) :
    Reads Anything readNat (num n c) n :=
  (readNat_reads n).closed hc

theorem type_reads (t : ColType) : Reads Anything readType (num (typeCode t) ' ') t := by
  refine (num_reads (typeCode t) rfl).result ?_
  cases t <;> rfl

theorem bool_reads (b : Bool) : Reads Ends readBool (writeNat b.toNat) b := by
  refine (readNat_reads b.toNat).result ?_
  cases b <;> rfl

theorem Col.reads {c : Col} (h : c.Wf) : Reads Ends readCol c.write c := by
  refine (word_reads h.1 rfl).then ?_
  refine (word_reads h.2 rfl).then ?_
  refine (type_reads c.type).then ?_
  refine (num_reads c.len rfl).then ?_
  refine (num_reads c.offset rfl).then ?_
  exact (bool_reads c.index).result rfl

theorem Index.reads {i : Index} (h : i.Wf) : Reads Ends readIndex i.write i := by
  obtain ⟨hname, hnum, hcols⟩ := h
  refine (word_reads hname rfl).then ?_
  refine (num_reads i.colTotLen rfl).then ?_
  have hmany := Reads.many_spaced (c := '\n') rfl fun c hc => Col.reads (hcols c hc)
  rw [← hnum] at hmany
  -- the number of columns ends at the first of them
  refine (readNat_reads i.colNum).bind (hmany.result rfl) fun rest hrest => ?_
  cases i.cols with
  | nil => exact hrest
  | cons c cs => rfl

theorem Tab.reads {t : Tab} (h : t.Wf) : Reads Anything readTab t.write t := by
  obtain ⟨hname, hcols, hindexes⟩ := h
  refine (word_reads hname rfl).then ?_
  refine (num_reads t.cols.length rfl).then ?_
  refine (Reads.many fun c hc => (Col.reads (hcols c hc)).closed rfl).then ?_
  refine (num_reads t.indexes.length rfl).then ?_
  exact (Reads.many fun i hi => (Index.reads (hindexes i hi)).closed rfl).result rfl

/-- **The catalog comes back.** -/
theorem Db.read_write {d : Db} (h : d.Wf) : Db.read d.write = some d := by
  have hreads : Reads Anything readDb d.write d := by
    refine (word_reads h.1 rfl).then ?_
    refine (num_reads d.tabs.length rfl).then ?_
    exact (Reads.many fun t ht => (Tab.reads (h.2 t ht)).space rfl).result rfl
  obtain ⟨ws, -, hr⟩ := hreads [] [] rfl trivial
  rw [List.nil_append, List.append_nil] at hr
  unfold Db.read
  rw [hr]
  rfl

end SmMeta

end Rmdb
