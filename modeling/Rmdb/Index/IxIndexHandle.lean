import Rmdb.Index.IxNodeHandle

namespace Rmdb

/-!
# The B+ tree (`class IxIndexHandle`)

The index file: its header and its pages.  The buffer pool is a store of pages here (see
`bufferPool_is_store`); latches and pins are left out, and so is the list of pages that
`delete_entry` gives back to the pool, which keeps their bytes.  A node handle is a page number.

The loops that climb or descend the tree have fuel: the number of pages of the file.

`insertCalls` is not a part of the program: it records the calls of `IxNodeHandle::insert`.
-/

/-- `IxFileHdr` and the pages of the file.  `nextPage` is the page number the disk manager gives out
    next. -/
structure IxIndexHandle (K : Type) where
  btreeOrder : Nat
  rootPage : Int
  firstLeaf : Int
  lastLeaf : Int
  numPages : Int
  nextPage : Int
  page : Int → IxNode K
  insertCalls : List (IxNode K × K × Rid)

/-- `sizeof(IxPageHdr)`. -/
def ixPageHdrSize : Nat := 24

/-- `IX_MAX_COL_LEN`. -/
def ixMaxColLen : Nat := 512

namespace IxIndexHandle

variable {K : Type}

/-- `get_max_size`. -/
def maxSize (s : IxIndexHandle K) : Nat := s.btreeOrder + 1

/-- `get_min_size`. -/
def minSize (s : IxIndexHandle K) : Nat := s.maxSize / 2

/-- A bound on the number of levels. -/
def fuel (s : IxIndexHandle K) : Nat := s.nextPage.toNat

/-- Write a page. -/
def set (s : IxIndexHandle K) (p : Int) (n : IxNode K) : IxIndexHandle K :=
  { s with page := Function.update s.page p n }

/-- Change a page. -/
def modify (s : IxIndexHandle K) (p : Int) (f : IxNode K → IxNode K) : IxIndexHandle K :=
  s.set p (f (s.page p))

/-- `set_parent_page_no` of a page. -/
def setParent (s : IxIndexHandle K) (p parent : Int) : IxIndexHandle K :=
  s.modify p fun n => { n with parent := parent }

/-! ### Creation -/

/-- The order that `create_index` computes from the length of the keys. -/
def orderOf (colTotLen : Nat) : Nat := (pageSize - ixPageHdrSize) / (colTotLen + 8) - 1

section Create

variable [Inhabited K]

/-- The header page of the list of leaves. -/
def leafHeader : IxNode K := { IxNode.zero with parent := -1, isLeaf := true, prevLeaf := 2, nextLeaf := 2 }

/-- The first root. -/
def initRoot : IxNode K := { IxNode.zero with parent := -1, isLeaf := true, prevLeaf := 1, nextLeaf := 1 }

/-- The file that `IxManager::create_index` writes, opened. -/
def create (btreeOrder : Nat) : IxIndexHandle K where
  btreeOrder := btreeOrder
  rootPage := 2
  firstLeaf := 2
  lastLeaf := 2
  numPages := 3
  nextPage := 3
  page p := if p = 1 then leafHeader else if p = 2 then initRoot else IxNode.zero
  insertCalls := []

/-- `create_node`: a page of zeros. -/
def createNode (s : IxIndexHandle K) : Int × IxIndexHandle K :=
  (s.nextPage, { s with
    numPages := s.numPages + 1
    nextPage := s.nextPage + 1
    page := Function.update s.page s.nextPage IxNode.zero })

end Create

/-! ### Keeping parents and separators right -/

/-- `maintain_child`. -/
def maintainChild (s : IxIndexHandle K) (p : Int) (childIdx : Nat) : IxIndexHandle K :=
  if (s.page p).isLeaf then s else s.setParent ((s.page p).valueAt childIdx) p

/-- `maintain_parent`: the key of the node in its parent, and so on up while it changes. -/
def maintainParent [DecidableEq K] : Nat → IxIndexHandle K → Int → Except IxError (IxIndexHandle K)
  | 0, _, _ => .error .outOfFuel
  | fuel + 1, s, p =>
    if (s.page p).parent = -1 then .ok s
    else do
      let q := (s.page p).parent
      let rank ← (s.page q).findChild p
      if (s.page q).keys rank = (s.page p).keys 0 then .ok s
      else
        let s' := s.modify q fun n =>
          { n with keys := Function.update n.keys rank ((s.page p).keys 0) }
        maintainParent fuel s' q

/-! ### Searching -/

section Search

variable [Ord K]

/-- The loop of `find_leaf_page`. -/
def findLeafFrom (s : IxIndexHandle K) (key : K) : Nat → Int → Except IxError Int
  | 0, _ => .error .outOfFuel
  | fuel + 1, p =>
    if (s.page p).isLeaf then .ok p
    else s.findLeafFrom key fuel ((s.page p).internalLookup key)

/-- `find_leaf_page`. -/
def findLeafPage (s : IxIndexHandle K) (key : K) : Except IxError Int :=
  s.findLeafFrom key s.fuel s.rootPage

/-- `get_value`. -/
def getValue (s : IxIndexHandle K) (key : K) : Except IxError (Option Rid) := do
  let p ← s.findLeafPage key
  return (s.page p).leafLookup key

end Search

/-! ### Insertion -/

/-- `IxNodeHandle::insert` on a page. -/
def insertInto [Ord K] (s : IxIndexHandle K) (p : Int) (key : K) (value : Rid) : IxIndexHandle K :=
  { s.modify p (·.insert key value) with
    insertCalls := s.insertCalls ++ [(s.page p, key, value)] }

section Insert

variable [Inhabited K]

/-- The upper half of a node, on a new page. -/
def splitOff (n : IxNode K) : IxNode K :=
  let left := n.numKey / 2
  { IxNode.zero with parent := n.parent, isLeaf := n.isLeaf }.insertPairs 0
    (fun i => n.keys (left + i)) (fun i => n.rids (left + i)) (n.numKey - left)

/-- `split`. -/
def split (s : IxIndexHandle K) (p : Int) : Int × IxIndexHandle K :=
  let n := s.page p
  let left := n.numKey / 2
  let (q, s) := s.createNode
  let m := splitOff n
  if n.isLeaf then
    let s := s.set q { m with prevLeaf := p, nextLeaf := n.nextLeaf }
    let s := s.set p { n with numKey := left, nextLeaf := q }
    (q, if s.lastLeaf = p then { s with lastLeaf := q } else s)
  else
    let s := (s.set q m).set p { n with numKey := left }
    (q, (List.range (n.numKey - left)).foldl (fun s i => s.maintainChild q i) s)

variable [Ord K]

/-- `insert_into_parent`.  The key is the first one of the new node. -/
def insertIntoParent : Nat → IxIndexHandle K → Int → Int → Except IxError (IxIndexHandle K)
  | 0, _, _, _ => .error .outOfFuel
  | fuel + 1, s, old, new =>
    if (s.page old).isRootPage then
      let (r, s) := s.createNode
      let root := ({ IxNode.zero with parent := -1 }.insertPair 0 ((s.page old).keys 0)
        ⟨old, -1⟩).insertPair 1 ((s.page new).keys 0) ⟨new, -1⟩
      let s := ((s.set r root).setParent old r).setParent new r
      .ok { s with rootPage := r }
    else
      let p := (s.page new).parent
      let s := s.insertInto p ((s.page new).keys 0) ⟨new, -1⟩
      if (s.page p).numKey = s.maxSize then do
        let (q, s) := s.split p
        let s ← insertIntoParent fuel s p q
        return if p = s.lastLeaf then { s with lastLeaf := q } else s
      else .ok s

/-- `insert_entry`: the leaf and the index afterwards. -/
def insertEntry [DecidableEq K] (s : IxIndexHandle K) (key : K) (value : Rid) :
    Except IxError (Int × IxIndexHandle K) := do
  let p ← s.findLeafPage key
  let s ← (s.insertInto p key value).maintainParent s.fuel p
  if (s.page p).numKey = s.maxSize then
    let (q, s) := s.split p
    let s ← insertIntoParent s.fuel s p q
    return (p, if p = s.lastLeaf then { s with lastLeaf := q } else s)
  else return (p, s)

end Insert

/-! ### Deletion -/

/-- `adjust_root`.  The root is a node that has just lost a pair. -/
def adjustRoot (s : IxIndexHandle K) (p : Int) : IxIndexHandle K :=
  let n := s.page p
  if n.isLeaf = false ∧ n.numKey = 1 then
    { s.setParent (n.valueAt 0) (-1) with numPages := s.numPages - 1, rootPage := n.valueAt 0 }
  else s

/-- `erase_leaf`. -/
def eraseLeaf (s : IxIndexHandle K) (p : Int) : IxIndexHandle K :=
  let n := s.page p
  let s := s.modify n.prevLeaf fun m => { m with nextLeaf := n.nextLeaf }
  s.modify (s.page p).nextLeaf fun m => { m with prevLeaf := (s.page p).prevLeaf }

/-- `redistribute`. -/
def redistribute [DecidableEq K] (s : IxIndexHandle K) (neighbor p : Int) (index : Nat) :
    Except IxError (IxIndexHandle K) :=
  let m := s.page neighbor
  if index = 0 then do
    let s := s.modify p fun n => n.insertPair n.numKey (m.keys 0) (m.rids 0)
    let m ← (s.page neighbor).erasePair 0
    let s := s.set neighbor m
    let s := s.maintainChild p ((s.page p).numKey - 1)
    s.maintainParent s.fuel neighbor
  else do
    let s := s.modify p fun n => n.insertPair 0 (m.keys (m.numKey - 1)) (m.rids (m.numKey - 1))
    let m ← (s.page neighbor).erasePair (m.numKey - 1)
    let s := s.set neighbor m
    let s ← s.maintainParent s.fuel p
    return s.maintainChild p 0

section Delete

variable [Ord K]

/-- `coalesce`, up to the recursive call.  With `index = 0` the two nodes change places. -/
def coalesce (s : IxIndexHandle K) (neighbor p parent : Int) (index : Nat) :
    Except IxError (IxIndexHandle K) := do
  let left := if index = 0 then p else neighbor
  let right := if index = 0 then neighbor else p
  let n := s.page right
  let preSize := (s.page left).numKey
  let s := s.modify left fun m => m.insertPairs preSize n.keys n.rids n.numKey
  let s := (List.range' preSize (n.numKey - preSize)).foldl
    (fun s i => s.maintainChild left (i + preSize)) s
  let s :=
    if (s.page right).isLeaf then
      let s := s.eraseLeaf right
      if s.lastLeaf = right then { s with lastLeaf := left } else s
    else s
  let s := { s with numPages := s.numPages - 1 }
  let m ← (s.page parent).erasePair ((s.page parent).lowerBound ((s.page right).keys 0))
  return s.set parent m

variable [DecidableEq K]

/-- `coalesce_or_redistribute`.  The sibling of a node other than the first child is the first
    child. -/
def coalesceOrRedistribute : Nat → IxIndexHandle K → Int → Except IxError (IxIndexHandle K)
  | 0, _, _ => .error .outOfFuel
  | fuel + 1, s, p =>
    let n := s.page p
    if n.isRootPage then .ok (s.adjustRoot p)
    else if s.minSize ≤ n.numKey then s.maintainParent s.fuel p
    else do
      let father := n.parent
      let index ← (s.page father).findChild p
      let brother := if index = 0 then (s.page father).valueAt 1 else (s.page father).valueAt 0
      let pos := (s.page father).lowerBound (n.keys 0)
      if 2 * s.minSize ≤ n.numKey + (s.page brother).numKey then s.redistribute brother p pos
      else
        let s ← s.coalesce brother p father pos
        coalesceOrRedistribute fuel s father

/-- `delete_entry`. -/
def deleteEntry (s : IxIndexHandle K) (key : K) : Except IxError (IxIndexHandle K) := do
  let p ← s.findLeafPage key
  let n ← (s.page p).erasePair ((s.page p).lowerBound key)
  (s.set p n).coalesceOrRedistribute s.fuel p

end Delete

end IxIndexHandle

end Rmdb
