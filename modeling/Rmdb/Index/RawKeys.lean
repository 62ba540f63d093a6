import Rmdb.Index.LostEntries
import Rmdb.Index.NodeInsert

namespace Rmdb

open Lib Std

/-!
# The bytes of the keys and the keys that are ordered

The program has the bytes of a key only, and `ix_compare` is an order on keys without NaN only.  A run
on bytes that are such keys is the run on the keys.

* `IxNode.mapKeys`, `IxIndexHandle.mapKeys` — the same node, the same index, with other keys;
* `mapKeys_insertEntries`, `mapKeys_getValue` — the operations do not notice;
* `insertEntries_raw` — a run on bytes that are keys.
-/

variable {K L : Type}

namespace IxNode

/-- The node with its keys seen as others. -/
def mapKeys (f : K → L) (n : IxNode K) : IxNode L :=
  { n with keys := fun i => f (n.keys i) }

variable {f : K → L}

/-- Renaming keys commutes with `insert_pairs`. -/
theorem mapKeys_insertPairs (n : IxNode K) (pos : Nat) (ks : Nat → K) (rs : Nat → Rid) (cnt : Nat) :
    (n.insertPairs pos ks rs cnt).mapKeys f = (n.mapKeys f).insertPairs pos (fun i => f (ks i)) rs cnt := by
  unfold insertPairs mapKeys
  congr 1
  funext i
  dsimp only
  split
  · rfl
  · split
    · rfl
    · split <;> rfl

/-- It commutes with `insert_pair`. -/
theorem mapKeys_insertPair (n : IxNode K) (pos : Nat) (k : K) (v : Rid) :
    (n.insertPair pos k v).mapKeys f = (n.mapKeys f).insertPair pos (f k) v := n.mapKeys_insertPairs pos _ _ 1

/-- `find_child` does not look at the keys. -/
theorem mapKeys_findChild (n : IxNode K) (child : Int) : (n.mapKeys f).findChild child = n.findChild child :=
  rfl

/-- A node of a new page, whose keys are all the same. -/
theorem mapKeys_zero [Inhabited K] [Inhabited L] (hdefault : f default = default) :
    (IxNode.zero : IxNode K).mapKeys f = IxNode.zero := by
  unfold IxNode.zero mapKeys
  simp only [hdefault]

section Ord

variable [Ord K] [Ord L]

/-- `lower_bound` compares only. -/
theorem mapKeys_lowerBound (hf : ∀ a b, compare (f a) (f b) = compare a b) (n : IxNode K) (k : K) :
    (n.mapKeys f).lowerBound (f k) = n.lowerBound k := by
  unfold lowerBound mapKeys
  simp only [hf]

/-- So does `internal_lookup`. -/
theorem mapKeys_internalLookup (hf : ∀ a b, compare (f a) (f b) = compare a b) (n : IxNode K) (k : K) :
    (n.mapKeys f).internalLookup (f k) = n.internalLookup k := by
  unfold internalLookup upperBound valueAt mapKeys
  simp only [hf]

/-- So does `leaf_lookup`. -/
theorem mapKeys_leafLookup (hf : ∀ a b, compare (f a) (f b) = compare a b) (n : IxNode K) (k : K) :
    (n.mapKeys f).leafLookup (f k) = n.leafLookup k := by
  unfold leafLookup
  rw [mapKeys_lowerBound hf]
  unfold mapKeys
  simp only [hf]

/-- So does `insert`. -/
theorem mapKeys_insert (hf : ∀ a b, compare (f a) (f b) = compare a b) (n : IxNode K) (k : K) (v : Rid) :
    (n.insert k v).mapKeys f = (n.mapKeys f).insert (f k) v := by
  unfold insert
  dsimp only
  rw [mapKeys_lowerBound hf, show (n.mapKeys f).numKey = n.numKey from rfl,
    show (n.mapKeys f).keys (n.lowerBound k) = f (n.keys (n.lowerBound k)) from rfl, hf]
  split
  · rfl
  · exact n.mapKeys_insertPair _ _ _

end Ord

end IxNode

namespace IxIndexHandle

/-- The index with its keys seen as others. -/
def mapKeys (f : K → L) (s : IxIndexHandle K) : IxIndexHandle L :=
  { s with
    page := fun p => (s.page p).mapKeys f
    insertCalls := s.insertCalls.map fun c => (c.1.mapKeys f, f c.2.1, c.2.2) }

variable {f : K → L}

/-- A node of the tree is replaced. -/
theorem mapKeys_set (s : IxIndexHandle K) (p : Int) (n : IxNode K) :
    (s.set p n).mapKeys f = (s.mapKeys f).set p (n.mapKeys f) := by
  unfold set mapKeys
  congr 1
  funext x
  dsimp only
  by_cases hx : x = p
  · subst hx
    simp
  · simp [hx]

/-- A parent is set. -/
theorem mapKeys_setParent (s : IxIndexHandle K) (p parent : Int) :
    (s.setParent p parent).mapKeys f = (s.mapKeys f).setParent p parent := by
  unfold setParent modify
  rw [mapKeys_set]
  rfl

/-- `maintain_child` does not look at the keys. -/
theorem mapKeys_maintainChild (s : IxIndexHandle K) (p : Int) (i : Nat) :
    (s.maintainChild p i).mapKeys f = (s.mapKeys f).maintainChild p i := by
  unfold maintainChild
  rw [show ((s.mapKeys f).page p).isLeaf = (s.page p).isLeaf from rfl]
  split
  · rfl
  · exact s.mapKeys_setParent _ _

/-- `maintain_parent` compares keys for equality, so the renaming has to be injective. -/
theorem mapKeys_maintainParent [DecidableEq K] [DecidableEq L] (hinj : Function.Injective f) (fuel : Nat)
    (s : IxIndexHandle K) (p : Int) :
    maintainParent fuel (s.mapKeys f) p = (maintainParent fuel s p).map (mapKeys f) := by
  induction fuel generalizing s p with
  | zero => rfl
  | succ fuel ih =>
    rw [maintainParent, maintainParent, show ((s.mapKeys f).page p).parent = (s.page p).parent from rfl]
    split
    · rfl
    · dsimp only
      rw [show ((s.mapKeys f).page (s.page p).parent).findChild p =
        (s.page (s.page p).parent).findChild p from IxNode.mapKeys_findChild _ _]
      cases (s.page (s.page p).parent).findChild p with
      | error e => rfl
      | ok rank =>
        have hkeys : ∀ q i, ((s.mapKeys f).page q).keys i = f ((s.page q).keys i) := fun _ _ => rfl
        show (if _ = _ then _ else _) = Except.map (mapKeys f) (if _ = _ then _ else _)
        simp only [hkeys, hinj.eq_iff]
        split
        · rfl
        · rw [← ih]
          congr 1
          unfold modify
          rw [mapKeys_set]
          congr 1
          have hupdate : Function.update ((s.page (s.page p).parent).mapKeys f).keys rank
              (f ((s.page p).keys 0)) = fun i =>
                f (Function.update (s.page (s.page p).parent).keys rank ((s.page p).keys 0) i) := by
            funext i
            rw [Function.update_apply, Function.update_apply]
            split <;> rfl
          exact congrArg (fun keys : Nat → L =>
            ({ (s.page (s.page p).parent).mapKeys f with keys := keys } : IxNode L)) hupdate

/-- The last leaf may be another. -/
theorem mapKeys_withLast (t : IxIndexHandle K) (p q : Int) :
    (if p = (t.mapKeys f).lastLeaf then { t.mapKeys f with lastLeaf := q } else t.mapKeys f) =
      (if p = t.lastLeaf then { t with lastLeaf := q } else t).mapKeys f := by
  rw [show (t.mapKeys f).lastLeaf = t.lastLeaf from rfl]
  split <;> rfl

section Insert

variable [Inhabited K] [Inhabited L] (hdefault : f default = default)

include hdefault

/-- `create_node` makes a node without keys. -/
theorem mapKeys_createNode (s : IxIndexHandle K) :
    (s.mapKeys f).createNode = (s.createNode.1, s.createNode.2.mapKeys f) := by
  unfold createNode mapKeys
  dsimp only
  congr 2
  funext x
  by_cases hx : x = s.nextPage
  · subst hx
    simp [IxNode.mapKeys_zero hdefault]
  · simp [hx]

/-- The right half of a node. -/
theorem mapKeys_splitOff (n : IxNode K) : (splitOff n).mapKeys f = splitOff (n.mapKeys f) := by
  unfold splitOff
  dsimp only
  rw [IxNode.mapKeys_insertPairs, ← IxNode.mapKeys_zero hdefault]
  rfl

/-- `split` moves keys without looking at them. -/
theorem mapKeys_split (s : IxIndexHandle K) (p : Int) :
    (s.mapKeys f).split p = ((s.split p).1, (s.split p).2.mapKeys f) := by
  have hloop : ∀ (l : List Nat) (q : Int) (t : IxIndexHandle K),
      (l.foldl (fun s i => s.maintainChild q i) t).mapKeys f =
        l.foldl (fun s i => s.maintainChild q i) (t.mapKeys f) := by
    intro l q
    induction l with
    | nil => exact fun _ => rfl
    | cons i l ih =>
      intro t
      rw [List.foldl_cons, ih, mapKeys_maintainChild, List.foldl_cons]
  unfold split
  dsimp only
  rw [mapKeys_createNode hdefault, show (s.mapKeys f).page p = (s.page p).mapKeys f from rfl,
    show ((s.page p).mapKeys f).isLeaf = (s.page p).isLeaf from rfl, ← mapKeys_splitOff hdefault]
  split
  · have hfinish : ∀ t : IxIndexHandle K, (if (t.mapKeys f).lastLeaf = p then
        { t.mapKeys f with lastLeaf := s.createNode.1 } else t.mapKeys f) =
        (if t.lastLeaf = p then { t with lastLeaf := s.createNode.1 } else t).mapKeys f := by
      intro t
      rw [show (t.mapKeys f).lastLeaf = t.lastLeaf from rfl]
      split <;> rfl
    refine congrArg (Prod.mk _) ?_
    rw [← hfinish, mapKeys_set, mapKeys_set]
    rfl
  · dsimp only
    rw [hloop, mapKeys_set, mapKeys_set]
    rfl

omit hdefault

variable [Ord K] [Ord L] (hf : ∀ a b, compare (f a) (f b) = compare a b)

include hf

omit [Inhabited K] [Inhabited L] in
/-- The insertion into a leaf. -/
theorem mapKeys_insertInto (s : IxIndexHandle K) (p : Int) (k : K) (v : Rid) :
    (s.insertInto p k v).mapKeys f = (s.mapKeys f).insertInto p (f k) v := by
  have hmod : (s.modify p (·.insert k v)).mapKeys f = (s.mapKeys f).modify p (·.insert (f k) v) := by
    unfold modify
    rw [mapKeys_set, IxNode.mapKeys_insert hf]
    rfl
  have hcalls : (s.insertCalls ++ [(s.page p, k, v)]).map (fun c => (c.1.mapKeys f, f c.2.1, c.2.2)) =
      (s.mapKeys f).insertCalls ++ [((s.mapKeys f).page p, f k, v)] := by
    rw [List.map_append]
    rfl
  unfold insertInto
  rw [← hmod, ← hcalls]
  rfl

omit [Inhabited K] [Inhabited L] in
/-- The way down depends on comparisons only. -/
theorem mapKeys_findLeafPage (s : IxIndexHandle K) (k : K) :
    (s.mapKeys f).findLeafPage (f k) = s.findLeafPage k := by
  have hloop : ∀ (fuel : Nat) (p : Int),
      (s.mapKeys f).findLeafFrom (f k) fuel p = s.findLeafFrom k fuel p := by
    intro fuel
    induction fuel with
    | zero => exact fun _ => rfl
    | succ fuel ih =>
      intro p
      rw [findLeafFrom, findLeafFrom, ih,
        show ((s.mapKeys f).page p).internalLookup (f k) = (s.page p).internalLookup k from
          IxNode.mapKeys_internalLookup hf _ _]
      rfl
  exact hloop _ _

omit [Inhabited K] [Inhabited L] in
/-- **`get_value`** does not notice. -/
theorem mapKeys_getValue (s : IxIndexHandle K) (k : K) : (s.mapKeys f).getValue (f k) = s.getValue k := by
  unfold getValue
  rw [mapKeys_findLeafPage hf]
  cases s.findLeafPage k with
  | error e => rfl
  | ok p => exact congrArg Except.ok (IxNode.mapKeys_leafLookup hf (s.page p) k)

include hdefault

/-- The way up moves keys without looking at them. -/
theorem mapKeys_insertIntoParent (fuel : Nat) (s : IxIndexHandle K) (p q : Int) :
    insertIntoParent fuel (s.mapKeys f) p q = (insertIntoParent fuel s p q).map (mapKeys f) := by
  induction fuel generalizing s p q with
  | zero => rfl
  | succ fuel ih =>
    rw [insertIntoParent, insertIntoParent,
      show ((s.mapKeys f).page p).isRootPage = (s.page p).isRootPage from rfl]
    by_cases hroot : (s.page p).isRootPage = true
    · rw [if_pos hroot, if_pos hroot, mapKeys_createNode hdefault]
      have hentries : ∀ a b : K, (({ IxNode.zero with parent := -1 }.insertPair 0 a ⟨p, -1⟩).insertPair 1
          b ⟨q, -1⟩ : IxNode K).mapKeys f = ({ IxNode.zero with parent := -1 }.insertPair 0 (f a)
            ⟨p, -1⟩).insertPair 1 (f b) ⟨q, -1⟩ := by
        intro a b
        rw [IxNode.mapKeys_insertPair, IxNode.mapKeys_insertPair, ← IxNode.mapKeys_zero hdefault]
        rfl
      refine congrArg (fun t : IxIndexHandle L =>
        Except.ok { t with rootPage := s.createNode.1 }) (?_ : _ =
          (((s.createNode.2.set s.createNode.1 _).setParent p s.createNode.1).setParent q
            s.createNode.1).mapKeys f)
      rw [mapKeys_setParent, mapKeys_setParent, mapKeys_set, hentries]
      rfl
    · rw [if_neg hroot, if_neg hroot]
      dsimp only
      rw [show ((s.mapKeys f).page q).parent = (s.page q).parent from rfl,
        show ((s.mapKeys f).page q).keys 0 = f ((s.page q).keys 0) from rfl, ← mapKeys_insertInto hf]
      generalize s.insertInto (s.page q).parent ((s.page q).keys 0) ⟨q, -1⟩ = s₁
      generalize (s.page q).parent = P
      by_cases hfull : (s₁.page P).numKey = s₁.maxSize
      · rw [if_pos hfull, if_pos (show ((s₁.mapKeys f).page P).numKey = (s₁.mapKeys f).maxSize from hfull),
          mapKeys_split hdefault]
        dsimp only
        rw [ih]
        cases insertIntoParent fuel (s₁.split P).2 P (s₁.split P).1 with
        | error e => rfl
        | ok t => exact congrArg Except.ok (mapKeys_withLast t P _)
      · rw [if_neg hfull, if_neg (show ¬ ((s₁.mapKeys f).page P).numKey = (s₁.mapKeys f).maxSize from hfull)]
        rfl

variable [DecidableEq K] [DecidableEq L] (hinj : Function.Injective f)

include hinj

/-- `insert_entry` under a renaming that keeps the order. -/
theorem mapKeys_insertEntry (s : IxIndexHandle K) (k : K) (v : Rid) :
    (s.mapKeys f).insertEntry (f k) v = (s.insertEntry k v).map fun r => (r.1, r.2.mapKeys f) := by
  unfold insertEntry
  rw [mapKeys_findLeafPage hf]
  cases s.findLeafPage k with
  | error e => rfl
  | ok p =>
    show (maintainParent s.fuel ((s.mapKeys f).insertInto p (f k) v) p).bind _ =
      Except.map _ ((maintainParent s.fuel (s.insertInto p k v) p).bind _)
    rw [← mapKeys_insertInto hf, mapKeys_maintainParent hinj]
    cases maintainParent s.fuel (s.insertInto p k v) p with
    | error e => rfl
    | ok s₁ =>
      dsimp only [Except.map, Except.bind]
      by_cases hfull : (s₁.page p).numKey = s₁.maxSize
      · rw [if_pos hfull, if_pos (show ((s₁.mapKeys f).page p).numKey = (s₁.mapKeys f).maxSize from hfull),
          mapKeys_split hdefault]
        dsimp only
        rw [show ((s₁.split p).2.mapKeys f).fuel = (s₁.split p).2.fuel from rfl,
          mapKeys_insertIntoParent hdefault hf]
        cases insertIntoParent (s₁.split p).2.fuel (s₁.split p).2 p (s₁.split p).1 with
        | error e => rfl
        | ok t => exact congrArg (fun t => Except.ok (p, t)) (mapKeys_withLast t p _)
      · rw [if_neg hfull, if_neg (show ¬ ((s₁.mapKeys f).page p).numKey = (s₁.mapKeys f).maxSize from hfull)]
        rfl

/-- **A run** does not notice. -/
theorem mapKeys_insertEntries (s : IxIndexHandle K) (ops : List (K × Rid)) :
    (s.mapKeys f).insertEntries (ops.map fun op => (f op.1, op.2)) = (s.insertEntries ops).map (mapKeys f) := by
  induction ops generalizing s with
  | nil => rfl
  | cons op ops ih =>
    unfold insertEntries at ih ⊢
    rw [List.map_cons, List.foldlM_cons, List.foldlM_cons, mapKeys_insertEntry hdefault hf hinj]
    cases s.insertEntry op.1 op.2 with
    | error e => rfl
    | ok r => exact ih r.2

omit hf hinj [Ord K] [Ord L] [DecidableEq K] [DecidableEq L] in
/-- A new index has no keys. -/
theorem mapKeys_create (btreeOrder : Nat) :
    (create btreeOrder : IxIndexHandle K).mapKeys f = create btreeOrder := by
  have hzero := IxNode.mapKeys_zero hdefault
  unfold create mapKeys
  congr 1
  funext p
  dsimp only
  split
  · unfold leafHeader
    rw [← hzero]
    rfl
  · split
    · unfold initRoot
      rw [← hzero]
      rfl
    · exact hzero

end Insert

/-- Whether the calls of `insert` add their pairs does not depend on the names of the keys. -/
theorem callsAdd_map [Ord K] [Ord L] (hf : ∀ a b, compare (f a) (f b) = compare a b)
    (s : IxIndexHandle K) : CallsAdd (s.mapKeys f) ↔ CallsAdd s := by
  have hadds : ∀ (n : IxNode K) (k : K) (v : Rid), (n.mapKeys f).Adds (f k) v ↔ n.Adds k v := by
    intro n k v
    unfold IxNode.Adds
    rw [← IxNode.mapKeys_insert hf]
    refine imp_congr (forall_congr' fun i => imp_congr Iff.rfl ?_) Iff.rfl
    rw [show (n.mapKeys f).keys i = f (n.keys i) from rfl, hf]
  unfold CallsAdd
  rw [show (s.mapKeys f).insertCalls = s.insertCalls.map fun c => (c.1.mapKeys f, f c.2.1, c.2.2) from rfl,
    List.forall_mem_map]
  exact forall_congr' fun c => imp_congr Iff.rfl (hadds _ _ _)

end IxIndexHandle

namespace IxKey

variable {cols : List IxCol}

/-- Different keys have different bytes. -/
theorem raw_injective : Function.Injective (raw : IxKey cols → RawKey cols) := by
  rintro ⟨a, ha, ha'⟩ ⟨b, hb, hb'⟩ h
  obtain rfl : a = b := congrArg RawKey.bytes h
  rfl

end IxKey

namespace IxIndexHandle

variable {cols : List IxCol}

/-- The keys of a run have the right length and no NaN. -/
def GoodKeys (ops : List (RawKey cols × Rid)) : Prop :=
  ∀ op ∈ ops, op.1.bytes.length = colTotLen cols ∧ NoNaN cols op.1.bytes

/-- Buffers without NaN are those of keys. -/
theorem GoodKeys.exists_keys {ops : List (RawKey cols × Rid)} (h : GoodKeys ops) :
    ∃ keys : List (IxKey cols × Rid), ops = keys.map fun op => (op.1.raw, op.2) := by
  induction ops with
  | nil => exact ⟨[], rfl⟩
  | cons op ops ih =>
    obtain ⟨keys, rfl⟩ := ih fun op' hop' => h op' (List.mem_cons_of_mem _ hop')
    obtain ⟨hlen, hnan⟩ := h op List.mem_cons_self
    exact ⟨(⟨op.1.bytes, hlen, hnan⟩, op.2) :: keys, rfl⟩

/-- **A run on bytes** that are keys ends, and has all its pairs just if each call has added its own. -/
theorem insertEntries_raw {btreeOrder : Nat} (horder : 3 ≤ btreeOrder)
    {ops : List (RawKey cols × Rid)} (hgood : GoodKeys ops) :
    ∃ s, (create btreeOrder).insertEntries ops = .ok s ∧
      ((ops.Pairwise fun a b => compare a.1 b.1 ≠ .eq) →
        ((∀ op ∈ ops, s.getValue op.1 = .ok (some op.2)) ↔ CallsAdd s)) := by
  obtain ⟨keys, rfl⟩ := hgood.exists_keys
  have hf : ∀ a b : IxKey cols, compare a.raw b.raw = compare a b := IxKey.compare_raw
  have hdefault : IxKey.raw (default : IxKey cols) = default := rfl
  obtain ⟨t, leaves, levels, hrun, -⟩ := searchTree_insertEntries horder keys
  have hmap := mapKeys_insertEntries (f := IxKey.raw) hdefault hf IxKey.raw_injective (create btreeOrder)
    keys
  rw [mapKeys_create hdefault, hrun] at hmap
  refine ⟨t.mapKeys IxKey.raw, hmap, fun hdistinct => ?_⟩
  rw [List.pairwise_map] at hdistinct
  rw [callsAdd_map hf, ← insertEntries_all_iff horder hdistinct hrun, List.forall_mem_map]
  simp only [mapKeys_getValue hf]

end IxIndexHandle

end Rmdb
