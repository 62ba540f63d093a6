import Rmdb.Index.TreeInvariant

namespace Rmdb

namespace IxIndexHandle

/-!
# Repairing separators (`maintain_parent`)

After the first key of a node has changed, one separator may be wrong.  `maintain_parent` corrects it;
if it was the first key of its node, the one above it is wrong now, and so on.

* `KeysMoved` — only keys of inner nodes change;
* `ChildSlot` — the slot of a node in its parent, and `ChildSlot.seps_setSep`, its repair;
* `maintainParent_spec` — afterwards all separators are right;
* `AlikeBut`, `AlikeBut.repair` — a level in which one node has another first key, and its repair.
-/

variable {K : Type} {s s' s'' : IxIndexHandle K} {below lvl : List Int} {levels : List (List Int)}

/-- Only keys of nodes of these levels change. -/
structure KeysMoved (s s' : IxIndexHandle K) (levels : List (List Int)) : Prop where
  header : s' = { s with page := s'.page }
  frame : ∀ p ∉ levels.flatten, s'.page p = s.page p
  keys : ∀ p, s'.page p = { s.page p with keys := (s'.page p).keys }

namespace KeysMoved

/-- Nothing is moved. -/
theorem refl (s : IxIndexHandle K) (levels : List (List Int)) : KeysMoved s s levels :=
  ⟨rfl, fun _ _ => rfl, fun _ => rfl⟩

/-- One change after another. -/
theorem trans (h : KeysMoved s s' levels) (h' : KeysMoved s' s'' levels) :
    KeysMoved s s'' levels where
  header := by
    rw [h'.header, h.header]
  frame p hp := (h'.frame p hp).trans (h.frame p hp)
  keys p := by
    rw [h'.keys p, h.keys p]

/-- One more level below. -/
theorem mono (h : KeysMoved s s' levels) : KeysMoved s s' (lvl :: levels) where
  header := h.header
  frame p hp := h.frame p fun hp' => hp (List.mem_append_right _ hp')
  keys := h.keys

/-- The sizes stay. -/
theorem numKey (h : KeysMoved s s' levels) (p : Int) : (s'.page p).numKey = (s.page p).numKey := by
  rw [h.keys p]

/-- The parents stay. -/
theorem parent (h : KeysMoved s s' levels) (p : Int) : (s'.page p).parent = (s.page p).parent := by
  rw [h.keys p]

/-- The links stay. -/
theorem sameLinks (h : KeysMoved s s' levels) (p : Int) : SameLinks (s.page p) (s'.page p) := by
  refine ⟨by rw [h.keys p], ?_⟩
  unfold IxNode.entries
  rw [List.map_map, List.map_map, h.numKey p]
  refine List.map_congr_left fun i _ => ?_
  show ((s'.page p).rids i).pageNo = _
  rw [h.keys p]
  rfl

/-- The shape of the tree stays. -/
theorem shape (h : KeysMoved s s' levels) (hs : Shape s below levels) : Shape s' below levels :=
  hs.congr (by rw [h.header]) (fun p _ => h.parent p) fun p _ => ⟨h.sameLinks p, h.parent p⟩

/-- The bounds on the sizes stay. -/
theorem filled (h : KeysMoved s s' levels) (hf : Filled s levels) : Filled s' levels :=
  hf.congr (by rw [h.header]) fun p _ => h.numKey p

end KeysMoved

/-! ### Children -/

/-- A page number of a node is one of its children. -/
theorem valueAt_mem_children {p : Int} {i : Nat} (hi : i < (s.page p).numKey) :
    (s.page p).valueAt i ∈ s.children p := by
  refine mem_children.mpr ⟨((s.page p).keys i, (s.page p).rids i), ?_, rfl⟩
  rw [List.mem_iff_getElem?]
  exact ⟨i, by rw [IxNode.getElem?_entries, if_pos hi]⟩

/-- A pair of a node, by its slot. -/
theorem exists_slot {p : Int} {e : K × Rid} (he : e ∈ (s.page p).entries) :
    ∃ i < (s.page p).numKey, e = ((s.page p).keys i, (s.page p).rids i) := by
  obtain ⟨i, hi⟩ := List.mem_iff_getElem?.mp he
  rw [IxNode.getElem?_entries] at hi
  split at hi
  · rename_i h
    exact ⟨i, h, (Option.some.inj hi).symm⟩
  · cases hi

/-- `find_child` finds each child. -/
theorem findChild_of_mem {p c : Int} (h : c ∈ s.children p) :
    ∃ i < (s.page p).numKey, (s.page p).findChild c = .ok i ∧ (s.page p).valueAt i = c := by
  obtain ⟨e, he, rfl⟩ := mem_children.mp h
  obtain ⟨j, hj, rfl⟩ := exists_slot he
  unfold IxNode.findChild
  cases hf : (List.range (s.page p).numKey).find?
      fun i => (s.page p).valueAt i = ((s.page p).rids j).pageNo with
  | none =>
    have := List.find?_eq_none.mp hf j (List.mem_range.mpr hj)
    rw [decide_eq_true_eq] at this
    exact absurd rfl this
  | some i =>
    have hi := List.find?_some hf
    rw [decide_eq_true_eq] at hi
    exact ⟨i, List.mem_range.mp (List.mem_of_find?_eq_some hf), rfl, hi⟩

/-- Two slots of a node have different children. -/
theorem valueAt_inj {p : Int} (h : (s.children p).Nodup) {i j : Nat} (hi : i < (s.page p).numKey)
    (hj : j < (s.page p).numKey) (hij : (s.page p).valueAt i = (s.page p).valueAt j) : i = j := by
  have hget : ∀ k (hk : k < (s.page p).numKey),
      (s.children p)[k]? = some ((s.page p).valueAt k) := by
    intro k hk
    unfold children
    rw [List.getElem?_map, IxNode.getElem?_entries, if_pos hk]
    rfl
  have hlen : i < (s.children p).length := by rw [length_children]; exact hi
  exact (List.getElem?_inj hlen h).mp (by rw [hget i hi, hget j hj, hij])

/-- No child is listed twice. -/
theorem Linked.children_nodup (h : Linked s lvl below) (hnd : below.Nodup) {p : Int} (hp : p ∈ lvl) :
    (s.children p).Nodup := by
  refine hnd.sublist ?_
  rw [h.flat]
  exact List.sublist_flatten_of_mem (List.mem_map_of_mem hp)

/-! ### One separator -/

/-- A page after a write. -/
theorem page_set (s : IxIndexHandle K) (q : Int) (n : IxNode K) (p : Int) :
    (s.set q n).page p = if p = q then n else s.page p := Function.update_apply _ _ _ _

/-- A page after a change. -/
theorem page_modify (s : IxIndexHandle K) (q : Int) (f : IxNode K → IxNode K) (p : Int) :
    (s.modify q f).page p = if p = q then f (s.page q) else s.page p :=
  Function.update_apply _ _ _ _

/-- The slot `rank` of the node `q` gets the first key of `c`. -/
def setSep (s : IxIndexHandle K) (q : Int) (rank : Nat) (c : Int) : IxIndexHandle K :=
  s.modify q fun n => { n with keys := Function.update n.keys rank (s.firstKey c) }

/-- Only one key of one page changes. -/
theorem page_setSep (s : IxIndexHandle K) (q : Int) (rank : Nat) (c p : Int) :
    (s.setSep q rank c).page p = if p = q then
      { s.page q with keys := Function.update (s.page q).keys rank (s.firstKey c) }
      else s.page p := by
  unfold setSep
  rw [page_modify]

/-- Everything but the keys stays. -/
theorem setSep_keys (s : IxIndexHandle K) (q : Int) (rank : Nat) (c p : Int) :
    (s.setSep q rank c).page p = { s.page p with keys := ((s.setSep q rank c).page p).keys } := by
  rw [page_setSep]
  split
  · rename_i hpq
    rw [hpq]
  · rfl

/-- The node `q` of the level has `c` in its slot `rank`. -/
structure ChildSlot (s : IxIndexHandle K) (lvl : List Int) (q : Int) (rank : Nat) (c : Int) : Prop where
  mem : q ∈ lvl
  lt : rank < (s.page q).numKey
  valueAt : (s.page q).valueAt rank = c

namespace ChildSlot

variable {q c : Int} {rank : Nat}

/-- A node is in one slot of the level. -/
theorem only (h : ChildSlot s lvl q rank c) (hlink : Linked s lvl below) (hnd : below.Nodup) {p : Int}
    (hp : p ∈ lvl) {i : Nat} (hi : i < (s.page p).numKey) (hic : (s.page p).valueAt i = c) :
    p = q ∧ i = rank := by
  have hcp : c ∈ s.children p := hic ▸ valueAt_mem_children hi
  have hcq : c ∈ s.children q := h.valueAt ▸ valueAt_mem_children h.lt
  have hpq : p = q := (hlink.parent p hp c hcp).symm.trans (hlink.parent q h.mem c hcq)
  subst hpq
  exact ⟨rfl, valueAt_inj (hlink.children_nodup hnd hp) hi h.lt (hic.trans h.valueAt.symm)⟩

/-- The separator of `c` is right, and so are all of the level. -/
theorem seps (h : ChildSlot s lvl q rank c) (hlink : Linked s lvl below) (hnd : below.Nodup)
    (hsep : SepsBut s c lvl) (heq : (s.page q).keys rank = s.firstKey c) : Seps s lvl := by
  intro p hp e he
  by_cases hec : e.2.pageNo = c
  · obtain ⟨i, hi, rfl⟩ := exists_slot he
    obtain ⟨rfl, rfl⟩ := h.only hlink hnd hp hi hec
    show (s.page p).keys i = s.firstKey ((s.page p).rids i).pageNo
    rw [heq, show ((s.page p).rids i).pageNo = c from hec]
  · exact hsep p hp e he hec

/-- A separator that is set is such a change. -/
theorem keysMoved (h : ChildSlot s lvl q rank c) (rest : List (List Int)) :
    KeysMoved s (s.setSep q rank c) (lvl :: rest) := by
  refine ⟨rfl, fun p hp => ?_, s.setSep_keys q rank c⟩
  rw [page_setSep, if_neg fun hpq : p = q => hp (List.mem_append_left _ (hpq ▸ h.mem))]

/-- **After the write all separators of the level are right.** -/
theorem seps_setSep (h : ChildSlot s lvl q rank c) (hlink : Linked s lvl below) (hnd : below.Nodup)
    (hq : q ∉ below) (hsep : SepsBut s c lvl) : Seps (s.setSep q rank c) lvl := by
  have hmoved := h.keysMoved []
  intro p hp e he
  obtain ⟨i, hi, rfl⟩ := exists_slot he
  have hi' : i < (s.page p).numKey := by rw [hmoved.numKey] at hi; exact hi
  have hrid : ((s.setSep q rank c).page p).rids i = (s.page p).rids i := by rw [hmoved.keys p]
  have hmem : ((s.page p).rids i).pageNo ∈ below :=
    hlink.mem_below hp (valueAt_mem_children hi')
  show ((s.setSep q rank c).page p).keys i =
    (s.setSep q rank c).firstKey (((s.setSep q rank c).page p).rids i).pageNo
  have hne : ((s.page p).rids i).pageNo ≠ q := fun hpq => hq (hpq ▸ hmem)
  unfold firstKey
  rw [hrid, page_setSep s q rank c ((s.page p).rids i).pageNo, if_neg hne]
  by_cases hic : (s.page p).valueAt i = c
  · obtain ⟨rfl, rfl⟩ := h.only hlink hnd hp hi' hic
    rw [show ((s.page p).rids i).pageNo = c from hic, page_setSep, if_pos rfl]
    exact Function.update_self _ _ _
  · have hold : ((s.setSep q rank c).page p).keys i = (s.page p).keys i := by
      rw [page_setSep]
      split
      · rename_i hpq
        subst hpq
        refine Function.update_of_ne (fun hir => hic ?_) _ _
        rw [hir]
        exact h.valueAt
      · rfl
    rw [hold]
    exact hsep p hp _ (List.mem_iff_getElem?.mpr
      ⟨i, by rw [IxNode.getElem?_entries, if_pos hi']⟩) hic

end ChildSlot

/-! ### The loop -/

section Loop

variable [DecidableEq K]

/-- A round of `maintain_parent`: it stops where the separator is right already. -/
theorem maintainParent_succ {fuel : Nat} {c q : Int} {rank : Nat} (hc : (s.page c).parent = q)
    (hq : q ≠ -1) (hfind : (s.page q).findChild c = .ok rank) :
    maintainParent (fuel + 1) s c =
      if (s.page q).keys rank = s.firstKey c then .ok s
      else maintainParent fuel (s.setSep q rank c) q := by
  rw [maintainParent, hc, if_neg hq]
  dsimp only
  rw [hfind]
  rfl

/-- **`maintain_parent`.** If all separators are right but perhaps that of the node, all are right
    afterwards. -/
theorem maintainParent_spec {fuel : Nat} {c : Int} (hfuel : levels.length < fuel)
    (hshape : Shape s below levels) (hnd : (below ++ levels.flatten).Nodup)
    (hpos : ∀ p ∈ levels.flatten, p ≠ -1) (hc : c ∈ below)
    (hhead : ∀ l ∈ levels.head?, SepsBut s c l) (htail : ∀ l ∈ levels.tail, Seps s l) :
    ∃ s', maintainParent fuel s c = .ok s' ∧ KeysMoved s s' levels ∧ ∀ l ∈ levels, Seps s' l := by
  induction levels generalizing s below c fuel with
  | nil =>
    obtain ⟨fuel, rfl⟩ := Nat.exists_eq_add_one_of_ne_zero (Nat.ne_of_gt hfuel)
    cases hshape with
    | root hr hp =>
      rw [List.mem_singleton] at hc
      subst hc
      refine ⟨s, ?_, .refl s _, fun _ hl => absurd hl List.not_mem_nil⟩
      rw [maintainParent, if_pos hp]
  | cons lvl rest ih =>
    obtain ⟨fuel, rfl⟩ := Nat.exists_eq_add_one_of_ne_zero (Nat.ne_of_gt (Nat.lt_of_le_of_lt
      (Nat.zero_le _) hfuel))
    cases hshape with
    | level hlink hrest =>
    rw [List.flatten_cons] at hnd hpos
    obtain ⟨hbelow, hup, hdisj⟩ := List.nodup_append.mp hnd
    obtain ⟨hq, hcq⟩ := hlink.exists_parent hc
    generalize hqdef : (s.page c).parent = q at hq hcq
    obtain ⟨rank, hrank, hfind, hval⟩ := findChild_of_mem hcq
    have hslot : ChildSlot s lvl q rank c := ⟨hq, hrank, hval⟩
    have hqb : q ∉ below := fun hqb => hdisj q hqb q (List.mem_append_left _ hq) rfl
    rw [maintainParent_succ hqdef (hpos q (List.mem_append_left _ hq)) hfind]
    by_cases heq : (s.page q).keys rank = s.firstKey c
    · -- the separator is right, and so are those above it
      rw [if_pos heq]
      have hlvl := hslot.seps hlink hbelow (hhead lvl rfl) heq
      exact ⟨s, rfl, .refl s _, List.forall_mem_cons.mpr ⟨hlvl, htail⟩⟩
    · rw [if_neg heq]
      have hmoved := hslot.keysMoved rest
      have hlvl := hslot.seps_setSep hlink hbelow hqb (hhead lvl rfl)
      have hrq : ∀ p ∈ rest.flatten, (s.setSep q rank c).page p = s.page p := by
        intro p hp
        rw [page_setSep, if_neg fun h => (List.nodup_append.mp hup).2.2 q hq p hp h.symm]
      have hshape₁ : Shape (s.setSep q rank c) lvl rest :=
        hrest.congr (by rw [hmoved.header]) (fun p _ => hmoved.parent p)
          fun p _ => ⟨hmoved.sameLinks p, hmoved.parent p⟩
      -- above, only the separator of `q` may be wrong
      have hhead₁ : ∀ l ∈ rest.head?, SepsBut (s.setSep q rank c) q l := by
        intro l hl p hp e he hne
        have hlrest : l ∈ rest := List.mem_of_mem_head? hl
        have hpr : p ∈ rest.flatten := List.mem_flatten.mpr ⟨l, hlrest, hp⟩
        rw [hrq p hpr] at he
        unfold firstKey
        rw [page_setSep, if_neg hne]
        exact htail l hlrest p hp e he
      have htail₁ : ∀ l ∈ rest.tail, Seps (s.setSep q rank c) l := by
        cases hrest with
        | root => exact fun _ hl => absurd hl List.not_mem_nil
        | level hlink' hrest' =>
          refine hrest'.seps_congr (fun l hl => htail l (List.mem_cons_of_mem _ hl))
            (fun p hp => by rw [hrq p (List.mem_append_right _ hp)]) fun p hp => ?_
          unfold firstKey
          rw [hrq p hp]
      obtain ⟨s', hs', hkeys, hseps'⟩ := ih (Nat.lt_of_succ_lt_succ hfuel) hshape₁ hup
        (fun p hp => hpos p (List.mem_append_right _ hp)) hq hhead₁ htail₁
      refine ⟨s', hs', hmoved.trans hkeys.mono, List.forall_mem_cons.mpr ⟨?_, hseps'⟩⟩
      -- the levels above are others than this one and the one below
      refine hlvl.congr (fun p hp => ?_) fun p hp x hx => ?_
      · rw [hkeys.frame p fun hp' => (List.nodup_append.mp hup).2.2 p hp p hp' rfl]
      · have hx' : x ∈ below := by
          have hchildren : (s.setSep q rank c).children p = s.children p :=
            (hmoved.sameLinks p).children
          rw [hchildren] at hx
          exact hlink.mem_below hp hx
        unfold firstKey
        rw [hkeys.frame x fun hx'' => hdisj x hx' x (List.mem_append_right _ hx'') rfl]

end Loop

/-- `maintain_parent` of a node whose separator is right changes nothing. -/
theorem Upper.maintainParent_eq [DecidableEq K] (h : Upper s below levels) {c : Int} (hc : c ∈ below)
    (fuel : Nat) : maintainParent (fuel + 1) s c = .ok s := by
  rw [maintainParent]
  cases levels with
  | nil =>
    cases h.shape with
    | root hr hp =>
      rw [List.mem_singleton.mp hc, if_pos hp]
  | cons lvl rest =>
    obtain ⟨hq, hcq⟩ := h.linked.exists_parent hc
    obtain ⟨rank, hrank, hfind, hval⟩ := findChild_of_mem hcq
    have hsep := h.seps _ List.mem_cons_self _ hq _
      (List.mem_iff_getElem?.mpr ⟨rank, by rw [IxNode.getElem?_entries, if_pos hrank]⟩)
    have hval' : ((s.page (s.page c).parent).rids rank).pageNo = c := hval
    rw [hval'] at hsep
    have hpos := (h.range _ (List.mem_append_right _ (List.mem_append_left _ hq))).1
    rw [if_neg (by omega)]
    dsimp only
    rw [hfind]
    exact if_pos hsep

/-! ### A node with another first key -/

/-- The same node in another list of leaves. -/
def Relinked (n n' : IxNode K) : Prop :=
  n' = { n with prevLeaf := n'.prevLeaf, nextLeaf := n'.nextLeaf }

/-- A leaf that is linked anew keeps its pairs. -/
theorem Relinked.entries {n n' : IxNode K} (h : Relinked n n') : n'.entries = n.entries := by
  rw [h]
  rfl

/-- And what it says about the tree. -/
theorem Relinked.sameLinks {n n' : IxNode K} (h : Relinked n n') : SameLinks n n' :=
  ⟨by rw [h], by rw [h.entries]⟩

/-- Seen from the levels above, nothing has changed but the first key of `c`. -/
structure AlikeBut (s s' : IxIndexHandle K) (c : Int) (below : List Int) (levels : List (List Int)) :
    Prop where
  rootPage : s'.rootPage = s.rootPage
  btreeOrder : s'.btreeOrder = s.btreeOrder
  nextPage : s'.nextPage = s.nextPage
  parent : ∀ x ∈ below, (s'.page x).parent = (s.page x).parent
  firstKey : ∀ x ∈ below, x ≠ c → s'.firstKey x = s.firstKey x
  above : ∀ x ∈ levels.flatten, Relinked (s.page x) (s'.page x)

namespace AlikeBut

variable {c : Int}

theorem refl (s : IxIndexHandle K) (c : Int) (below : List Int) (levels : List (List Int)) :
    AlikeBut s s c below levels :=
  ⟨rfl, rfl, rfl, fun _ _ => rfl, fun _ _ _ => rfl, fun _ _ => rfl⟩

/-- The shape of the tree stays. -/
theorem shape (ha : AlikeBut s s' c below levels) (h : Shape s below levels) :
    Shape s' below levels :=
  h.congr ha.rootPage ha.parent fun x hx => ⟨(ha.above x hx).sameLinks, by rw [ha.above x hx]⟩

/-- The bounds on the sizes stay. -/
theorem filled (ha : AlikeBut s s' c below levels) (h : Filled s levels) : Filled s' levels :=
  h.congr ha.btreeOrder fun x hx => by rw [ha.above x hx]

/-- The separators that may be wrong are those of `c`. -/
theorem seps (ha : AlikeBut s s' c below levels) (h : Upper s below levels) :
    (∀ l ∈ levels.head?, SepsBut s' c l) ∧ ∀ l ∈ levels.tail, Seps s' l := by
  cases levels with
  | nil => exact ⟨fun _ hl => (by cases hl), fun _ hl => absurd hl List.not_mem_nil⟩
  | cons lvl rest =>
    refine ⟨fun l hl x hx e he hne => ?_, ?_⟩
    · cases hl
      rw [(ha.above x (List.mem_append_left _ hx)).entries] at he
      rw [ha.firstKey _ (h.linked.mem_below hx (mem_children.mpr ⟨e, he, rfl⟩)) hne]
      exact h.seps _ List.mem_cons_self x hx e he
    · refine h.tail.shape.seps_congr h.tail.seps (fun x hx => ?_) fun x hx => ?_
      · exact (ha.above x (List.mem_append_right _ hx)).entries
      · unfold IxIndexHandle.firstKey
        rw [ha.above x hx]

/-- If the first key stays too, any other child may be the exception. -/
theorem of_firstKey (ha : AlikeBut s s' c below levels) (hc : s'.firstKey c = s.firstKey c) (d : Int) :
    AlikeBut s s' d below levels where
  rootPage := ha.rootPage
  btreeOrder := ha.btreeOrder
  nextPage := ha.nextPage
  parent := ha.parent
  firstKey x hx _ := by
    by_cases hxc : x = c
    · rw [hxc, hc]
    · exact ha.firstKey x hx hxc
  above := ha.above

/-- If the first key of `c` is the same too, the levels above are right. -/
theorem upper (ha : AlikeBut s s' c below levels) (h : Upper s below levels)
    (hc : s'.firstKey c = s.firstKey c) : Upper s' below levels where
  shape := ha.shape h.shape
  seps := h.shape.seps_congr h.seps (fun x hx => (ha.above x hx).entries) fun x hx => by
    rcases List.mem_append.mp hx with hx | hx
    · by_cases hxc : x = c
      · rw [hxc, hc]
      · exact ha.firstKey x hx hxc
    · unfold IxIndexHandle.firstKey
      rw [ha.above x hx]
  filled := ha.filled h.filled
  nodup := h.nodup
  range x hx := by
    rw [ha.nextPage]
    exact h.range x hx

/-- **`maintain_parent` repairs the levels above** a node whose first key has changed. -/
theorem repair [DecidableEq K] (ha : AlikeBut s s' c below levels) (h : Upper s below levels)
    (hc : c ∈ below) : ∃ s'', s'.maintainParent s'.fuel c = .ok s'' ∧ KeysMoved s' s'' levels ∧
      Upper s'' below levels := by
  have hfuel : levels.length < s'.fuel := by
    have hlt := h.length_lt_fuel
    unfold fuel at hlt ⊢
    rw [ha.nextPage]
    omega
  have hpos : ∀ x ∈ levels.flatten, x ≠ -1 := fun x hx => by
    have := (h.range x (List.mem_append_right _ hx)).1
    omega
  obtain ⟨hhead, htail⟩ := ha.seps h
  obtain ⟨s'', hrun, hmoved, hseps⟩ :=
    maintainParent_spec hfuel (ha.shape h.shape) h.nodup hpos hc hhead htail
  refine ⟨s'', hrun, hmoved, hmoved.shape (ha.shape h.shape), hseps,
    hmoved.filled (ha.filled h.filled), h.nodup, fun x hx => ?_⟩
  rw [hmoved.header, ha.nextPage]
  exact h.range x hx

end AlikeBut

end IxIndexHandle

end Rmdb
