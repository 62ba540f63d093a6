import Mathlib.Data.List.AList
import Rmdb.Defs

namespace Rmdb

/-!
# The LRU replacer (`replacer/lru_replacer.{h,cpp}`)

`LRUlist_` is a `std::list` and `LRUhash_` maps a frame to the list node that holds it.  A node is
modelled by its address, so that `LRUlist_.erase(it)` removes the node the iterator names and not a
node with an equal value.

* `LRUReplacer.Inv` — list and hash describe the same frames, each once;
* `LRUReplacer.frames` — the abstract queue, most recent first; the `*_frames` lemmas say what each
  operation does to it.
-/

/-- `frame_id_t`; `INVALID_FRAME_ID` is `none` where it can occur. -/
abbrev FrameId := Nat

/-- `class LRUReplacer` (without the latch and the unused capacity). -/
structure LRUReplacer where
  /-- The nodes of `LRUlist_`: address and value. -/
  lruList : List (Nat × FrameId)
  /-- `LRUhash_`: the address of the node of a frame. -/
  lruHash : AList (fun _ : FrameId => Nat)
  /-- The next unused address. -/
  fresh : Nat

namespace LRUReplacer

/-- The constructor. -/
def new : LRUReplacer := { lruList := [], lruHash := ∅, fresh := 0 }

/-- `LRUReplacer::victim`. -/
def victim (r : LRUReplacer) : Option FrameId × LRUReplacer :=
  match r.lruList.getLast? with
  | none => (none, r)
  | some (_, f) =>
    (some f, { r with lruHash := r.lruHash.erase f, lruList := r.lruList.dropLast })

/-- `LRUReplacer::pin`. -/
def pin (r : LRUReplacer) (f : FrameId) : LRUReplacer :=
  match r.lruHash.lookup f with
  | none => r
  | some it =>
    { r with lruList := r.lruList.eraseP (fun n => n.1 = it), lruHash := r.lruHash.erase f }

/-- `LRUReplacer::unpin`. -/
def unpin (r : LRUReplacer) (f : FrameId) : LRUReplacer :=
  match r.lruHash.lookup f with
  | some _ => r
  | none =>
    { lruList := (r.fresh, f) :: r.lruList
      lruHash := r.lruHash.insert f r.fresh
      fresh := r.fresh + 1 }

/-- The evictable frames, the most recent one first. -/
def frames (r : LRUReplacer) : List FrameId := r.lruList.map Prod.snd

/-- List and hash agree. -/
structure Inv (r : LRUReplacer) : Prop where
  /-- The nodes have different addresses. -/
  nodes : (r.lruList.map Prod.fst).Nodup
  /-- All of them in use. -/
  used : ∀ n ∈ r.lruList, n.1 < r.fresh
  /-- The hash knows exactly the nodes of the list. -/
  hash : ∀ f it, r.lruHash.lookup f = some it ↔ (it, f) ∈ r.lruList

theorem inv_new : new.Inv where
  nodes := by simp [new]
  used := by simp [new]
  hash := by simp [new]

section Ops

variable {r : LRUReplacer}

/-- No frame occurs twice. -/
theorem Inv.frames_nodup (h : r.Inv) : r.frames.Nodup := by
  have hinj : ∀ a ∈ r.lruList, ∀ b ∈ r.lruList, a.2 = b.2 → a = b := by
    rintro ⟨i, f⟩ ha ⟨j, g⟩ hb rfl
    have h₁ := (h.hash f i).mpr ha
    have h₂ := (h.hash f j).mpr hb
    rw [h₁] at h₂
    rw [Option.some.inj h₂]
  exact List.Nodup.map_on (fun a ha b hb => hinj a ha b hb) (List.Nodup.of_map _ h.nodes)

/-- The hash knows exactly the frames of the queue. -/
theorem Inv.lookup_eq_none_iff (h : r.Inv) (f : FrameId) :
    r.lruHash.lookup f = none ↔ f ∉ r.frames := by
  rw [Option.eq_none_iff_forall_ne_some, frames, List.mem_map, not_exists]
  constructor
  · rintro hn ⟨i, g⟩ ⟨hm, rfl⟩
    exact hn i ((h.hash _ _).mpr hm)
  · intro hn i hi
    exact hn (i, f) ⟨(h.hash f i).mp hi, rfl⟩

/-- Erasing a node by its address erases that node alone. -/
theorem mem_eraseP_iff {l : List (Nat × FrameId)} (h : (l.map Prod.fst).Nodup) (it : Nat)
    (n : Nat × FrameId) : n ∈ l.eraseP (fun n => n.1 = it) ↔ n ∈ l ∧ n.1 ≠ it := by
  by_cases hn : n.1 = it
  · simp only [hn, ne_eq, not_true, and_false, iff_false]
    intro hmem
    -- `n` is the node erased, so it would occur twice
    obtain ⟨a, l₁, l₂, hl₁, ha, hl, he⟩ := List.exists_of_eraseP (List.eraseP_subset hmem)
      (p := fun n : Nat × FrameId => n.1 = it) (by simpa using hn)
    rw [he] at hmem
    rw [hl, List.map_append, List.map_cons, List.nodup_middle, List.nodup_cons,
      ← List.map_append] at h
    apply h.1
    rw [List.mem_map]
    exact ⟨n, hmem, hn.trans (of_decide_eq_true ha).symm⟩
  · rw [List.mem_eraseP_of_neg (by simpa using hn)]
    simp [hn]

theorem pin_inv (h : r.Inv) (f : FrameId) : (r.pin f).Inv := by
  unfold pin
  cases hl : r.lruHash.lookup f with
  | none => exact h
  | some it =>
    refine ⟨h.nodes.sublist (List.eraseP_sublist.map _),
      fun n hn => h.used n (List.eraseP_subset hn), fun g j => ?_⟩
    rw [mem_eraseP_iff h.nodes]
    by_cases hg : g = f
    · subst hg
      rw [AList.lookup_erase, ← h.hash g j, hl]
      simp [eq_comm]
    · rw [AList.lookup_erase_ne hg, h.hash g j]
      constructor
      · intro hm
        refine ⟨hm, fun hj => hg ?_⟩
        -- one address is one node
        have hfst : (j, g).1 = (it, f).1 := hj
        have := List.inj_on_of_nodup_map h.nodes hm ((h.hash f it).mp hl) hfst
        exact congrArg Prod.snd this
      · exact fun hm => hm.1

theorem unpin_inv (h : r.Inv) (f : FrameId) : (r.unpin f).Inv := by
  unfold unpin
  cases hl : r.lruHash.lookup f with
  | some it => exact h
  | none =>
    refine ⟨?_, ?_, fun g j => ?_⟩
    · rw [List.map_cons, List.nodup_cons, List.mem_map]
      refine ⟨?_, h.nodes⟩
      rintro ⟨n, hn, hfresh⟩
      exact absurd (h.used n hn) (by rw [hfresh]; exact lt_irrefl _)
    · intro n hn
      rcases List.mem_cons.mp hn with rfl | hn
      · exact Nat.lt_succ_self _
      · exact Nat.lt_succ_of_lt (h.used n hn)
    · rw [List.mem_cons]
      by_cases hg : g = f
      · subst hg
        rw [AList.lookup_insert]
        constructor
        · rintro hj
          exact Or.inl (by rw [Option.some.inj hj])
        · rintro (hj | hj)
          · rw [(Prod.mk.inj hj).1]
          · rw [(h.hash g j).mpr hj] at hl
            cases hl
      · rw [AList.lookup_insert_ne hg, h.hash g j]
        constructor
        · exact Or.inr
        · rintro (hj | hj)
          · exact absurd (Prod.mk.inj hj).2 hg
          · exact hj

theorem victim_inv (h : r.Inv) : r.victim.2.Inv := by
  unfold victim
  cases hlast : r.lruList.getLast? with
  | none => exact h
  | some n =>
    obtain ⟨it, f⟩ := n
    obtain ⟨l, hl⟩ := List.getLast?_eq_some_iff.mp hlast
    have hnd := h.nodes
    rw [hl, List.map_append, List.nodup_append] at hnd
    refine ⟨?_, ?_, fun g j => ?_⟩
    · rw [hl, List.dropLast_concat]
      exact hnd.1
    · intro n hn
      exact h.used n (List.dropLast_subset _ hn)
    · simp only [hl, List.dropLast_concat]
      by_cases hg : g = f
      · subst hg
        rw [AList.lookup_erase]
        simp only [reduceCtorEq, false_iff]
        intro hm
        have h₁ := (h.hash g j).mpr (by rw [hl]; exact List.mem_append_left _ hm)
        have h₂ := (h.hash g it).mpr (by rw [hl]; simp)
        rw [h₁] at h₂
        exact hnd.2.2 j (List.mem_map.mpr ⟨_, hm, rfl⟩) it (by simp) (Option.some.inj h₂)
      · rw [AList.lookup_erase_ne hg, h.hash g j, hl, List.mem_append, List.mem_singleton]
        constructor
        · rintro (hm | hm)
          · exact hm
          · exact absurd (Prod.mk.inj hm).2 hg
        · exact Or.inl

/-! ### What the operations do to the queue -/

/-- `pin` takes the frame out. -/
theorem mem_pin_frames (h : r.Inv) (f g : FrameId) :
    g ∈ (r.pin f).frames ↔ g ∈ r.frames ∧ g ≠ f := by
  unfold pin
  cases hl : r.lruHash.lookup f with
  | none =>
    have hf := (h.lookup_eq_none_iff f).mp hl
    constructor
    · exact fun hg => ⟨hg, fun heq => hf (heq ▸ hg)⟩
    · exact fun hg => hg.1
  | some it =>
    simp only [frames, List.mem_map, mem_eraseP_iff h.nodes]
    constructor
    · rintro ⟨n, ⟨hn, hne⟩, rfl⟩
      refine ⟨⟨n, hn, rfl⟩, fun heq => hne ?_⟩
      have h₁ := (h.hash n.2 n.1).mpr hn
      rw [heq, hl] at h₁
      exact (Option.some.inj h₁).symm
    · rintro ⟨⟨n, hn, rfl⟩, hne⟩
      refine ⟨n, ⟨hn, fun heq => hne ?_⟩, rfl⟩
      have hfst : n.1 = (it, f).1 := heq
      have := List.inj_on_of_nodup_map h.nodes hn ((h.hash f it).mp hl) hfst
      rw [this]

/-- `unpin` puts it in. -/
theorem mem_unpin_frames (h : r.Inv) (f g : FrameId) :
    g ∈ (r.unpin f).frames ↔ g ∈ r.frames ∨ g = f := by
  unfold unpin
  cases hl : r.lruHash.lookup f with
  | some it =>
    have hf : f ∈ r.frames := List.mem_map.mpr ⟨_, (h.hash f it).mp hl, rfl⟩
    constructor
    · exact Or.inl
    · rintro (hg | rfl)
      · exact hg
      · exact hf
  | none =>
    simp only [frames, List.map_cons, List.mem_cons]
    exact or_comm

/-- `victim` fails exactly on the empty queue. -/
theorem victim_eq_none_iff : r.victim.1 = none ↔ r.frames = [] := by
  unfold victim frames
  cases hlast : r.lruList.getLast? with
  | none => simpa using hlast
  | some n =>
    have : r.lruList ≠ [] := by
      intro h
      rw [h] at hlast
      cases hlast
    simpa using this

/-- `victim` takes its frame out of the queue. -/
theorem mem_victim_frames (h : r.Inv) {f : FrameId} (hv : r.victim.1 = some f) (g : FrameId) :
    g ∈ r.victim.2.frames ↔ g ∈ r.frames ∧ g ≠ f := by
  have hnd := h.frames_nodup
  revert hv
  unfold victim
  cases hlast : r.lruList.getLast? with
  | none =>
    intro hv
    cases hv
  | some n =>
    intro hv
    obtain ⟨l, hl⟩ := List.getLast?_eq_some_iff.mp hlast
    have hn : n.2 = f := Option.some.inj hv
    rw [frames, hl, List.map_append, List.nodup_append] at hnd
    simp only [frames, hl, List.dropLast_concat, List.map_append, List.mem_append,
      List.map_singleton, List.mem_singleton, hn]
    constructor
    · exact fun hg => ⟨Or.inl hg, hnd.2.2 g hg f (by simp [hn])⟩
    · rintro ⟨hg | hg, hne⟩
      · exact hg
      · exact absurd hg hne

theorem victim_mem {f : FrameId} (hv : r.victim.1 = some f) : f ∈ r.frames := by
  revert hv
  unfold victim
  cases hlast : r.lruList.getLast? with
  | none =>
    intro hv
    cases hv
  | some n =>
    intro hv
    rw [← Option.some.inj hv]
    exact List.mem_map.mpr ⟨n, List.mem_of_getLast? hlast, rfl⟩

end Ops

end LRUReplacer

end Rmdb
