import Rmdb.Lib.AgeQueue
import Rmdb.Storage.LruReplacer

namespace Rmdb

open Lib

/-!
# The replacer as a queue by age (`replacer/lru_replacer.cpp`)

A frame becomes evictable by an `unpin` while it is not evictable, and stops by a `pin` or by being the
victim.  Whatever is called in whatever order, `LRUlist_` is the queue of this history:

* `LRUReplacer.unpin_frames`, `pin_frames`, `victim_frames` — the list after each call;
* `LruRun` — the calls so far, as events of a queue;
* `lruReplacer_refines_queue` — list and hash agree, the list is ordered by age, and `victim` returns the
  frame that has been evictable longest.
-/

namespace LRUReplacer

variable {r : LRUReplacer} {f : FrameId}

/-! ### The list after a call -/

theorem mem_frames_iff_lookup (h : r.Inv) : f ∈ r.frames ↔ ∃ it, r.lruHash.lookup f = some it := by
  rw [← Option.ne_none_iff_exists', ne_eq, h.lookup_eq_none_iff f, not_not]

/-- `unpin` of a frame that is there. -/
theorem unpin_of_mem (h : r.Inv) (hf : f ∈ r.frames) : r.unpin f = r := by
  obtain ⟨it, hit⟩ := (mem_frames_iff_lookup h).mp hf
  unfold unpin
  rw [hit]

/-- `unpin` of a frame that is not there puts it in front. -/
theorem unpin_frames (h : r.Inv) (hf : f ∉ r.frames) : (r.unpin f).frames = f :: r.frames := by
  unfold unpin
  rw [(h.lookup_eq_none_iff f).mpr hf]
  rfl

/-- Erasing the node of a frame erases the frame from the list. -/
theorem map_eraseP_node {l : List (Nat × FrameId)} {it : Nat} (hnodes : (l.map Prod.fst).Nodup)
    (hframes : (l.map Prod.snd).Nodup) (hmem : (it, f) ∈ l) :
    (l.eraseP fun n => n.1 = it).map Prod.snd = (l.map Prod.snd).erase f := by
  induction l with
  | nil => cases hmem
  | cons n l ih =>
    rw [List.map_cons, List.nodup_cons] at hnodes hframes
    rcases List.mem_cons.mp hmem with rfl | hmem
    · simp
    · -- the node is further on, so this one is neither it nor of the same frame
      have hit : n.1 ≠ it := by
        rintro rfl
        exact hnodes.1 (List.mem_map.mpr ⟨_, hmem, rfl⟩)
      have hne : n.2 ≠ f := by
        rintro rfl
        exact hframes.1 (List.mem_map.mpr ⟨_, hmem, rfl⟩)
      rw [List.eraseP_cons_of_neg (by simpa using hit), List.map_cons, List.map_cons,
        List.erase_cons_tail (by simpa using hne), ih hnodes.2 hframes.2 hmem]

/-- `pin` takes the frame out of the list. -/
theorem pin_frames (h : r.Inv) (f : FrameId) : (r.pin f).frames = r.frames.erase f := by
  unfold pin
  cases hl : r.lruHash.lookup f with
  | none => exact (List.erase_of_not_mem ((h.lookup_eq_none_iff f).mp hl)).symm
  | some it => exact map_eraseP_node h.nodes h.frames_nodup ((h.hash f it).mp hl)

/-- `victim` takes the last frame of the list. -/
theorem victim_frames (hv : r.victim.1 = some f) : r.frames = r.victim.2.frames ++ [f] := by
  unfold victim at hv ⊢
  cases hlast : r.lruList.getLast? with
  | none =>
    rw [hlast] at hv
    cases hv
  | some n =>
    rw [hlast] at hv
    obtain ⟨l, hl⟩ := List.getLast?_eq_some_iff.mp hlast
    obtain rfl := Option.some.inj hv
    simp [frames, hl]

/-- `victim` of an empty list changes nothing. -/
theorem victim_of_none (hv : r.victim.1 = none) : r.victim.2 = r := by
  unfold victim at hv ⊢
  cases hlast : r.lruList.getLast? with
  | none => rfl
  | some n =>
    rw [hlast] at hv
    cases hv

end LRUReplacer

/-! ### Runs -/

/-- A call of the replacer. -/
inductive LruCall where
  | unpin (f : FrameId)
  | pin (f : FrameId)
  | victim
  deriving DecidableEq, Repr

/-- A replacer, and what has happened so far, newest first. -/
structure LruRun where
  replacer : LRUReplacer
  history : List (QueueEvent FrameId)

namespace LruRun

/-- Nothing has happened yet. -/
def start : LruRun := { replacer := .new, history := [] }

/-- One call: `unpin` lets the frame into the queue, `pin` takes it out. -/
def call (s : LruRun) : LruCall → LruRun
  | .unpin f => { replacer := s.replacer.unpin f, history := .enter f :: s.history }
  | .pin f => { replacer := s.replacer.pin f, history := .leave f :: s.history }
  | .victim =>
    { replacer := s.replacer.victim.2, history := .dequeue s.replacer.victim.1 :: s.history }

/-- The calls one after the other. -/
def calls (cs : List LruCall) : LruRun := cs.foldl call start

/-- List and hash agree, and the list is the queue of the history. -/
structure Inv (s : LruRun) : Prop where
  replacer : s.replacer.Inv
  queue : QueueOf s.history s.replacer.frames

theorem start_inv : start.Inv := ⟨LRUReplacer.inv_new, .nil⟩

/-- **One call.** -/
theorem Inv.call {s : LruRun} (h : s.Inv) (c : LruCall) : (s.call c).Inv := by
  cases c with
  | unpin f =>
    refine ⟨LRUReplacer.unpin_inv h.replacer f, ?_⟩
    show QueueOf (.enter f :: s.history) (s.replacer.unpin f).frames
    by_cases hf : f ∈ s.replacer.frames
    · rw [LRUReplacer.unpin_of_mem h.replacer hf]
      exact h.queue.enter_of_mem hf
    · rw [LRUReplacer.unpin_frames h.replacer hf]
      exact h.queue.enter hf
  | pin f =>
    refine ⟨LRUReplacer.pin_inv h.replacer f, ?_⟩
    show QueueOf (.leave f :: s.history) (s.replacer.pin f).frames
    rw [LRUReplacer.pin_frames h.replacer f]
    exact h.queue.leave f
  | victim =>
    refine ⟨LRUReplacer.victim_inv h.replacer, ?_⟩
    show QueueOf (.dequeue s.replacer.victim.1 :: s.history) s.replacer.victim.2.frames
    cases hv : s.replacer.victim.1 with
    | none =>
      rw [LRUReplacer.victim_of_none hv]
      exact h.queue.dequeue_none
    | some f =>
      apply QueueOf.dequeue
      rw [← LRUReplacer.victim_frames hv]
      exact h.queue

/-- **All the calls.** -/
theorem calls_inv (cs : List LruCall) : (calls cs).Inv := by
  unfold calls
  suffices h : ∀ s : LruRun, s.Inv → (cs.foldl LruRun.call s).Inv from h start start_inv
  induction cs with
  | nil => exact fun s hs => hs
  | cons c cs ih => exact fun s hs => ih (s.call c) (hs.call c)

end LruRun

/-- **The replacer is a queue by age.**  After any calls, the nodes of `LRUlist_` are different, no frame
    occurs twice, `LRUhash_` has the frames of the list as its keys and maps each one to its own node;
    the list is that of the evictable frames, the latest one first.  `unpin` of a frame in the list
    changes nothing and otherwise puts it in front, `pin` takes it out, and `victim` fails just if the
    list is empty and else removes and returns the frame that has been evictable longest. -/
theorem lruReplacer_refines_queue (cs : List LruCall) :
    let r := (LruRun.calls cs).replacer
    let h := (LruRun.calls cs).history
    ((r.lruList.map Prod.fst).Nodup ∧ r.frames.Nodup ∧ (∀ f, f ∈ r.lruHash ↔ f ∈ r.frames) ∧
      ∀ f it, r.lruHash.lookup f = some it ↔ (it, f) ∈ r.lruList) ∧
    QueueOf h r.frames ∧
    (∀ f, (f ∈ r.frames → r.unpin f = r) ∧ (f ∉ r.frames → (r.unpin f).frames = f :: r.frames)) ∧
    (∀ f, (r.pin f).frames = r.frames.erase f) ∧
    (r.victim.1 = none ↔ r.frames = []) ∧ (r.victim.1 = none → r.victim.2 = r) ∧
    ∀ f, r.victim.1 = some f → r.frames = r.victim.2.frames ++ [f] ∧
      ∃ t, waitingSince h f = some t ∧ ∀ g s, waitingSince h g = some s → t ≤ s := by
  intro r h
  obtain ⟨hr, hq⟩ := LruRun.calls_inv cs
  refine ⟨⟨hr.nodes, hr.frames_nodup, fun f => ?_, hr.hash⟩, hq, fun f => ⟨?_, ?_⟩, ?_, ?_, ?_,
    fun f hf => ?_⟩
  · rw [LRUReplacer.mem_frames_iff_lookup hr, ← Option.isSome_iff_exists]
    exact AList.lookup_isSome.symm
  · exact LRUReplacer.unpin_of_mem hr
  · exact LRUReplacer.unpin_frames hr
  · exact LRUReplacer.pin_frames hr
  · exact LRUReplacer.victim_eq_none_iff
  · exact LRUReplacer.victim_of_none
  · have hlast := LRUReplacer.victim_frames hf
    refine ⟨hlast, QueueOf.longest (l := r.victim.2.frames) ?_⟩
    rw [← hlast]
    exact hq

-- frame 1 becomes evictable first, but again only after frame 2
example : (LruRun.calls [.unpin 1, .unpin 2, .unpin 1, .pin 1, .unpin 1]).replacer.victim.1 = some 2 := by
  decide

end Rmdb
