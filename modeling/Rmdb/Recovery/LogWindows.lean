import Rmdb.Recovery.Analyze
import Rmdb.Recovery.Restarts

namespace Rmdb

open Lib

/-!
# Records across the windows of the log (`RecoveryManager::analyze`)

The length of a record is read before it is known whether its header lies in the window.

* `Readable` — the tables and pages that `analyze` needs for a record;
* `processAll_ok_iff`, `Processed` — the three tables after the records;
* `analyze_bound` — how far `analyze` can get in a file whose size is no `int`;
* `analyze_records_iff` — when each record is processed once and in order.
-/

/-! ### What the tables need -/

/-- `analyze` can do what it does with the record: a change is one of an open table, and the number of its
page can be read. -/
def Readable (env : LogTables) (r : LogRecord) : Prop :=
  match r.body with
  | .begin => 0 ≤ r.lsn
  | .commit | .abort => True
  | .change c => ∃ fd, env.fhs c.tableName = some fd ∧ (env.pageLsn ⟨fd, c.rid.pageNo⟩).isSome

/-- The entry of `active_transaction_table` after a record. -/
def activeAfter (att : TxnId → Option (List Lsn)) (r : LogRecord) : TxnId → Option (List Lsn) :=
  Function.update att r.logTid (match r.body with
    | .begin => some ((att r.logTid).getD (List.replicate r.lsn.toNat 0))
    | .abort | .commit => none
    | .change _ => some ((att r.logTid).getD [] ++ [r.lsn]))

/-- What has become of the tables after these records. -/
structure Processed (s s' : RecoveryManager) (rs : List LogRecord) : Prop where
  active : s'.activeTransactionTable = rs.foldl activeAfter s.activeTransactionTable
  lsn2log : s'.lsn2log = rs.foldl (fun (m : Lsn → Option LogRecord) (r : LogRecord) => Function.update m r.lsn (some r)) s.lsn2log
  records : s'.records = s.records ++ rs.map fun r => (r, r.totLen)

section Records

variable {env : LogTables} {s s' : RecoveryManager} {r : LogRecord} {rs : List LogRecord}

/-- The numbers of the dirty pages have been read. -/
def RecoveryManager.PagesRead (env : LogTables) (s : RecoveryManager) : Prop :=
  ∀ p ∈ s.dirtyPageTable.map Prod.fst, (env.pageLsn p).isSome

/-- The keys stay when an entry changes. -/
theorem keys_modify {κ ν : Type} (l : List (κ × ν)) (i : Nat) (f : ν → ν) :
    (l.modify i fun e => (e.1, f e.2)).map Prod.fst = l.map Prod.fst := by
  refine List.ext_getElem? fun j => ?_
  rw [List.getElem?_map, List.getElem?_modify, List.getElem?_map]
  cases l[j]? with
  | none => rfl
  | some e =>
    by_cases hij : i = j
    · simp [hij]
    · simp [hij]

/-- The other tables stay. -/
theorem touchPage_frame {lsn : Lsn} {c : LoggedChange} (h : s.touchPage env lsn c = .ok s') :
    s' = { s with dirtyPageTable := s'.dirtyPageTable } := by
  unfold RecoveryManager.touchPage at h
  split at h
  · cases h
  · dsimp only at h
    split at h
    · cases h
      rfl
    · split at h
      · cases h
      · cases h
        rfl

/-- Only the two tables change. -/
theorem updateTables_frame (h : s.updateTables env r = .ok s') :
    s' = { s with
      activeTransactionTable := activeAfter s.activeTransactionTable r
      dirtyPageTable := s'.dirtyPageTable } := by
  unfold RecoveryManager.updateTables at h
  unfold activeAfter
  dsimp only at h
  cases hbody : r.body with
  | begin =>
    rw [hbody] at h
    dsimp only at h
    split at h
    · cases h
    · cases h
      rfl
  | commit =>
    rw [hbody] at h
    cases h
    rfl
  | abort =>
    rw [hbody] at h
    cases h
    rfl
  | change c =>
    rw [hbody] at h
    exact touchPage_frame h

/-- What is done with a record, apart from the pages. -/
theorem process_frame {x : LogRecord × Nat} (h : s.process env x = .ok s') :
    s'.activeTransactionTable = activeAfter s.activeTransactionTable x.1 ∧
      s'.lsn2log = Function.update s.lsn2log x.1.lsn (some x.1) ∧ s'.records = s.records ++ [x] := by
  unfold RecoveryManager.process at h
  cases hs₁ : s.updateTables env x.1 with
  | error e =>
    rw [hs₁] at h
    cases h
  | ok s₁ =>
    rw [hs₁] at h
    cases h
    rw [updateTables_frame hs₁]
    exact ⟨rfl, rfl, rfl⟩

/-- The page goes into the table if its number can be read. -/
theorem touchPage_spec (h : s.PagesRead env) (lsn : Lsn) (c : LoggedChange) :
    ((∃ s', s.touchPage env lsn c = .ok s') ↔
      ∃ fd, env.fhs c.tableName = some fd ∧ (env.pageLsn ⟨fd, c.rid.pageNo⟩).isSome) ∧
    ∀ s', s.touchPage env lsn c = .ok s' → s'.PagesRead env := by
  unfold RecoveryManager.touchPage
  cases hfd : env.fhs c.tableName with
  | none => exact ⟨⟨nofun, nofun⟩, nofun⟩
  | some fd =>
    have hiff : (∃ fd', some fd = some fd' ∧ (env.pageLsn ⟨fd', c.rid.pageNo⟩).isSome) ↔
        (env.pageLsn ⟨fd, c.rid.pageNo⟩).isSome :=
      ⟨fun ⟨_, heq, hsome⟩ => Option.some.inj heq ▸ hsome, fun hsome => ⟨fd, rfl, hsome⟩⟩
    rw [hiff]
    dsimp only
    cases hfind : env.find (s.dirtyPageTable.map Prod.fst) ⟨fd, c.rid.pageNo⟩ with
    | some i =>
      have hmem := List.mem_of_getElem? (env.find_key _ _ _ hfind)
      refine ⟨⟨fun _ => h _ hmem, fun _ => ⟨_, rfl⟩⟩, fun s' hs' => ?_⟩
      cases hs'
      intro p hp
      unfold RecoveryManager.PagesRead at h
      rw [keys_modify] at hp
      exact h p hp
    | none =>
      dsimp only
      cases hlsn : env.pageLsn ⟨fd, c.rid.pageNo⟩ with
      | none => exact ⟨⟨nofun, nofun⟩, nofun⟩
      | some pageLsn =>
        refine ⟨⟨fun _ => rfl, fun _ => ⟨_, rfl⟩⟩, fun s' hs' => ?_⟩
        cases hs'
        intro p hp
        rw [List.map_append] at hp
        rcases List.mem_append.mp hp with hp | hp
        · exact h p hp
        · obtain rfl := List.mem_singleton.mp hp
          rw [hlsn]
          rfl

/-- A record is processed exactly when it can be, and the pages that are read stay right. -/
theorem process_spec (h : s.PagesRead env) (r : LogRecord) :
    ((∃ s', s.process env (r, r.totLen) = .ok s') ↔ Readable env r) ∧
    ∀ s', s.process env (r, r.totLen) = .ok s' → s'.PagesRead env := by
  have hupdate : ((∃ s', s.updateTables env r = .ok s') ↔ Readable env r) ∧
      ∀ s', s.updateTables env r = .ok s' → s'.PagesRead env := by
    unfold RecoveryManager.updateTables Readable
    dsimp only
    cases hbody : r.body with
    | begin =>
      dsimp only
      by_cases hneg : r.lsn < 0
      · rw [if_pos hneg]
        exact ⟨⟨nofun, fun hpos => absurd hneg (Int.not_lt.mpr hpos)⟩, nofun⟩
      · rw [if_neg hneg]
        refine ⟨⟨fun _ => Int.not_lt.mp hneg, fun _ => ⟨_, rfl⟩⟩, fun s' hs' => ?_⟩
        cases hs'
        exact h
    | commit =>
      refine ⟨⟨fun _ => trivial, fun _ => ⟨_, rfl⟩⟩, fun s' hs' => ?_⟩
      cases hs'
      exact h
    | abort =>
      refine ⟨⟨fun _ => trivial, fun _ => ⟨_, rfl⟩⟩, fun s' hs' => ?_⟩
      cases hs'
      exact h
    | change c => exact touchPage_spec (s := s.setActive r.logTid _) h r.lsn c
  obtain ⟨hok, hpages⟩ := hupdate
  unfold RecoveryManager.process
  cases hs₁ : s.updateTables env r with
  | error e =>
    rw [hs₁] at hok
    exact ⟨⟨nofun, fun hr => nomatch hok.mpr hr⟩, nofun⟩
  | ok s₁ =>
    refine ⟨⟨fun _ => hok.mp ⟨s₁, hs₁⟩, fun _ => ⟨_, rfl⟩⟩, fun s' hs' => ?_⟩
    cases hs'
    exact hpages s₁ hs₁

/-- **The records are processed** if the tables have what they need. -/
theorem processAll_spec (h : s.PagesRead env) (rs : List LogRecord) :
    ((∃ s', processAll env s rs = .ok s') ↔ ∀ r ∈ rs, Readable env r) ∧
    ∀ s', processAll env s rs = .ok s' → Processed s s' rs := by
  induction rs generalizing s with
  | nil =>
    refine ⟨⟨fun _ r hr => absurd hr List.not_mem_nil, fun _ => ⟨s, rfl⟩⟩, fun s' hs' => ?_⟩
    cases hs'
    exact ⟨rfl, rfl, (List.append_nil _).symm⟩
  | cons r rs ih =>
    obtain ⟨hok, hspec⟩ := process_spec h r
    unfold processAll
    rw [List.foldlM_cons, List.forall_mem_cons, ← hok]
    cases hs₁ : s.process env (r, r.totLen) with
    | error e => exact ⟨⟨nofun, nofun⟩, nofun⟩
    | ok s₁ =>
      obtain ⟨hactive₁, hlsn₁, hrecords₁⟩ := process_frame hs₁
      obtain ⟨hokAll, hspecAll⟩ := ih (hspec s₁ hs₁)
      refine ⟨⟨fun hs' => ⟨⟨s₁, rfl⟩, hokAll.mp hs'⟩, fun hs' => hokAll.mpr hs'.2⟩, fun s' hs' => ?_⟩
      obtain ⟨hactive, hlsn, hrecords⟩ := hspecAll s' hs'
      refine ⟨?_, ?_, ?_⟩
      · rw [hactive, hactive₁]
        rfl
      · rw [hlsn, hlsn₁]
        rfl
      · rw [hrecords, hrecords₁, List.append_assoc]
        rfl

end Records

/-! ### A file whose size is no `int` -/

section Bound

variable {env : LogTables} {window file : List UInt8} {fuel offset : Nat} {logOffset logOffset' : Int}
  {s s' : RecoveryManager}

/-- `readInt32`, `readUnsigned` take the bytes at the front. -/
theorem readBytes_eq_ok {ε : Type} {err : ε} {n : Nat} {bs bs' rest : List UInt8}
    (h : readBytes err n bs = .ok (bs', rest)) : bs' = bs.take n ∧ rest = bs.drop n := by
  unfold readBytes at h
  split at h
  · cases h
  · cases h
    exact ⟨rfl, rfl⟩

/-- `log_tot_len_` is the word that the loop has looked at. -/
theorem deserialize_word {bs rest : List UInt8} {r : LogRecord × Nat}
    (h : LogRecord.deserialize bs = .ok (r, rest)) : r.2 = ofLeBytes ((bs.drop 8).take 4) := by
  unfold LogRecord.deserialize at h
  obtain ⟨⟨type, bs₁⟩, h₁, h⟩ := bind_eq_ok.mp h
  obtain ⟨⟨lsn, bs₂⟩, h₂, h⟩ := bind_eq_ok.mp h
  obtain ⟨⟨logTotLen, bs₃⟩, h₃, h⟩ := bind_eq_ok.mp h
  obtain ⟨⟨logTid, bs₄⟩, h₄, h⟩ := bind_eq_ok.mp h
  obtain ⟨⟨prevLsn, bs₅⟩, h₅, h⟩ := bind_eq_ok.mp h
  obtain ⟨⟨body, bs₆⟩, h₆, h⟩ := bind_eq_ok.mp h
  cases h
  obtain ⟨⟨w₁, x₁⟩, hr₁, hw₁⟩ := bind_eq_ok.mp h₁
  obtain ⟨⟨w₂, x₂⟩, hr₂, hw₂⟩ := bind_eq_ok.mp h₂
  obtain ⟨⟨w₃, x₃⟩, hr₃, hw₃⟩ := bind_eq_ok.mp h₃
  cases hw₁
  cases hw₂
  cases hw₃
  obtain ⟨-, rfl⟩ := readBytes_eq_ok hr₁
  obtain ⟨-, rfl⟩ := readBytes_eq_ok hr₂
  obtain ⟨rfl, -⟩ := readBytes_eq_ok hr₃
  rw [List.drop_drop]

/-- The length of the record is the word. -/
theorem deserialize_wordAt {window rest : List UInt8} {offset n : Nat} {r : LogRecord × Nat}
    (hword : wordAt window (offset + 8) = .ok n)
    (hdes : LogRecord.deserialize (window.drop offset) = .ok (r, rest)) : r.2 = n := by
  rw [deserialize_word hdes, List.drop_drop]
  unfold wordAt at hword
  split at hword
  · cases hword
  · exact Except.ok.inj hword

/-- The lengths of these records. -/
def lengths (l : List (LogRecord × Nat)) : Nat := (l.map Prod.snd).sum

/-- The records of a window lie in it, if none is as long as a window. -/
theorem scan_bound (h : scan env window fuel offset logOffset s = .ok (logOffset', s'))
    (hoffset : offset < logBufferSize) : ∃ l, s'.records = s.records ++ l ∧
      ((∀ r ∈ l, r.2 < logBufferSize) → offset + lengths l < logBufferSize ∧
        (0 ≤ logOffset → logOffset + logBufferSize ≤ 2 ^ 31 + (offset : Int) →
          logOffset' = logOffset + lengths l)) := by
  induction fuel generalizing offset logOffset s with
  | zero => cases h
  | succ fuel ih =>
    have hLBS : logBufferSize < 2 ^ 31 := by decide
    rw [scan] at h
    obtain ⟨logTotLen, hword, h⟩ := bind_eq_ok.mp h
    -- the scan stops at the end of the window or at a length of 0
    by_cases hstop : logBufferSize ≤ (offset + logTotLen) % 2 ^ 32 ∨ logTotLen = 0
    · rw [if_pos hstop] at h
      cases h
      refine ⟨[], (List.append_nil _).symm, fun _ => ⟨hoffset, fun _ _ => ?_⟩⟩
      exact (Int.add_zero _).symm
    rw [if_neg hstop] at h
    push Not at hstop
    obtain ⟨⟨r, rest⟩, hdes, h⟩ := bind_eq_ok.mp h
    obtain ⟨s₁, hprocess, h⟩ := bind_eq_ok.mp h
    have hlen := deserialize_wordAt hword hdes
    rw [hlen] at h
    dsimp only at hprocess h
    obtain ⟨l, hl, hbound⟩ := ih h hstop.1
    obtain ⟨-, -, hrecords⟩ := process_frame hprocess
    refine ⟨r :: l, by rw [hl, hrecords, List.append_assoc]; rfl, fun hall => ?_⟩
    obtain ⟨hr, hrest⟩ := List.forall_mem_cons.mp hall
    rw [hlen] at hr
    -- neither the offset nor the position in the file wraps
    have hmod : (offset + logTotLen) % 2 ^ 32 = offset + logTotLen := Nat.mod_eq_of_lt (by omega)
    rw [hmod] at hbound
    obtain ⟨hsum, hlog⟩ := hbound hrest
    have hlengths : lengths (r :: l) = logTotLen + lengths l := by
      unfold lengths
      rw [List.map_cons, List.sum_cons, hlen]
    rw [hlengths]
    refine ⟨by omega, fun h0 hmax => ?_⟩
    have hbmod : Int.bmod (logOffset + logTotLen) (2 ^ 32) = logOffset + logTotLen := by
      rw [Int.bmod_eq_iff (by decide)]
      exact ⟨by omega, by omega, by omega⟩
    rw [hbmod] at hlog
    rw [hlog (by omega) (by push_cast; omega)]
    push_cast
    omega

/-- All the windows: the last one begins in the part of the file that its size, as an `int`, tells of. -/
theorem analyzeFrom_bound (h : analyzeFrom env file fuel logOffset s = .ok s') :
    ∃ l, s'.records = s.records ++ l ∧ (0 ≤ logOffset → (∀ r ∈ l, r.2 < logBufferSize) →
      logOffset + lengths l < Int.bmod file.length (2 ^ 32) + logBufferSize) := by
  induction fuel generalizing logOffset s with
  | zero => cases h
  | succ fuel ih =>
    rw [analyzeFrom] at h
    obtain ⟨⟨logBytes, window⟩, hread, h⟩ := bind_eq_ok.mp h
    obtain ⟨⟨logOffset₁, s₁⟩, hscan, h⟩ := bind_eq_ok.mp h
    dsimp only at hscan h
    obtain ⟨l, hl, hbound⟩ := scan_bound hscan (by decide)
    unfold readLog at hread
    dsimp only at hread
    split at hread
    · cases hread
    next hle =>
    obtain ⟨rfl, -⟩ := Prod.mk.inj (Except.ok.inj hread)
    split at h
    · cases h
      refine ⟨l, hl, fun h0 hall => ?_⟩
      obtain ⟨hsum, -⟩ := hbound hall
      omega
    · next hfull =>
      obtain ⟨l', hl', hrest⟩ := ih h
      refine ⟨l ++ l', by rw [hl', hl, List.append_assoc], fun h0 hall => ?_⟩
      obtain ⟨hall₁, hall₂⟩ := List.forall_mem_append.mp hall
      obtain ⟨-, hmax, -⟩ := (Int.bmod_eq_iff (a := file.length) (c := Int.bmod file.length (2 ^ 32))
        (Nat.two_pow_pos 32)).mp rfl
      generalize Int.bmod file.length (2 ^ 32) = fileSize at hle hfull hmax hrest ⊢
      have hlog : logOffset₁ = logOffset + lengths l :=
        (hbound hall₁).2 h0 (by push_cast at hmax ⊢; omega)
      have hlengths : lengths (l ++ l') = lengths l + lengths l' := by
        unfold lengths
        rw [List.map_append, List.sum_append]
      have hsum := hrest (by omega) hall₂
      rw [hlengths]
      push_cast
      omega

/-- **A file of more than 2³¹ bytes** is not read to its end, nor nearly. -/
theorem analyze_bound (h : analyze env file = .ok s) (hsize : 2 ^ 31 ≤ file.length)
    (hall : ∀ r ∈ s.records, r.2 < logBufferSize) : lengths s.records + logBufferSize ≤ file.length := by
  obtain ⟨l, hl, hbound⟩ := analyzeFrom_bound h
  rw [show RecoveryManager.new.records = [] from rfl, List.nil_append] at hl
  subst hl
  have hsum := hbound (le_refl 0) hall
  obtain ⟨-, hmax, k, hk⟩ := (Int.bmod_eq_iff (a := file.length) (c := Int.bmod file.length (2 ^ 32))
    (Nat.two_pow_pos 32)).mp rfl
  have hLBS : logBufferSize = 4194304 := rfl
  generalize Int.bmod file.length (2 ^ 32) = fileSize at hsum hmax hk
  push_cast at hmax hk
  omega

end Bound

/-! ### The records -/

/-- A buffer is looked at inside of the windows of these records. -/
def InWindows (rs : List LogRecord) : Prop :=
  ∃ offset, lastOffset 0 (rs.map (·.totLen)) = some offset ∧ offset + 12 ≤ logBufferSize

/-- No page has been read at first. -/
theorem pagesRead_new (env : LogTables) : RecoveryManager.new.PagesRead env :=
  fun _ hp => absurd hp List.not_mem_nil

/-- The lengths of the records are those of their bytes. -/
theorem lengths_records (rs : List LogRecord) :
    lengths (rs.map fun r => (r, r.totLen)) = (rs.flatMap (·.serialize)).length := by
  unfold lengths
  rw [List.map_map, List.length_flatMap]
  exact congrArg List.sum (List.map_congr_left fun r _ => r.length_serialize.symm)

/-- **`analyze` on complete records**: it ends without an error just if the file is not too long, each
length that is looked at lies in its window, and the tables have what they need. -/
theorem analyze_complete {env : LogTables} {rs : List LogRecord} (hrs : Written rs)
    (hsize : (rs.flatMap (·.serialize)).length < 2 ^ 31) (s : RecoveryManager) :
    analyze env (rs.flatMap (·.serialize)) = .ok s ↔ InWindows rs ∧ processAll env .new rs = .ok s := by
  obtain ⟨hnone, hsome⟩ := analyze_records env hrs [] (by rwa [List.append_nil])
  rw [List.append_nil] at hnone hsome
  unfold InWindows
  cases hlast : lastOffset 0 (rs.map (·.totLen)) with
  | none => exact ⟨fun h => absurd h (hnone hlast s), fun ⟨⟨_, h, _⟩, _⟩ => nomatch h⟩
  | some offset =>
    obtain ⟨R, hat, rfl, -, hlt, hrun⟩ := hsome offset hlast
    rw [hrun]
    have hiff : (∃ o, some R.offset = some o ∧ o + 12 ≤ logBufferSize) ↔ R.offset + 12 ≤ logBufferSize :=
      ⟨fun ⟨_, heq, h⟩ => Option.some.inj heq ▸ h, fun h => ⟨_, rfl, h⟩⟩
    rw [hiff]
    constructor
    · intro h
      obtain ⟨s₁, hs₁, hend⟩ := bind_eq_ok.mp h
      have hroom : R.offset + 12 ≤ logBufferSize := by
        by_contra hroom
        exact hat.run_outside hroom s hend
      rw [hat.run_end hlt hroom] at hend
      exact ⟨hroom, Except.ok.inj hend ▸ hs₁⟩
    · rintro ⟨hroom, hs⟩
      rw [hs]
      exact hat.run_end hlt hroom

/-- **When each record is processed once and in order.**  The file has less than 2³¹ bytes, the records
and the end of the log lie in the windows so that each length that is looked at is inside, and the tables
and pages of the changes can be read. -/
theorem analyze_records_iff (env : LogTables) {rs : List LogRecord} (hrs : Written rs) :
    (∃ s, analyze env (rs.flatMap (·.serialize)) = .ok s ∧ s.records = rs.map fun r => (r, r.totLen)) ↔
      (rs.flatMap (·.serialize)).length < 2 ^ 31 ∧ InWindows rs ∧ ∀ r ∈ rs, Readable env r := by
  obtain ⟨hok, hspec⟩ := processAll_spec (pagesRead_new env) rs
  by_cases hsize : (rs.flatMap (·.serialize)).length < 2 ^ 31
  case neg =>
    refine iff_of_false (fun ⟨s, hs, hrecords⟩ => ?_) fun h => hsize h.1
    have hbound := analyze_bound hs (Nat.le_of_not_lt hsize) fun r hr => by
      rw [hrecords] at hr
      obtain ⟨r, hmem, rfl⟩ := List.mem_map.mp hr
      exact (hrs r hmem).2
    rw [hrecords, lengths_records] at hbound
    have hpos : 0 < logBufferSize := by decide
    omega
  rw [← hok]
  simp only [analyze_complete hrs hsize]
  constructor
  · rintro ⟨s, ⟨hin, hs⟩, -⟩
    exact ⟨hsize, hin, s, hs⟩
  · rintro ⟨-, hin, s, hs⟩
    exact ⟨s, ⟨hin, hs⟩, (hspec s hs).records⟩

/-! ### Short logs -/

/-- Records that fit in the window end at the sum of their lengths. -/
theorem lastOffset_of_fits {offset : Nat} {lens : List Nat} (h : offset + lens.sum < logBufferSize) :
    lastOffset offset lens = some (offset + lens.sum) := by
  induction lens generalizing offset with
  | nil => rfl
  | cons len lens ih =>
    rw [List.sum_cons] at h ⊢
    rw [lastOffset, if_pos (by omega), ih (by omega), Nat.add_assoc]

/-- Records without a body. -/
theorem lens_of_headers {rs : List LogRecord} (h : ∀ r ∈ rs, r.totLen = 20) :
    rs.map (·.totLen) = List.replicate rs.length 20 :=
  List.map_eq_replicate_iff.mpr h

/-- Records without a body. -/
theorem length_of_headers {rs : List LogRecord} (h : ∀ r ∈ rs, r.totLen = 20) :
    (rs.flatMap (·.serialize)).length = rs.length * 20 := by
  have hlens : rs.map (fun r => r.serialize.length) = rs.map (·.totLen) :=
    List.map_congr_left fun r _ => r.length_serialize
  rw [List.length_flatMap, hlens, lens_of_headers h, List.sum_replicate_nat]

/-- Short records that fit into one window. -/
theorem lastOffset_of_headers {rs : List LogRecord} (h : ∀ r ∈ rs, r.totLen = 20)
    (hfits : rs.length * 20 < logBufferSize) :
    lastOffset 0 (rs.map (·.totLen)) = some (rs.length * 20) := by
  have hsum : (rs.map (·.totLen)).sum = rs.length * 20 := by
    rw [lens_of_headers h, List.sum_replicate_nat]
  rw [lastOffset_of_fits (by rw [hsum]; omega), hsum, Nat.zero_add]

/-- No table is open. -/
def noTables : LogTables :=
  ⟨fun _ => none, fun _ => none, findPage, findPage_key, fun keys p _ => findPage_mem keys p⟩

/-- Transactions that begin and commit one after the other. -/
def beginCommit (i : Nat) : LogRecord where
  lsn := i
  logTid := i / 2
  prevLsn := if i % 2 = 0 then -1 else i - 1
  body := if i % 2 = 0 then .begin else .commit

/-- The first `n` records of such a log. -/
def shortLog (n : Nat) : List LogRecord := (List.range n).map beginCommit

/-- `begin` and `commit` have no body. -/
theorem totLen_beginCommit (i : Nat) : (beginCommit i).totLen = 20 := by
  unfold beginCommit LogRecord.totLen
  dsimp only
  split <;> rfl

/-- Nor has any record of this log. -/
theorem totLen_shortLog (n : Nat) : ∀ r ∈ shortLog n, r.totLen = 20 := by
  intro r hr
  obtain ⟨i, -, rfl⟩ := List.mem_map.mp hr
  exact totLen_beginCommit i

/-- Its length. -/
theorem length_shortLog (n : Nat) : ((shortLog n).flatMap (·.serialize)).length = n * 20 := by
  rw [length_of_headers (totLen_shortLog n), shortLog, List.length_map, List.length_range]

/-- It is written by the log manager. -/
theorem written_shortLog {n : Nat} (hn : n < 2 ^ 31) : Written (shortLog n) := by
  intro r hr
  obtain ⟨i, hi, rfl⟩ := List.mem_map.mp hr
  rw [List.mem_range] at hi
  refine ⟨⟨⟨?_, ?_⟩, ⟨?_, ?_⟩, ?_, fun c hc => ?_⟩, ?_⟩
  · show (-2147483648 : Int) ≤ i
    omega
  · show (i : Int) < 2147483648
    omega
  · show (-2147483648 : Int) ≤ (i : Int) / 2
    omega
  · show (i : Int) / 2 < 2147483648
    omega
  · unfold beginCommit Int32Range
    dsimp only
    split <;> omega
  · unfold beginCommit at hc
    dsimp only at hc
    split at hc <;> cases hc
  · rw [totLen_beginCommit]
    decide

/-- It needs no page. -/
theorem readable_shortLog (n : Nat) : ∀ r ∈ shortLog n, Readable noTables r := by
  intro r hr
  obtain ⟨i, -, rfl⟩ := List.mem_map.mp hr
  unfold Readable beginCommit
  dsimp only
  by_cases heven : i % 2 = 0
  · rw [if_pos heven]
    exact Int.natCast_nonneg i
  · rw [if_neg heven]
    trivial

/-- It fits into one window. -/
theorem lastOffset_shortLog {n : Nat} (h : n * 20 < logBufferSize) :
    lastOffset 0 ((shortLog n).map (·.totLen)) = some (n * 20) := by
  have hlen : (shortLog n).length = n := by
    unfold shortLog
    rw [List.length_map, List.length_range]
  rw [lastOffset_of_headers (totLen_shortLog n) (by rwa [hlen]), hlen]

/-- **A log of two records** is processed. -/
theorem two_records_processed : ∃ s, analyze noTables ((shortLog 2).flatMap (·.serialize)) = .ok s ∧
    s.records = (shortLog 2).map fun r => (r, r.totLen) := by
  refine (analyze_records_iff noTables (written_shortLog (by decide))).mpr
    ⟨?_, ⟨2 * 20, lastOffset_shortLog (by decide), by decide⟩, readable_shortLog 2⟩
  rw [length_shortLog]
  decide

/-- **A log of 209715 such records** ends 4 bytes before the end of the window, and the length of the
record that is not there is looked at behind it. -/
theorem length_read_behind_window : Written (shortLog 209715) ∧
    (∀ r ∈ shortLog 209715, Readable noTables r) ∧
    ¬ ∃ s, analyze noTables ((shortLog 209715).flatMap (·.serialize)) = .ok s ∧
      s.records = (shortLog 209715).map fun r => (r, r.totLen) := by
  have hrs : Written (shortLog 209715) := written_shortLog (by decide)
  refine ⟨hrs, readable_shortLog _, ?_⟩
  rintro ⟨s, hs, -⟩
  have hsize : ((shortLog 209715).flatMap (·.serialize)).length < 2 ^ 31 := by
    rw [length_shortLog]
    decide
  obtain ⟨⟨offset, hlast, hroom⟩, -⟩ := (analyze_complete hrs hsize s).mp hs
  rw [lastOffset_shortLog (by decide)] at hlast
  have hoffset : 209715 * 20 = offset := Option.some.inj hlast
  rw [← hoffset] at hroom
  exact absurd hroom (by decide)

end Rmdb
