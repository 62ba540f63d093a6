import Rmdb.Recovery.LogWindows

namespace Rmdb

open Lib

/-!
# A log that ends in the middle of a record (`RecoveryManager::analyze`)

A crash in `write_log` leaves a part of the last record.  The window is filled with zeros behind it, and a
record is processed as soon as its length is not 0 and fits.

* `completeIn`, `tornIn` — the complete records of a prefix of the log, and the bytes behind them;
* `seenLength` — the length that the loop sees there;
* `torn_tail_iff` — when the part is left alone.
-/

/-! ### A prefix of the log -/

/-- The records that lie in the first `k` bytes. -/
def completeIn : Nat → List LogRecord → List LogRecord
  | _, [] => []
  | k, r :: rs => if r.totLen ≤ k then r :: completeIn (k - r.totLen) rs else []

/-- The bytes of the first `k` that are behind them. -/
def tornIn : Nat → List LogRecord → List UInt8
  | _, [] => []
  | k, r :: rs => if r.totLen ≤ k then tornIn (k - r.totLen) rs else r.serialize.take k

/-- `log_tot_len`, as it is seen at the start of these bytes. -/
def seenLength (torn : List UInt8) : Nat := ofLeBytes ((torn.drop 8).take 4)

theorem take_serialize (k : Nat) (rs : List LogRecord) : (rs.flatMap (·.serialize)).take k =
    (completeIn k rs).flatMap (·.serialize) ++ tornIn k rs := by
  induction rs generalizing k with
  | nil => exact List.take_nil
  | cons r rs ih =>
    rw [List.flatMap_cons, List.take_append, r.length_serialize, completeIn, tornIn]
    by_cases hfits : r.totLen ≤ k
    · rw [if_pos hfits, if_pos hfits, List.take_of_length_le (by rw [r.length_serialize]; exact hfits),
        ih, List.flatMap_cons, List.append_assoc]
    · rw [if_neg hfits, if_neg hfits, Nat.sub_eq_zero_of_le (by omega), List.take_zero, List.append_nil]
      rfl

theorem completeIn_subset (k : Nat) (rs : List LogRecord) : ∀ r ∈ completeIn k rs, r ∈ rs := by
  induction rs generalizing k with
  | nil => exact fun r hr => hr
  | cons r rs ih =>
    intro x hx
    rw [completeIn] at hx
    split at hx
    · rcases List.mem_cons.mp hx with rfl | hx
      · exact List.mem_cons_self
      · exact List.mem_cons_of_mem _ (ih _ x hx)
    · cases hx

theorem ofLeBytes_take_le (l : List UInt8) (n : Nat) : ofLeBytes (l.take n) ≤ ofLeBytes l := by
  induction l generalizing n with
  | nil => rw [List.take_nil]
  | cons b l ih =>
    cases n with
    | zero => exact Nat.zero_le _
    | succ n =>
      rw [List.take_succ_cons, ofLeBytes, ofLeBytes]
      exact Nat.add_le_add_left (Nat.mul_le_mul_left _ (ih n)) _

theorem ofLeBytes_append_zeros (l : List UInt8) (n : Nat) :
    ofLeBytes (l ++ List.replicate n 0) = ofLeBytes l := by
  induction l with
  | nil => exact ofLeBytes_replicate n
  | cons b l ih => rw [List.cons_append, ofLeBytes, ofLeBytes, ih]

/-- The part of a record is shorter than the record, and so is the length that is seen. -/
theorem tornIn_lt {rs : List LogRecord} (hrs : Written rs) (k : Nat) :
    (tornIn k rs).length < logBufferSize ∧ seenLength (tornIn k rs) < logBufferSize := by
  induction rs generalizing k with
  | nil =>
    rw [tornIn]
    exact ⟨by decide, by decide⟩
  | cons r rs ih =>
    obtain ⟨⟨-, hlen⟩, hrs⟩ := List.forall_mem_cons.mp hrs
    rw [tornIn]
    split
    · exact ih hrs _
    · refine ⟨?_, ?_⟩
      · rw [List.length_take]
        omega
      · have hword : ((r.serialize.take k).drop 8).take 4 = (leBytes r.totLen 4).take (k - 8) := by
          have hdrop := Reading.drop_serialize r []
          rw [List.append_nil] at hdrop
          rw [List.drop_take, List.take_take, Nat.min_comm, ← List.take_take, hdrop]
        unfold seenLength
        rw [hword]
        refine Nat.lt_of_le_of_lt (ofLeBytes_take_le _ _) ?_
        rw [ofLeBytes_leBytes]
        exact Nat.lt_of_le_of_lt (Nat.mod_le _ _) hlen

/-! ### What is done with the part -/

/-- **The part is left alone**: its length lies in the window, and is 0, or goes beyond the window that
has all of the part. -/
def LeftAlone (offset : Nat) (torn : List UInt8) : Prop :=
  offset + 12 ≤ logBufferSize ∧ (seenLength torn = 0 ∨
    logBufferSize ≤ offset + seenLength torn ∧ offset + torn.length < logBufferSize)

namespace Reading

variable {env : LogTables} {file torn : List UInt8} {R : Reading} {s s' : RecoveryManager}

theorem At.wordAt_torn (h : R.At file torn) (hroom : R.offset + 12 ≤ logBufferSize) :
    Rmdb.wordAt R.window (R.offset + 8) = .ok (seenLength torn) := by
  rw [h.wordAt hroom, List.drop_append, List.take_append, List.drop_replicate, List.take_replicate,
    ofLeBytes_append_zeros]
  rfl

/-- **A length that fits is taken for that of a record.** -/
theorem At.run_accepted (h : R.At file torn) (hroom : R.offset + 12 ≤ logBufferSize)
    (hzero : seenLength torn ≠ 0) (hfits : R.offset + seenLength torn < logBufferSize)
    (hrun : R.run env file s = .ok s') : s.records.length < s'.records.length := by
  have hLBS : logBufferSize < 2 ^ 32 := by decide
  have hinner := h.inner
  obtain ⟨inner, hinnerEq⟩ : ∃ inner, R.inner = inner + 1 := ⟨R.inner - 1, by omega⟩
  have hword := h.wordAt_torn hroom
  unfold run at hrun
  obtain ⟨⟨logOffset, s₂⟩, hscan, hrun⟩ := bind_eq_ok.mp hrun
  rw [hinnerEq, scan, hword] at hscan
  have hmod : (R.offset + seenLength torn) % 2 ^ 32 = R.offset + seenLength torn :=
    Nat.mod_eq_of_lt (by omega)
  obtain ⟨⟨r, rest⟩, hdes, hscan⟩ := bind_eq_ok.mp (show Except.bind _ _ = _ from by
    dsimp only [Except.bind] at hscan
    rw [hmod, if_neg (by omega)] at hscan
    exact hscan)
  obtain ⟨s₁, hprocess, hscan⟩ := bind_eq_ok.mp hscan
  obtain ⟨-, -, hrecords⟩ := process_frame hprocess
  -- the length that was read is the one that was seen
  have hlen := deserialize_wordAt hword hdes
  dsimp only at hscan
  rw [hlen, hmod] at hscan
  obtain ⟨l, hl, -⟩ := scan_bound hscan hfits
  have hmore : s.records.length < s₂.records.length := by
    rw [hl, hrecords, List.length_append, List.length_append, List.length_singleton]
    omega
  dsimp only at hrun
  split at hrun
  · cases hrun
    exact hmore
  · obtain ⟨l', hl', -⟩ := analyzeFrom_bound hrun
    rw [hl', List.length_append]
    omega

/-- **The end of the file**, with a part of a record. -/
theorem At.run_torn (h : R.At file torn) (hsize : file.length < 2 ^ 31)
    (hoffset : R.offset < logBufferSize) (hfuel : 0 < R.fuel) (hlen : torn.length < logBufferSize)
    (hseen : seenLength torn < logBufferSize) (s : RecoveryManager) :
    (LeftAlone R.offset torn → R.run env file s = .ok s) ∧
      (¬ LeftAlone R.offset torn → ∀ s', R.run env file s = .ok s' →
        s.records.length < s'.records.length) := by
  have hLBS : 2 * logBufferSize < 2 ^ 32 := by decide
  have h12 : 12 ≤ logBufferSize := by decide
  have hle := h.le
  have hlength := congrArg List.length h.bytes
  rw [List.length_drop] at hlength
  have hlogBytes : R.logBytes = min logBufferSize (R.offset + torn.length) := by
    rw [h.logBytes]
    omega
  by_cases hroom : R.offset + 12 ≤ logBufferSize
  case neg =>
    exact ⟨fun hleft => absurd hleft.1 hroom, fun _ s' hrun => absurd hrun (h.run_outside hroom s')⟩
  have hmod : (R.offset + seenLength torn) % 2 ^ 32 = R.offset + seenLength torn :=
    Nat.mod_eq_of_lt (by omega)
  by_cases haccept : seenLength torn ≠ 0 ∧ R.offset + seenLength torn < logBufferSize
  · obtain ⟨hzero, hfits⟩ := haccept
    refine ⟨fun hleft => ?_, fun _ s' hrun => h.run_accepted hroom hzero hfits hrun⟩
    rcases hleft.2 with h0 | ⟨hbeyond, -⟩
    · exact absurd h0 hzero
    · omega
  -- the loop over the window stops
  have hstop : R.run env file s = _ :=
    h.run_stop (h.wordAt_torn hroom) (by rw [hmod]; omega) hoffset.le
  by_cases hlast : R.offset + torn.length < logBufferSize
  · rw [if_pos (by omega)] at hstop
    refine ⟨fun _ => hstop, fun hnot => absurd ⟨hroom, ?_⟩ hnot⟩
    omega
  -- the part is the start of the next window
  rw [if_neg (by omega)] at hstop
  obtain ⟨fuel, hfuelEq⟩ : ∃ fuel, R.fuel = fuel + 1 := ⟨R.fuel - 1, by omega⟩
  rw [hfuelEq, analyzeFrom_eq hsize hle] at hstop
  have hnext : (atStart file (R.start + R.offset) fuel).At file torn := by
    rw [← h.bytes]
    exact at_atStart hle
  have hroom' : (atStart file (R.start + R.offset) fuel).offset + 12 ≤ logBufferSize := h12
  rw [hstop]
  by_cases hzero : seenLength torn = 0
  · refine ⟨fun _ => ?_, fun hnot => absurd ⟨hroom, .inl hzero⟩ hnot⟩
    have hword := hnext.wordAt_torn hroom'
    rw [hzero] at hword
    rw [hnext.run_stop hword (.inr rfl) (Nat.zero_le _), if_pos]
    rw [hnext.logBytes]
    show min logBufferSize (file.length - (R.start + R.offset)) < logBufferSize
    omega
  · refine ⟨fun hleft => ?_, fun _ s' hrun => hnext.run_accepted hroom' hzero ?_ hrun⟩
    · rcases hleft.2 with h0 | ⟨-, hshort⟩
      · exact absurd h0 hzero
      · exact absurd hshort hlast
    · show 0 + seenLength torn < logBufferSize
      omega

end Reading

/-! ### The prefix -/

/-- What `analyze` does with a prefix, if the complete records can be processed. -/
theorem analyze_torn {env : LogTables} {all : List LogRecord} (hall : Written all) {k offset : Nat}
    (hsize : ((all.flatMap (·.serialize)).take k).length < 2 ^ 31)
    (hlast : lastOffset 0 ((completeIn k all).map (·.totLen)) = some offset) {s : RecoveryManager}
    (hs : processAll env .new (completeIn k all) = .ok s) :
    (LeftAlone offset (tornIn k all) →
      analyze env ((all.flatMap (·.serialize)).take k) = .ok s) ∧
    (¬ LeftAlone offset (tornIn k all) →
      ∀ s', analyze env ((all.flatMap (·.serialize)).take k) = .ok s' →
        s.records.length < s'.records.length) := by
  have hrs : Written (completeIn k all) := fun r hr => hall r (completeIn_subset k all r hr)
  have hfile := take_serialize k all
  obtain ⟨hlen, hseen⟩ := tornIn_lt hall k
  obtain ⟨-, hsome⟩ := analyze_records env hrs (tornIn k all) (hfile ▸ hsize)
  rw [← hfile] at hsome
  obtain ⟨R, hat, rfl, hfuel, hlt, hrun⟩ := hsome offset hlast
  rw [hrun, hs]
  exact hat.run_torn hsize hlt hfuel hlen hseen s

/-- **When a torn log is read up to its last complete record.** -/
theorem torn_tail_iff (env : LogTables) {all : List LogRecord} (hall : Written all) (k : Nat) :
    let file := (all.flatMap (·.serialize)).take k
    let rs := completeIn k all
    (∃ s, analyze env file = .ok s ∧ s.records = rs.map (fun r => (r, r.totLen)) ∧
      s.lsn2log = lsn2log rs) ↔
    file.length < 2 ^ 31 ∧ (∀ r ∈ rs, Readable env r) ∧
      ∃ offset, lastOffset 0 (rs.map (·.totLen)) = some offset ∧ LeftAlone offset (tornIn k all) := by
  intro file rs
  have hrs : Written rs := fun r hr => hall r (completeIn_subset k all r hr)
  have hfile : file = rs.flatMap (·.serialize) ++ tornIn k all := take_serialize k all
  obtain ⟨hlen, -⟩ := tornIn_lt hall k
  obtain ⟨hok, hspec⟩ := processAll_spec (pagesRead_new env) rs
  by_cases hsize : file.length < 2 ^ 31
  case neg =>
    refine iff_of_false (fun ⟨s, hs, hrecords, _⟩ => ?_) fun h => hsize h.1
    have hbound := analyze_bound hs (Nat.le_of_not_lt hsize) fun r hr => by
      rw [hrecords] at hr
      obtain ⟨r, hmem, rfl⟩ := List.mem_map.mp hr
      exact (hrs r hmem).2
    rw [hrecords, lengths_records, hfile, List.length_append] at hbound
    omega
  obtain ⟨hnone, hsome⟩ := analyze_records env hrs (tornIn k all) (hfile ▸ hsize)
  rw [← hfile] at hnone hsome
  cases hlast : lastOffset 0 (rs.map (·.totLen)) with
  | none =>
    exact iff_of_false (fun ⟨s, hs, _⟩ => hnone hlast s hs) fun ⟨_, _, _, h, _⟩ => nomatch h
  | some offset =>
    rw [← hok]
    constructor
    · rintro ⟨s, hs, hrecords, -⟩
      obtain ⟨R, -, -, -, -, hrun⟩ := hsome offset hlast
      obtain ⟨s₁, hs₁, -⟩ := bind_eq_ok.mp (hrun ▸ hs)
      refine ⟨hsize, ⟨s₁, hs₁⟩, _, rfl, ?_⟩
      by_contra hnot
      have hmore := (analyze_torn hall hsize hlast hs₁).2 hnot s hs
      rw [(hspec s₁ hs₁).records, hrecords] at hmore
      exact absurd hmore (Nat.lt_irrefl _)
    · rintro ⟨-, ⟨s, hs⟩, _, heq, hleft⟩
      rw [← Option.some.inj heq] at hleft
      exact ⟨s, (analyze_torn hall hsize hlast hs).1 hleft, (hspec s hs).records, (hspec s hs).lsn2log⟩

/-- **Five bytes of a record** are left alone: the length is not there yet. -/
theorem five_bytes_left_alone :
    ∃ s, analyze noTables (((shortLog 2).flatMap (·.serialize)).take 25) = .ok s ∧
      s.records = (completeIn 25 (shortLog 2)).map (fun r => (r, r.totLen)) ∧
      s.lsn2log = lsn2log (completeIn 25 (shortLog 2)) := by
  refine (torn_tail_iff noTables (written_shortLog (by decide)) 25).mpr ⟨?_, ?_, 1 * 20, ?_, ?_⟩
  · rw [List.length_take]
    exact Nat.lt_of_le_of_lt (Nat.min_le_left _ _) (by decide)
  · exact readable_shortLog 1
  · exact lastOffset_shortLog (n := 1) (by decide)
  · exact ⟨by decide, .inl (by decide)⟩

/-- **Twelve bytes of a COMMIT record** are taken for the record: its length is there, and the numbers of
the transaction are zeros. -/
theorem twelve_bytes_committed : Written (shortLog 2) ∧
    (∀ r ∈ completeIn 32 (shortLog 2), Readable noTables r) ∧
    ¬ ∃ s, analyze noTables (((shortLog 2).flatMap (·.serialize)).take 32) = .ok s ∧
      s.records = (completeIn 32 (shortLog 2)).map (fun r => (r, r.totLen)) := by
  have hrs : Written (shortLog 2) := written_shortLog (by decide)
  have hreadable : ∀ r ∈ completeIn 32 (shortLog 2), Readable noTables r := readable_shortLog 1
  refine ⟨hrs, hreadable, ?_⟩
  rintro ⟨s, hs, hrecords⟩
  obtain ⟨hok, hspec⟩ := processAll_spec (pagesRead_new noTables) (completeIn 32 (shortLog 2))
  obtain ⟨s₁, hs₁⟩ := hok.mpr hreadable
  have hsize : (((shortLog 2).flatMap (·.serialize)).take 32).length < 2 ^ 31 := by
    rw [List.length_take]
    exact Nat.lt_of_le_of_lt (Nat.min_le_left _ _) (by decide)
  have hnot : ¬ LeftAlone (1 * 20) (tornIn 32 (shortLog 2)) := by
    rintro ⟨-, hzero | ⟨hbeyond, -⟩⟩
    · exact absurd hzero (by decide)
    · exact absurd hbeyond (by decide)
  have hmore := (analyze_torn hrs hsize (lastOffset_shortLog (n := 1) (by decide)) hs₁).2 hnot s hs
  rw [(hspec s₁ hs₁).records, hrecords] at hmore
  exact absurd hmore (Nat.lt_irrefl _)

end Rmdb
