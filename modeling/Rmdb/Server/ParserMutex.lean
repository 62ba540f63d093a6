import Mathlib.Data.Nat.Notation
import Mathlib.Logic.Function.Basic
import Rmdb.Lib.Transition

namespace Rmdb

open Lib

/-!
# The parser and its mutex (`client_handler`, from `buffer_mutex` to `CONTINUE`)

The lexer's current buffer, its start condition and `ast::parse_tree` are global.  A client locks
`buffer_mutex` before `yy_scan_string` and unlocks it after `do_analyze`, in the handler of
`std::exception`, or at `CONTINUE` if `finish_analyze` is still false.

* `TextParser` — `yyparse`, with the state of the lexer that outlives a buffer;
* `ParserPc`, `ParserStep` — a client on its way, each access to what is shared a step of its own;
* `Protocol` — what the mutex is for;
* `Own`, `Inv` — what a client that holds the mutex can rely on;
* `parser_protocol` — the protocol is kept as long as no call of `yyparse` throws or takes a text for
  another statement than a fresh lexer would;
* `quiet_of_tidy` — so it is kept if no text throws or ends inside a comment.

`buffer_mutex` is a mutex of the default kind: `unlock` frees it, whoever has locked it.
-/

/-- What `yyparse` does with a text. -/
inductive ParseResult (Tree : Type) where
  /-- It returns another value than 0; `parse_tree` stays as it is. -/
  | fails
  /-- The lexer throws, as `std::stoll` does for a number of twenty digits. -/
  | throws
  /-- It returns 0 and has set `parse_tree`. -/
  | accepts (tree : Option Tree)
  deriving DecidableEq, Repr

/-- The generated parser: `yyparse` on the text of the current buffer.  `yy_scan_string` leaves the start
    condition of the lexer as it is, so a comment that one text opens goes on in the next. -/
structure TextParser (Lex Tree : Type) where
  /-- The lexer of a server that has just been started. -/
  initial : Lex
  yyparse : Lex → String → ParseResult Tree × Lex

/-- What `yyparse` makes of a text on its own. -/
def TextParser.parse {Lex Tree : Type} (p : TextParser Lex Tree) (text : String) : ParseResult Tree :=
  (p.yyparse p.initial text).1

/-- How `do_analyze` ends. -/
inductive AnalyzeResult where
  | returns
  /-- An `RMDBError` or a `TransactionAbortException`. -/
  | throwsCaught
  /-- Another exception: nobody catches it. -/
  | throwsOther
  deriving DecidableEq, Repr

/-- Where a client stands, with its text. -/
inductive ParserPc (Tree : Type) where
  | reading
  /-- At `pthread_mutex_lock`. -/
  | wanting (text : String)
  /-- At `yy_scan_string`. -/
  | locked (text : String)
  /-- In `yyparse`. -/
  | scanning (text : String)
  /-- In the handler of `std::exception`. -/
  | thrown (text : String)
  /-- At the call of `do_analyze`. -/
  | parsed (text : String)
  /-- In `do_analyze`, with the tree it was called with. -/
  | analyzing (text : String) (tree : Tree)
  /-- Back from `do_analyze`. -/
  | analyzed (text : String)
  /-- At `CONTINUE`, and `finish_analyze` is false. -/
  | abandoning (text : String)
  /-- Planning and executing. -/
  | executing
  | replying
  deriving DecidableEq, Repr

namespace ParserPc

variable {Tree : Type}

/-- Between the lock of `buffer_mutex` and its unlock. -/
def holds : ParserPc Tree → Bool
  | .locked _ | .scanning _ | .thrown _ | .parsed _ | .analyzing _ _ | .analyzed _ | .abandoning _ => true
  | .reading | .wanting _ | .executing | .replying => false

/-- From the lock of `buffer_mutex` until `do_analyze` ends or the request is abandoned. -/
def inSection : ParserPc Tree → Bool
  | .locked _ | .scanning _ | .parsed _ | .analyzing _ _ => true
  | _ => false

/-- In `yyparse` or in `do_analyze`. -/
def busy : ParserPc Tree → Bool
  | .scanning _ | .analyzing _ _ => true
  | _ => false

/-- A text that is not parsed yet. -/
def pending : ParserPc Tree → Option String
  | .wanting text | .locked text | .scanning text => some text
  | _ => none

/-- Within the section the mutex is held. -/
theorem holds_of_inSection {pc : ParserPc Tree} (h : pc.inSection = true) : pc.holds = true := by
  cases pc <;> first | rfl | cases h

/-- So it is while the parser runs. -/
theorem holds_of_busy {pc : ParserPc Tree} (h : pc.busy = true) : pc.holds = true := by
  cases pc <;> first | rfl | cases h

end ParserPc

/-- What the clients share, and where each of them stands.  `locks` and `unlocks` count the calls of
    each client. -/
structure ParserState (Lex Tree : Type) where
  pc : ℕ → ParserPc Tree
  /-- `buffer_mutex` is locked. -/
  mutex : Bool
  /-- The lexer's current buffer: whose it is, and its text. -/
  buffer : Option (ℕ × String)
  /-- What the lexer keeps from one buffer to the next. -/
  lex : Lex
  /-- `ast::parse_tree`. -/
  parseTree : Option Tree
  locks : ℕ → ℕ
  unlocks : ℕ → ℕ
  /-- The process is running. -/
  alive : Bool

/-- What a client does next. -/
inductive ParserStep where
  | receive (i : ℕ) (text : String)
  | lock (i : ℕ)
  /-- `yy_scan_string`. -/
  | scan (i : ℕ)
  /-- `yyparse`. -/
  | parse (i : ℕ)
  /-- The unlock in the handler. -/
  | unlockThrown (i : ℕ)
  /-- The call of `do_analyze`. -/
  | call (i : ℕ)
  | analyze (i : ℕ) (r : AnalyzeResult)
  /-- The unlock after `do_analyze`. -/
  | unlockAnalyzed (i : ℕ)
  /-- The unlock at `CONTINUE`. -/
  | unlockAbandoned (i : ℕ)
  | execute (i : ℕ)
  | reply (i : ℕ)
  deriving DecidableEq, Repr

namespace ParserState

variable {Lex Tree : Type}

/-- The server before its first client. -/
def start (p : TextParser Lex Tree) : ParserState Lex Tree where
  pc _ := .reading
  mutex := false
  buffer := none
  lex := p.initial
  parseTree := none
  locks _ := 0
  unlocks _ := 0
  alive := true

/-- Client `i` goes on. -/
def goto (s : ParserState Lex Tree) (i : ℕ) (pc : ParserPc Tree) : ParserState Lex Tree :=
  { s with pc := Function.update s.pc i pc }

/-- `pthread_mutex_unlock`. -/
def unlock (s : ParserState Lex Tree) (i : ℕ) : ParserState Lex Tree :=
  { s with mutex := false, unlocks := Function.update s.unlocks i (s.unlocks i + 1) }

/-- `yy_delete_buffer`. -/
def deleteBuffer (s : ParserState Lex Tree) (i : ℕ) : ParserState Lex Tree :=
  { s with buffer := s.buffer.filter fun b => b.1 ≠ i }

/-- What `yyparse` leaves behind. -/
def parsed (s : ParserState Lex Tree) (i : ℕ) (text : String) :
    ParseResult Tree → ParserState Lex Tree
  | .fails => s.goto i (.abandoning text)
  | .throws => s.goto i (.thrown text)
  | .accepts none => { s with parseTree := none }.goto i (.abandoning text)
  | .accepts (some tree) => { s with parseTree := some tree }.goto i (.parsed text)

/-- One step, where it is possible.  Without a current buffer `yyparse` waits for standard input. -/
def step (p : TextParser Lex Tree) (s : ParserState Lex Tree) (a : ParserStep) :
    Option (ParserState Lex Tree) :=
  if s.alive = false then none else
  match a with
  | .receive i text =>
    match s.pc i with
    | .reading => some (s.goto i (.wanting text))
    | _ => none
  | .lock i =>
    match s.pc i, s.mutex with
    | .wanting text, false =>
      some ({ s with
        mutex := true
        locks := Function.update s.locks i (s.locks i + 1) }.goto i (.locked text))
    | _, _ => none
  | .scan i =>
    match s.pc i with
    | .locked text => some ({ s with buffer := some (i, text) }.goto i (.scanning text))
    | _ => none
  | .parse i =>
    match s.pc i, s.buffer with
    | .scanning text, some (_, current) =>
      let r := p.yyparse s.lex current
      some ({ s with lex := r.2 }.parsed i text r.1)
    | _, _ => none
  | .unlockThrown i =>
    match s.pc i with
    | .thrown text => some ((s.unlock i).goto i (.abandoning text))
    | _ => none
  | .call i =>
    match s.pc i, s.parseTree with
    | .parsed text, some tree => some (s.goto i (.analyzing text tree))
    | _, _ => none
  | .analyze i r =>
    match s.pc i with
    | .analyzing text _ =>
      match r with
      | .returns => some (s.goto i (.analyzed text))
      | .throwsCaught => some (s.goto i (.abandoning text))
      | .throwsOther => some { s with alive := false }
    | _ => none
  | .unlockAnalyzed i =>
    match s.pc i with
    | .analyzed _ => some (((s.deleteBuffer i).unlock i).goto i .executing)
    | _ => none
  | .unlockAbandoned i =>
    match s.pc i with
    | .abandoning _ => some (((s.deleteBuffer i).unlock i).goto i .replying)
    | _ => none
  | .execute i =>
    match s.pc i with
    | .executing => some (s.goto i .replying)
    | _ => none
  | .reply i =>
    match s.pc i with
    | .replying => some (s.goto i .reading)
    | _ => none

/-- **What the mutex is for.** While a client is between its lock and the end of its `do_analyze`, no
    other client is in `yyparse` or `do_analyze`; a client analyzes the tree of its own text; and each
    lock is followed by one unlock of the same client. -/
structure Protocol (p : TextParser Lex Tree) (s : ParserState Lex Tree) : Prop where
  exclusion : ∀ i j, i ≠ j → (s.pc i).inSection = true → (s.pc j).busy = false
  ownTree : ∀ i text tree, s.pc i = .analyzing text tree → p.parse text = .accepts (some tree)
  matched : ∀ i, s.locks i = s.unlocks i + if (s.pc i).holds then 1 else 0

end ParserState

/-- **The clients**, in any interleaving. -/
def parserClients {Lex Tree : Type} (p : TextParser Lex Tree) :
    TransitionSystem (ParserState Lex Tree) ParserStep where
  init s := s = .start p
  step s a s' := s.step p a = some s'

/-- The call of `yyparse` does not throw, and a statement it accepts is the one of the text on its own. -/
def QuietCall {Lex Tree : Type} (p : TextParser Lex Tree) (lex : Lex) (text : String) : Prop :=
  (p.yyparse lex text).1 ≠ .throws ∧
    ∀ tree, (p.yyparse lex text).1 = .accepts (some tree) → p.parse text = .accepts (some tree)

/-- The condition on a step, in the state before it. -/
def Quiet {Lex Tree : Type} (p : TextParser Lex Tree) (s : ParserState Lex Tree) : ParserStep → Prop
  | .parse i => ∀ text, s.pc i = .scanning text → QuietCall p s.lex text
  | _ => True

/-- The clients, if every call of `yyparse` is a quiet one. -/
def quietClients {Lex Tree : Type} (p : TextParser Lex Tree) :
    TransitionSystem (ParserState Lex Tree) ParserStep where
  init s := s = .start p
  step s a s' := s.step p a = some s' ∧ Quiet p s a

namespace ParserState

variable {Lex Tree : Type} {p : TextParser Lex Tree} {s s' : ParserState Lex Tree} {i : ℕ}
  {pc : ParserPc Tree}

/-! ### The invariant -/

/-- What a client can rely on: the current buffer is its own while it is in `yyparse`, and `parse_tree`
    is the tree of its text when it calls `do_analyze`. -/
def Own (p : TextParser Lex Tree) (buffer : Option (ℕ × String)) (parseTree : Option Tree)
    (i : ℕ) : ParserPc Tree → Prop
  | .scanning text => buffer = some (i, text)
  | .parsed text => ∃ tree, parseTree = some tree ∧ p.parse text = .accepts (some tree)
  | .analyzing text tree => p.parse text = .accepts (some tree)
  | .thrown _ => False
  | .reading | .wanting _ | .locked _ | .analyzed _ | .abandoning _ | .executing | .replying => True

/-- Without the mutex a client does not look at what is shared. -/
theorem Own.of_not_holds {b b' : Option (ℕ × String)} {t t' : Option Tree}
    (h : Own p b t i pc) (hpc : pc.holds = false) : Own p b' t' i pc := by
  cases pc <;> first | exact h | cases hpc

/-- **The invariant.** One client at most is between lock and unlock, the mutex is locked exactly then,
    and every client finds its own buffer and tree. -/
structure Inv (p : TextParser Lex Tree) (s : ParserState Lex Tree) : Prop where
  sole : ∀ i j, (s.pc i).holds = true → (s.pc j).holds = true → i = j
  mutex : s.mutex = true ↔ ∃ i, (s.pc i).holds = true
  matched : ∀ i, s.locks i = s.unlocks i + if (s.pc i).holds then 1 else 0
  own : ∀ i, Own p s.buffer s.parseTree i (s.pc i)

/-- The invariant holds at the start. -/
theorem inv_start : (start p).Inv p where
  sole i j hi := by cases hi
  mutex := ⟨fun h => (by cases h), fun ⟨_, h⟩ => (by cases h)⟩
  matched _ := rfl
  own _ := trivial

/-- The invariant says what the mutex is for. -/
theorem Inv.protocol (h : s.Inv p) : s.Protocol p where
  exclusion i j hij hi := by
    cases hj : (s.pc j).busy with
    | false => rfl
    | true => exact absurd (h.sole i j (ParserPc.holds_of_inSection hi) (ParserPc.holds_of_busy hj)) hij
  ownTree i text tree hpc := by
    have hown := h.own i
    rw [hpc] at hown
    exact hown
  matched := h.matched

/-! ### Steps -/

/-- What a step does, action by action. -/
inductive Steps (p : TextParser Lex Tree) (s : ParserState Lex Tree) :
    ParserStep → ParserState Lex Tree → Prop
  | receive {i : ℕ} {text : String} (hpc : s.pc i = .reading) :
      Steps p s (.receive i text) (s.goto i (.wanting text))
  | lock {i : ℕ} {text : String} (hpc : s.pc i = .wanting text) (hfree : s.mutex = false) :
      Steps p s (.lock i) ({ s with
        mutex := true
        locks := Function.update s.locks i (s.locks i + 1) }.goto i (.locked text))
  | scan {i : ℕ} {text : String} (hpc : s.pc i = .locked text) :
      Steps p s (.scan i) ({ s with buffer := some (i, text) }.goto i (.scanning text))
  | parse {i owner : ℕ} {text current : String} (hpc : s.pc i = .scanning text)
      (hbuffer : s.buffer = some (owner, current)) :
      Steps p s (.parse i) ({ s with lex := (p.yyparse s.lex current).2 }.parsed i text
        (p.yyparse s.lex current).1)
  | unlockThrown {i : ℕ} {text : String} (hpc : s.pc i = .thrown text) :
      Steps p s (.unlockThrown i) ((s.unlock i).goto i (.abandoning text))
  | call {i : ℕ} {text : String} {tree : Tree} (hpc : s.pc i = .parsed text) (htree : s.parseTree = some tree) :
      Steps p s (.call i) (s.goto i (.analyzing text tree))
  | returns {i : ℕ} {text : String} {tree : Tree} (hpc : s.pc i = .analyzing text tree) :
      Steps p s (.analyze i .returns) (s.goto i (.analyzed text))
  | throwsCaught {i : ℕ} {text : String} {tree : Tree} (hpc : s.pc i = .analyzing text tree) :
      Steps p s (.analyze i .throwsCaught) (s.goto i (.abandoning text))
  | throwsOther {i : ℕ} {text : String} {tree : Tree} (hpc : s.pc i = .analyzing text tree) :
      Steps p s (.analyze i .throwsOther) { s with alive := false }
  | unlockAnalyzed {i : ℕ} {text : String} (hpc : s.pc i = .analyzed text) :
      Steps p s (.unlockAnalyzed i) (((s.deleteBuffer i).unlock i).goto i .executing)
  | unlockAbandoned {i : ℕ} {text : String} (hpc : s.pc i = .abandoning text) :
      Steps p s (.unlockAbandoned i) (((s.deleteBuffer i).unlock i).goto i .replying)
  | execute {i : ℕ} (hpc : s.pc i = .executing) : Steps p s (.execute i) (s.goto i .replying)
  | reply {i : ℕ} (hpc : s.pc i = .replying) : Steps p s (.reply i) (s.goto i .reading)

/-- A step does one of these things. -/
theorem steps_of_step {a : ParserStep} (hs : s.step p a = some s') : Steps p s a s' := by
  unfold ParserState.step at hs
  split at hs
  · cases hs
  cases a with
  | receive i text =>
    dsimp only at hs
    split at hs
    · rename_i hpc
      cases hs
      exact .receive hpc
    · cases hs
  | lock i =>
    dsimp only at hs
    split at hs
    · rename_i text hpc hfree
      cases hs
      exact .lock hpc hfree
    · cases hs
  | scan i =>
    dsimp only at hs
    split at hs
    · rename_i text hpc
      cases hs
      exact .scan hpc
    · cases hs
  | parse i =>
    dsimp only at hs
    split at hs
    · rename_i text owner current hpc hbuffer
      cases hs
      exact .parse hpc hbuffer
    · cases hs
  | unlockThrown i =>
    dsimp only at hs
    split at hs
    · rename_i text hpc
      cases hs
      exact .unlockThrown hpc
    · cases hs
  | call i =>
    dsimp only at hs
    split at hs
    · rename_i text tree hpc htree
      cases hs
      exact .call hpc htree
    · cases hs
  | analyze i r =>
    dsimp only at hs
    split at hs
    · rename_i text tree hpc
      cases r <;> cases hs
      · exact .returns hpc
      · exact .throwsCaught hpc
      · exact .throwsOther hpc
    · cases hs
  | unlockAnalyzed i =>
    dsimp only at hs
    split at hs
    · rename_i text hpc
      cases hs
      exact .unlockAnalyzed hpc
    · cases hs
  | unlockAbandoned i =>
    dsimp only at hs
    split at hs
    · rename_i text hpc
      cases hs
      exact .unlockAbandoned hpc
    · cases hs
  | execute i =>
    dsimp only at hs
    split at hs
    · rename_i hpc
      cases hs
      exact .execute hpc
    · cases hs
  | reply i =>
    dsimp only at hs
    split at hs
    · rename_i hpc
      cases hs
      exact .reply hpc
    · cases hs

/-! ### The invariant is kept -/

/-- Who is between lock and unlock after client `i` has gone on. -/
theorem holds_of_goes (hpc : s'.pc = Function.update s.pc i pc) (j : ℕ) :
    (s'.pc j).holds = if j = i then pc.holds else (s.pc j).holds := by
  rw [hpc, Function.update_apply]
  split <;> rfl

/-- The other clients find what they rely on, if only a holder touches what is shared. -/
theorem Inv.own_of_goes (h : s.Inv p) (hpc : s'.pc = Function.update s.pc i pc)
    (hown : Own p s'.buffer s'.parseTree i pc)
    (hshared : (s.pc i).holds = false → s'.buffer = s.buffer ∧ s'.parseTree = s.parseTree) (j : ℕ) :
    Own p s'.buffer s'.parseTree j (s'.pc j) := by
  rw [hpc]
  by_cases hj : j = i
  · subst hj
    rw [Function.update_self]
    exact hown
  · rw [Function.update_of_ne hj]
    cases hi : (s.pc i).holds with
    | false =>
      obtain ⟨hb, ht⟩ := hshared hi
      rw [hb, ht]
      exact h.own j
    | true =>
      -- the others are not between lock and unlock
      refine (h.own j).of_not_holds (Bool.eq_false_iff.mpr fun hc => hj ?_)
      exact h.sole j i hc hi

/-- A client goes on and neither takes nor frees the mutex. -/
theorem Inv.move (h : s.Inv p) (hpc : s'.pc = Function.update s.pc i pc)
    (hmutex : s'.mutex = s.mutex) (hcount : s'.locks = s.locks ∧ s'.unlocks = s.unlocks)
    (hholds : pc.holds = (s.pc i).holds) (hown : Own p s'.buffer s'.parseTree i pc)
    (hshared : (s.pc i).holds = false → s'.buffer = s.buffer ∧ s'.parseTree = s.parseTree) :
    s'.Inv p := by
  have hsame : ∀ j, (s'.pc j).holds = (s.pc j).holds := by
    intro j
    rw [holds_of_goes hpc]
    split
    · rename_i hj
      rw [hj, hholds]
    · rfl
  refine ⟨fun j k hj hk => ?_, ?_, fun j => ?_, h.own_of_goes hpc hown hshared⟩
  · rw [hsame] at hj hk
    exact h.sole j k hj hk
  · rw [hmutex, h.mutex]
    simp only [hsame]
  · rw [hsame, hcount.1, hcount.2]
    exact h.matched j

/-- A client locks the mutex. -/
theorem Inv.acquire (h : s.Inv p) (hpc : s'.pc = Function.update s.pc i pc)
    (hfree : s.mutex = false) (hmutex : s'.mutex = true)
    (hlocks : s'.locks = Function.update s.locks i (s.locks i + 1)) (hunlocks : s'.unlocks = s.unlocks)
    (hholds : pc.holds = true) (hown : Own p s'.buffer s'.parseTree i pc)
    (hshared : s'.buffer = s.buffer ∧ s'.parseTree = s.parseTree) : s'.Inv p := by
  have hnone : ∀ j, (s.pc j).holds = false := by
    intro j
    refine Bool.eq_false_iff.mpr fun hc => ?_
    rw [h.mutex.mpr ⟨j, hc⟩] at hfree
    cases hfree
  have hnew : ∀ j, (s'.pc j).holds = true ↔ j = i := by
    intro j
    rw [holds_of_goes hpc, hholds, hnone]
    split <;> simp [*]
  refine ⟨fun j k hj hk => ?_, ?_, fun j => ?_, h.own_of_goes hpc hown fun _ => hshared⟩
  · exact ((hnew j).mp hj).trans ((hnew k).mp hk).symm
  · rw [hmutex]
    exact ⟨fun _ => ⟨i, (hnew i).mpr rfl⟩, fun _ => rfl⟩
  · have hold := h.matched j
    rw [hnone] at hold
    rw [hlocks, hunlocks, holds_of_goes hpc, hholds, hnone, Function.update_apply]
    by_cases hj : j = i
    · subst hj
      rw [if_pos rfl, if_pos rfl, if_pos rfl, hold]
      rfl
    · rw [if_neg hj, if_neg hj]
      exact hold

/-- The client that holds the mutex unlocks it. -/
theorem Inv.release (h : s.Inv p) (hpc : s'.pc = Function.update s.pc i pc)
    (hold : (s.pc i).holds = true) (hmutex : s'.mutex = false) (hlocks : s'.locks = s.locks)
    (hunlocks : s'.unlocks = Function.update s.unlocks i (s.unlocks i + 1))
    (hholds : pc.holds = false) (hown : Own p s'.buffer s'.parseTree i pc) :
    s'.Inv p := by
  have hnone : ∀ j, (s'.pc j).holds = false := by
    intro j
    rw [holds_of_goes hpc]
    by_cases hj : j = i
    · rw [if_pos hj, hholds]
    · rw [if_neg hj]
      exact Bool.eq_false_iff.mpr fun hc => hj (h.sole j i hc hold)
  refine ⟨fun j k hj => ?_, ?_, fun j => ?_, h.own_of_goes hpc hown fun hc => ?_⟩
  · rw [hnone] at hj
    cases hj
  · rw [hmutex]
    refine ⟨fun hc => (by cases hc), fun ⟨j, hj⟩ => ?_⟩
    rw [hnone] at hj
    cases hj
  · have hcount := h.matched j
    rw [hlocks, hunlocks, hnone, Function.update_apply]
    by_cases hj : j = i
    · subst hj
      rw [hold, if_pos rfl] at hcount
      rw [if_pos rfl, hcount]
      rfl
    · have hne : (s.pc j).holds = false := Bool.eq_false_iff.mpr fun hc => hj (h.sole j i hc hold)
      rw [hne] at hcount
      rw [if_neg hj]
      exact hcount
  · rw [hold] at hc
    cases hc

/-- A client in `yyparse` reads its own text. -/
theorem Inv.current_eq (h : s.Inv p) {text current : String} {owner : ℕ} (hpc : s.pc i = .scanning text)
    (hbuffer : s.buffer = some (owner, current)) : current = text := by
  have hown := h.own i
  rw [hpc] at hown
  rw [show s.buffer = some (i, text) from hown] at hbuffer
  cases hbuffer
  rfl

/-- What `yyparse` leaves behind, for a client that finds its own buffer. -/
theorem Inv.parsed (h : s.Inv p) {text : String} (hpc : s.pc i = .scanning text)
    (hquiet : QuietCall p s.lex text) :
    ({ s with lex := (p.yyparse s.lex text).2 }.parsed i text (p.yyparse s.lex text).1).Inv p := by
  have hold : (s.pc i).holds = true := by
    rw [hpc]
    rfl
  have hno : ¬ (s.pc i).holds = false := by
    rw [hold]
    decide
  obtain ⟨hthrows, htree⟩ := hquiet
  cases hres : (p.yyparse s.lex text).1 with
  | fails => exact h.move rfl rfl ⟨rfl, rfl⟩ hold.symm trivial fun hc => absurd hc hno
  | throws => exact absurd hres hthrows
  | accepts tree =>
    cases tree with
    | none => exact h.move rfl rfl ⟨rfl, rfl⟩ hold.symm trivial fun hc => absurd hc hno
    | some tree =>
      exact h.move rfl rfl ⟨rfl, rfl⟩ hold.symm ⟨tree, rfl, htree tree hres⟩ fun hc => absurd hc hno

/-- **Every step keeps the invariant**, if the calls of `yyparse` are quiet. -/
theorem Inv.step (h : s.Inv p) {a : ParserStep} (hs : s.step p a = some s')
    (hquiet : Quiet p s a) : s'.Inv p := by
  cases steps_of_step hs with
  | receive hpc =>
    -- a client outside the mutex: nothing is shared
    exact h.move rfl rfl ⟨rfl, rfl⟩ (by rw [hpc]; rfl) trivial fun _ => ⟨rfl, rfl⟩
  | lock hpc hfree =>
    -- the mutex was free, so nobody was between lock and unlock
    exact h.acquire rfl hfree rfl rfl rfl rfl trivial ⟨rfl, rfl⟩
  | scan hpc =>
    -- the client makes the buffer its own
    refine h.move rfl rfl ⟨rfl, rfl⟩ (by rw [hpc]; rfl) rfl fun hc => ?_
    rw [hpc] at hc
    cases hc
  | parse hpc hbuffer =>
    -- the buffer is still its own, and the call is quiet
    obtain rfl := h.current_eq hpc hbuffer
    exact h.parsed hpc (hquiet _ hpc)
  | @unlockThrown i text hpc =>
    -- no call has thrown
    have hown := h.own i
    rw [hpc] at hown
    exact hown.elim
  | @call i text tree hpc htree =>
    -- `parse_tree` is still the tree of its text
    have hown := h.own i
    rw [hpc] at hown
    obtain ⟨mine, hmine, hparse⟩ := hown
    rw [htree] at hmine
    cases hmine
    exact h.move rfl rfl ⟨rfl, rfl⟩ (by rw [hpc]; rfl) hparse fun _ => ⟨rfl, rfl⟩
  | returns hpc | throwsCaught hpc =>
    -- the mutex stays locked
    exact h.move rfl rfl ⟨rfl, rfl⟩ (by rw [hpc]; rfl) trivial fun _ => ⟨rfl, rfl⟩
  | throwsOther hpc =>
    -- nobody goes on any more
    exact ⟨h.sole, h.mutex, h.matched, h.own⟩
  | unlockAnalyzed hpc | unlockAbandoned hpc =>
    -- the client that has locked the mutex unlocks it
    exact h.release rfl (by rw [hpc]; rfl) rfl rfl rfl rfl trivial
  | execute hpc | reply hpc =>
    -- outside the mutex again
    exact h.move rfl rfl ⟨rfl, rfl⟩ (by rw [hpc]; rfl) trivial fun _ => ⟨rfl, rfl⟩

end ParserState

/-- **The mutex does its work** as long as no call of `yyparse` throws or takes a text for another
    statement than the text is on its own: in every interleaving of any number of clients, the parser and
    the analyzer are used by one client at a time, each client analyzes the tree of its own text, and
    every lock has its unlock. -/
theorem parser_protocol {Lex Tree : Type} (p : TextParser Lex Tree) (s : ParserState Lex Tree)
    (h : (quietClients p).Reachable s) : s.Protocol p := by
  have hinv : s.Inv p :=
    h.invariant (fun _ hi => hi ▸ ParserState.inv_start) fun _ _ _ hs hstep => hs.step hstep.1 hstep.2
  exact hinv.protocol

/-! ### Texts that leave the lexer as it was -/

/-- A text on which `yyparse` does not throw and that does not end inside a comment. -/
def TextParser.Tidy {Lex Tree : Type} (p : TextParser Lex Tree) (text : String) : Prop :=
  p.parse text ≠ .throws ∧ (p.yyparse p.initial text).2 = p.initial

/-- The text of a request is such a text. -/
def TidyStep {Lex Tree : Type} (p : TextParser Lex Tree) : ParserStep → Prop
  | .receive _ text => p.Tidy text
  | _ => True

/-- The clients, if all of them send such texts. -/
def tidyClients {Lex Tree : Type} (p : TextParser Lex Tree) :
    TransitionSystem (ParserState Lex Tree) ParserStep where
  init s := s = .start p
  step s a s' := s.step p a = some s' ∧ TidyStep p a

namespace ParserState

variable {Lex Tree : Type} {p : TextParser Lex Tree} {s s' : ParserState Lex Tree} {i : ℕ}
  {pc : ParserPc Tree}

/-- The lexer is as it was at first, and so it will be after the texts on their way. -/
structure Clean (p : TextParser Lex Tree) (s : ParserState Lex Tree) : Prop where
  lex : s.lex = p.initial
  pending : ∀ i text, (s.pc i).pending = some text → p.Tidy text

/-- A step after which the lexer is in its first state. -/
theorem Clean.goes (h : s.Clean p) (hpc : s'.pc = Function.update s.pc i pc)
    (hlex : s'.lex = p.initial) (hpending : ∀ text, pc.pending = some text → p.Tidy text) :
    s'.Clean p := by
  refine ⟨hlex, fun j text hj => ?_⟩
  rw [hpc, Function.update_apply] at hj
  split at hj
  · exact hpending text hj
  · exact h.pending j text hj

/-- A call of `yyparse` in such a state is a quiet one. -/
theorem Clean.quiet (h : s.Clean p) (a : ParserStep) : Quiet p s a := by
  cases a with
  | parse i =>
    intro text hpc
    have htidy := h.pending i text (by rw [hpc]; rfl)
    rw [h.lex]
    exact ⟨htidy.1, fun tree htree => htree⟩
  | _ => trivial

/-- A tidy step keeps the lexer in its first state between texts. -/
theorem Clean.step (h : s.Clean p) (hinv : s.Inv p) {a : ParserStep} (hs : s.step p a = some s')
    (htidy : TidyStep p a) : s'.Clean p := by
  cases steps_of_step hs with
  | receive hpc => exact h.goes rfl h.lex fun _ htext => Option.some.inj htext ▸ htidy
  | lock hpc | scan hpc =>
    -- the text is the one that was pending
    exact h.goes rfl h.lex fun _ htext => h.pending _ _ (by rw [hpc]; exact htext)
  | @parse i owner text current hpc hbuffer =>
    -- the text in the buffer leaves the lexer as it was
    have hlex : (p.yyparse s.lex current).2 = p.initial := by
      rw [h.lex, hinv.current_eq hpc hbuffer]
      exact (h.pending i text (by rw [hpc]; rfl)).2
    cases (p.yyparse s.lex current).1 with
    | fails => exact h.goes rfl hlex nofun
    | throws => exact h.goes rfl hlex nofun
    | accepts tree => cases tree <;> exact h.goes rfl hlex nofun
  | throwsOther hpc => exact ⟨h.lex, h.pending⟩
  | unlockThrown | call | returns | throwsCaught | unlockAnalyzed | unlockAbandoned | execute | reply =>
    exact h.goes rfl h.lex nofun

end ParserState

/-- **Texts that neither throw nor end inside a comment** keep every call of `yyparse` quiet. -/
theorem quiet_of_tidy {Lex Tree : Type} {p : TextParser Lex Tree} {s : ParserState Lex Tree}
    (h : (tidyClients p).Reachable s) : (quietClients p).Reachable s := by
  have hboth : (quietClients p).Reachable s ∧ s.Inv p ∧ s.Clean p := by
    refine h.invariant (I := fun s => (quietClients p).Reachable s ∧ s.Inv p ∧ s.Clean p) ?_ ?_
    · rintro s rfl
      exact ⟨.init rfl, ParserState.inv_start, rfl, nofun⟩
    · rintro s a s' ⟨hreach, hinv, hclean⟩ ⟨hstep, htidy⟩
      have hquiet := hclean.quiet a
      exact ⟨.step hreach ⟨hstep, hquiet⟩, hinv.step hstep hquiet, hclean.step hinv hstep htidy⟩
  exact hboth.1

/-! ### Three clients -/

/-- The trees of the statements below. -/
inductive SampleTree where
  | showTables
  | txnBegin
  | insert
  | dropTable
  deriving DecidableEq, Repr

/-- A number that `std::stoll` refuses. -/
def longNumber : String := "insert into t values (99999999999999999999);"

/-- Two statements, with a comment between them. -/
def twoStatements : String := "insert into t values (1); /* x */ drop table t;"

/-- `yyparse` on five texts.  The state of the lexer says whether a comment is open. -/
def sampleParser : TextParser Bool SampleTree where
  initial := false
  yyparse inComment text :=
    if inComment then
      -- the end of a comment that is open is looked for first
      if text = twoStatements then (.accepts (some .dropTable), false) else (.accepts none, true)
    else if text = "/*" then (.accepts none, true)
    else if text = longNumber then (.throws, false)
    else if text = "show tables;" then (.accepts (some .showTables), false)
    else if text = "begin;" then (.accepts (some .txnBegin), false)
    else if text = twoStatements then (.accepts (some .insert), false)
    else (.fails, false)

/-- A statement that is not the one of the text: the text before it has left a comment open. -/
example : ∃ s, [.receive 0 "/*", .lock 0, .scan 0, .parse 0, .unlockAbandoned 0,
      .receive 1 twoStatements, .lock 1, .scan 1, .parse 1, .call 1].foldlM
        (ParserState.step sampleParser) (.start sampleParser) = some s ∧
    s.pc 1 = .analyzing twoStatements .dropTable ∧
    sampleParser.parse twoStatements = .accepts (some .insert) :=
  ⟨_, rfl, rfl, rfl⟩

/-- The theorem in a run of two clients, the first of which is in `do_analyze`. -/
theorem parser_protocol_two_clients : ∃ s, (quietClients sampleParser).Reachable s ∧
    s.pc 0 = .analyzing "show tables;" .showTables ∧ (s.pc 1).busy = false ∧
    s.Protocol sampleParser := by
  have hstep : ∀ {s s' : ParserState Bool SampleTree} (a : ParserStep),
      (quietClients sampleParser).Reachable s → s.step sampleParser a = some s' →
      Quiet sampleParser s a → (quietClients sampleParser).Reachable s' :=
    fun a h hs hq => .step h ⟨hs, hq⟩
  have h₁ := hstep (.receive 0 "show tables;") (.init rfl) rfl trivial
  have h₂ := hstep (.receive 1 "begin;") h₁ rfl trivial
  have h₃ := hstep (.lock 0) h₂ rfl trivial
  have h₄ := hstep (.scan 0) h₃ rfl trivial
  have hquiet : QuietCall sampleParser false "show tables;" :=
    ⟨by decide, fun tree htree => htree⟩
  have h₅ := hstep (.parse 0) h₄ rfl fun text hpc => by
    cases hpc
    exact hquiet
  have h₆ := hstep (.call 0) h₅ rfl trivial
  have hp := parser_protocol sampleParser _ h₆
  exact ⟨_, h₆, rfl, rfl, hp⟩

/-- Client 0 unlocks twice, and the second time it frees the mutex of client 1. -/
def doubleUnlock : List ParserStep :=
  [.receive 0 longNumber, .receive 1 "show tables;", .receive 2 "begin;", .lock 0, .scan 0, .parse 0,
    .unlockThrown 0, .lock 1, .scan 1, .parse 1, .unlockAbandoned 0, .lock 2, .scan 2, .parse 2, .call 1]

/-- **A client analyzes the tree of another.** The lexer throws for client 0, which unlocks in the handler
    and again at `CONTINUE`; client 2 parses between the `yyparse` and the `do_analyze` of client 1, which
    then analyzes the tree of client 2. -/
theorem parser_double_unlock : ∃ s,
    doubleUnlock.foldlM (ParserState.step sampleParser) (.start sampleParser) = some s ∧
    (parserClients sampleParser).Reachable s ∧ s.pc 1 = .analyzing "show tables;" .txnBegin ∧
    (s.pc 2).inSection = true ∧ s.locks 0 = 1 ∧ s.unlocks 0 = 2 ∧ ¬ s.Protocol sampleParser := by
  obtain ⟨s, hs⟩ : ∃ s,
      doubleUnlock.foldlM (ParserState.step sampleParser) (.start sampleParser) = some s := ⟨_, rfl⟩
  have hreach : (parserClients sampleParser).Reachable s :=
    TransitionSystem.Reachable.foldlM (fun _ _ _ hstep => hstep) (.init rfl) hs
  cases hs
  refine ⟨_, rfl, hreach, rfl, rfl, rfl, rfl, fun hp => ?_⟩
  have hown := hp.ownTree 1 "show tables;" .txnBegin rfl
  exact absurd hown (by decide)

end Rmdb
