import Rmdb.Parser.StackValues

namespace Rmdb

open Lib Ast

/-!
# `yyparse` and the automaton (`parser/yacc.tab.cpp`)

`yyparse` goes step by step with the automaton over the values of the grammar, whatever the slots and `yylval`
hold at the start besides empty lists.

* `Yacc.Sim` — the state of `yyparse` and the configuration of the automaton;
* `Yacc.Sim.step` — they go together;
* `Yacc.yyrun_eq` — the runs end alike.
-/

namespace Yacc

variable {ε : Type}

/-- What `yyparse` makes of the end of a parse, when this tree was left from before. -/
def result (parseTree : Option TreeNode) : Parser.Outcome (Except ε Token) Sem → YyResult ε
  | .accepted (.parseTree tree) _ => .returned 0 tree
  | .accepted _ _ => .unreached
  | .rejected => .returned 1 parseTree
  | .exhausted => .returned 2 parseTree
  | .unread (.error e :: _) => .thrown e
  | .unread _ => .starved

/-- The state of `yyparse` is that of the automaton, which has read these tokens. -/
structure Sim (s : YyState ε) (c : Parser.Config Nat (Except ε Token) Sem) (ts : List (Except ε Token)) :
    Prop where
  stands : report.Stands (parser ε) c.stack ts
  frame : Frame s c.stack
  input : s.yychar = none ∧ c.input = s.input ∨
    ∃ t, s.yychar = some t ∧ c.input = .ok t :: s.input ∧ s.yylval.Holds t.value
  yylval : ∀ cl : Clause, cl.Empty s.yylval
  slots : ∀ cl : Clause, (∀ i, cl.Empty (s.yyvsa i)) ∨ Seen cl.token ts

/-- A step of `yyparse` is this step of the automaton. -/
def Follows (parseTree : Option TreeNode) (ts : List (Except ε Token))
    (x : Parser.Config Nat (Except ε Token) Sem ⊕ Parser.Outcome (Except ε Token) Sem)
    (y : YyState ε ⊕ YyResult ε) : Prop :=
  match x with
  | .inl c' => ∃ s' us, y = .inl s' ∧ s'.parseTree = parseTree ∧ Sim s' c' (ts ++ us)
  | .inr o => y = .inr (result parseTree o)

/-! ### What the tables do not do -/

/-- A rule is found under its number. -/
theorem Rule.num_ofNum {n : Nat} {r : Rule} (h : Rule.ofNum n = some r) : r.num = n := by
  have hall : ∀ k < 90, (Rule.all[k]?).map Rule.num = some (k + 2) := by decide
  have hlen : Rule.all.length = 90 := rfl
  unfold Rule.ofNum at h
  split at h
  · cases h
  · have hlt := (List.getElem?_eq_some_iff.mp h).1
    have hk := hall (n - 2) (by omega)
    rw [h] at hk
    have hnum := Option.some.inj hk
    omega

/-- The states that a parse comes to. -/
def Reached (q : Nat) : Prop := q = 0 ∨ report.items q ≠ []

instance (q : Nat) : Decidable (Reached q) := inferInstanceAs (Decidable (_ ∨ _))

/-- The states of the tables. -/
theorem Reached.lt {q : Nat} (h : Reached q) : q < 180 := by
  by_contra hq
  rcases h with rfl | h
  · exact hq (by decide)
  · exact h (Rows.get_of_le [] (n := 18) (by decide) (by omega))

/-- A state without a default reads a token. -/
theorem yydefact_reached : ∀ q < 180, Reached q →
    (yydefact.get q 0 = 0 → pactIsDefault q = false) ∧
      (yydefact.get q 0 ≠ 0 → (Rule.ofNum (yydefact.get q 0)).isSome) := by
  decide +kernel

/-- The reductions of the tables are rules. -/
theorem yytable_rules : ∀ n < 163, yytable.get n 0 ≤ 0 → (Rule.ofNum (-yytable.get n 0).toNat).isSome := by
  decide +kernel

/-- No entry is for the error token. -/
theorem yycheck_error : ∀ n < 163, yycheck.get n 0 ≠ SymbolKind.YYerror.num := by decide +kernel

/-- No state shifts the error token. -/
theorem yyerrlab1_eq_none (yyss : List Nat) : yyerrlab1 yyss = none := by
  induction yyss with
  | nil => rfl
  | cons state yyss ih =>
    unfold yyerrlab1
    dsimp only
    rw [if_neg, ih]
    rintro ⟨-, hlow, hhigh, hcheck, -⟩
    refine yycheck_error (yypact.get state YYPACT_NINF + SymbolKind.YYerror.num).toNat ?_ hcheck
    unfold YYLAST at hhigh
    omega

/-- After a syntax error the parser returns 1, since no state shifts the error token. -/
theorem yyerrlab_eq (s : YyState ε) : yyerrlab s = .returned 1 s.parseTree := by
  unfold yyerrlab
  rw [yyerrlab1_eq_none]

/-- A rule that the tables name is one of the grammar. -/
theorem yyaction_reduce {q token n : Nat} (hq : Reached q) (h : yyaction q token = .reduce n) :
    ∃ r, Rule.ofNum n = some r := by
  rcases yyaction_cases q token with hdefault | ⟨i, hi, -, -, haction⟩
  · rw [hdefault] at h
    split at h
    · cases h
    · rename_i hne
      obtain rfl := Lib.Action.reduce.inj h
      exact Option.isSome_iff_exists.mp ((yydefact_reached q hq.lt hq).2 hne)
  · rw [haction] at h
    split at h
    · rename_i hle
      obtain rfl := Lib.Action.reduce.inj h
      exact Option.isSome_iff_exists.mp (yytable_rules i (by omega) hle)
    · cases h

/-! ### Steps -/

variable {s : YyState ε} {c : Parser.Config Nat (Except ε Token) Sem} {ts : List (Except ε Token)}

/-- The state on the top is one that a parse comes to. -/
theorem Sim.reached (h : Sim s c ts) : Reached ((parser ε).top c.stack) := by
  obtain ⟨ss, d, hpath, -⟩ := h.stands
  generalize c.stack = stack at hpath
  cases hpath with
  | nil => exact .inl rfl
  | cons hpath hedge => exact .inr hedge.1

/-- A state that is entered is not the last one. -/
theorem ne_final {q : Nat} {v : Sem} {stack : List (Nat × Sem)}
    (h : report.Stands (parser ε) ((q, v) :: stack) ts) : q ≠ YYFINAL := by
  obtain ⟨ss, d, hpath, -⟩ := h
  have hfinal : report.items YYFINAL = [] := by decide
  rintro rfl
  cases hpath with
  | cons hpath hedge => exact hedge.1 hfinal

/-- The values of the right side lie on the top of the stack. -/
theorem fits_of_has {r : Rule} {stack : List (Nat × Sem)} (h : report.Stands (parser ε) stack ts)
    (hhas : report.Has (parser ε) ((parser ε).top stack) r r.production.2.length) :
    List.Forall₂ Sem.Fits r.production.2 ((stack.take r.production.2.length).map Prod.snd).reverse := by
  obtain ⟨ss, d, hpath, hderives⟩ := h
  obtain ⟨-, htake, -, -⟩ := hpath.pop (report_sound ε) (Nat.le_refl _) hhas
  have hall := derives_fits hderives
  rw [List.forall₂_reverse_iff] at hall
  have htop := List.forall₂_take r.production.2.length hall
  rw [← List.forall₂_reverse_iff, ← List.map_take] at htop
  have hrhs : (ss.take r.production.2.length).reverse = r.production.2 := by
    have hrev := congrArg List.reverse htake
    rw [List.take_length, List.reverse_reverse] at hrev
    exact hrev
  rw [hrhs] at htop
  exact htop

/-- The rules of the start symbol end the parse with a tree. -/
theorem switch_accepts {r : Rule} {vs : List Sem} {yyvsp : Nat → SemValue} (yyval : SemValue)
    (haccepts : r.production.1 = .start) (hfits : List.Forall₂ Sem.Fits r.production.2 vs)
    (hvals : HoldsFrom yyvsp 0 vs.reverse) :
    ∃ tree, switch r yyvsp yyval = .accept tree ∧ r.act vs = .parseTree tree := by
  cases r
  case startStmt =>
    simp only [Rule.production, List.forall₂_cons_left_iff, List.forall₂_nil_left_iff, Sem.Fits,
      SymbolKind.member, Sem.Is, exists_eq_left, ↓existsAndEq, true_and] at hfits
    obtain ⟨n, rfl⟩ := hfits
    have hn : (yyvsp 1).svNode = some n := hvals.2.1
    exact ⟨some n, congrArg Jump.accept hn, rfl⟩
  case startHelp => exact ⟨_, rfl, rfl⟩
  case startExit => exact ⟨_, rfl, rfl⟩
  case startEof => exact ⟨_, rfl, rfl⟩
  all_goals cases haccepts

/-- The values of the right side, from the first one on. -/
def rhsValues (r : Rule) (stack : List (Nat × Sem)) : List Sem :=
  ((stack.take r.production.2.length).map Prod.snd).reverse

/-- A reduction of the report. -/
theorem stands_reduce {r : Rule} {stack : List (Nat × Sem)} (h : report.Stands (parser ε) stack ts)
    (hhas : report.Has (parser ε) ((parser ε).top stack) r r.production.2.length)
    (haccepts : r.production.1 ≠ .start) :
    report.Stands (parser ε) ((yygoto ((parser ε).top (stack.drop r.production.2.length)) r.production.1.num,
      r.act (rhsValues r stack)) :: stack.drop r.production.2.length) ts := by
  have hnext := (h.reduce (report_sound ε) hhas).2
  rw [if_neg (fun hr => haccepts ((report_sound ε).accepts.mp hr))] at hnext
  exact hnext.1

/-- The reduction of the start rule accepts; the others push their left side. -/
theorem parser_reduce (r : Rule) : (parser ε).reduce c r =
    if r.production.1 = .start then .inr (.accepted (r.act (rhsValues r c.stack)) c.input)
    else (parser ε).push ⟨c.stack.drop r.production.2.length, c.input⟩
      (yygoto ((parser ε).top (c.stack.drop r.production.2.length)) r.production.1.num)
      (r.act (rhsValues r c.stack)) := by
  by_cases hr : r.production.1 = .start
  · rw [if_pos hr]
    exact if_pos (decide_eq_true hr)
  · rw [if_neg hr]
    exact if_neg (fun h => hr (of_decide_eq_true h))

/-- The slots behind a reduction. -/
theorem Sim.slots_reduce (h : Sim s c ts) {r : Rule}
    (hhas : report.Has (parser ε) ((parser ε).top c.stack) r r.production.2.length) {j k : Nat} {v : SemValue}
    (hswitch : switch r (fun i => s.yyvsa (s.yyvsp - i)) (s.yyvsa j) = .next v) (cl : Clause) :
    (∀ i, cl.Empty (Function.update s.yyvsa k v i)) ∨ Seen cl.token ts := by
  rcases h.slots cl with hempty | hseen
  · by_cases hr : r.production.1 = cl.list
    · exact .inr (seen_of_list cl h.stands hhas hr)
    · refine .inl fun i => ?_
      by_cases hi : i = k
      · rw [hi, Function.update_self]
        exact switch_empty cl hr (fun i => hempty _) (hempty j) hswitch
      · rw [Function.update_of_ne hi]
        exact hempty i
  · exact .inr hseen

/-- A slot above the stack is empty where it is used. -/
theorem Sim.empty_of_opt (h : Sim s c ts) (cl : Clause) {r : Rule} (hrhs : r.production.2 = [])
    (hhas : report.Has (parser ε) ((parser ε).top c.stack) r r.production.2.length)
    (hr : r.production.1 = cl.opt) (i : Nat) : cl.Empty (s.yyvsa i) := by
  rw [hrhs] at hhas
  exact (h.slots cl).resolve_right (not_seen_of_opt cl h.stands hhas hr) i

/-- `yyreduce` is the reduction of the automaton. -/
theorem Sim.reduce (h : Sim s c ts) {r : Rule}
    (hhas : report.Has (parser ε) ((parser ε).top c.stack) r r.production.2.length) :
    Follows s.parseTree ts ((parser ε).reduce c r) (yyreduce s r.num) := by
  have hlen : r.production.2.length ≤ c.stack.length := (h.stands.reduce (report_sound ε) hhas).1
  have hfits : List.Forall₂ Sem.Fits r.production.2 (rhsValues r c.stack) := fits_of_has h.stands hhas
  have hvals : HoldsFrom (fun i => s.yyvsa (s.yyvsp - i)) 0 (rhsValues r c.stack).reverse := by
    unfold rhsValues
    rw [List.reverse_reverse]
    refine holdsFrom_iff.mpr fun i v hi => holdsFrom_iff.mp h.frame.vals i v ?_
    rw [List.map_take, List.getElem?_take] at hi
    split at hi
    · exact hi
    · cases hi
  obtain ⟨hyyr1, hyyr2⟩ := Rule.yyr_num r
  rw [parser_reduce, yyreduce, Rule.ofNum_num]
  dsimp only
  rw [hyyr1, hyyr2]
  split
  · rename_i hstart
    obtain ⟨tree, hswitch, hact⟩ := switch_accepts (s.yyvsa (s.yyvsp + 1 - r.production.2.length)) hstart
      hfits hvals
    rw [hswitch, hact]
    rfl
  · rename_i hstart
    -- `$1` lies below the other values
    have hyyval : rhsValues r c.stack ≠ [] → s.yyvsa (s.yyvsp + 1 - r.production.2.length) =
        s.yyvsa (s.yyvsp - ((rhsValues r c.stack).length - 1)) := by
      intro hne
      have hpos := List.length_pos_iff.mpr hne
      rw [← hfits.length_eq] at hpos ⊢
      rw [h.frame.yyvsp]
      congr 1
      omega
    obtain ⟨v, hswitch, hv⟩ := switch_holds hstart hfits hvals hyyval
      (by rintro rfl; exact h.empty_of_opt .conds rfl hhas rfl _)
      (by rintro rfl; exact h.empty_of_opt .orderbys rfl hhas rfl _)
    have hstands := stands_reduce h.stands hhas hstart
    rw [hswitch]
    dsimp only
    have hframe := h.frame.popstack hlen
    rw [hframe.head]
    rw [hframe.yysetstate (ne_final hstands) _ rfl (r.act (rhsValues r c.stack)) c.input]
    unfold Parser.push
    split
    · rfl
    · refine ⟨_, [], rfl, rfl, ?_⟩
      rw [List.append_nil]
      exact ⟨hstands, hframe.push hv _, h.input, h.yylval, fun cl => h.slots_reduce hhas hswitch cl⟩

/-- A lookahead is read where there is none, and is then the next token of the automaton. -/
theorem Sim.lookahead (h : Sim s c ts) :
    match c.input with
    | .ok t :: _ => ∃ s', s.lookahead = .inr (s', t) ∧ s'.parseTree = s.parseTree ∧ s'.yychar = some t ∧
        Sim s' c ts
    | _ => s.lookahead = .inl (result s.parseTree (.unread c.input)) := by
  unfold YyState.lookahead
  rcases h.input with ⟨hchar, hinput⟩ | ⟨t, hchar, hinput, ht⟩
  · rw [hchar, hinput]
    cases hs : s.input with
    | nil => rfl
    | cons x input =>
      cases x with
      | error e => rfl
      | ok t =>
        refine ⟨_, rfl, rfl, rfl, h.stands, ⟨h.frame.yyss, h.frame.yyvsp, h.frame.vals⟩,
          .inr ⟨t, rfl, ?_, t.store_holds _⟩, fun cl => ?_, h.slots⟩
        · rw [hinput, hs]
        · exact t.store_empty cl (h.yylval cl)
  · rw [hchar, hinput]
    exact ⟨s, rfl, rfl, hchar, h⟩

/-- `yyparse` shifts as the automaton does. -/
theorem Sim.shift (h : Sim s c ts) {t : Token} {input : List (Except ε Token)} {q : Nat}
    (hchar : s.yychar = some t) (hinput : c.input = .ok t :: input)
    (heager : (parser ε).eager ((parser ε).top c.stack) = none)
    (haction : (parser ε).action ((parser ε).top c.stack) t.kind = .shift q) :
    Follows s.parseTree ts ((parser ε).push ⟨c.stack, input⟩ q t.value)
      (yysetstate { s.push s.yylval q with yychar := none }) := by
  have hstands := h.stands.shift (report_sound ε) heager (t := .ok t) rfl haction
  obtain ⟨hnone, -⟩ | ⟨t', ht', hinput', hholds⟩ := h.input
  · rw [hnone] at hchar
    cases hchar
  · obtain rfl := Option.some.inj (hchar.symm.trans ht')
    rw [hinput'] at hinput
    obtain ⟨-, rfl⟩ := List.cons.inj hinput
    rw [h.frame.yysetstate (ne_final hstands) _ rfl t.value s.input]
    unfold Parser.push
    split
    · rfl
    · have hframe := h.frame.push hholds q
      refine ⟨_, [.ok t], rfl, rfl, hstands, ⟨hframe.yyss, hframe.yyvsp, hframe.vals⟩, .inl ⟨rfl, rfl⟩,
        h.yylval, fun cl => ?_⟩
      refine (h.slots cl).imp (fun hempty i => ?_) fun ⟨x, hx, hkind⟩ => ⟨x, List.mem_append_left _ hx, hkind⟩
      show cl.Empty (Function.update s.yyvsa (s.yyvsp + 1) s.yylval i)
      by_cases hi : i = s.yyvsp + 1
      · rw [hi, Function.update_self]
        exact h.yylval cl
      · rw [Function.update_of_ne hi]
        exact hempty i

/-- `yyparse` goes with the automaton. -/
theorem Sim.step (h : Sim s c ts) : Follows s.parseTree ts ((parser ε).step c) (yystep s) := by
  obtain ⟨stack, input⟩ := c
  have hreached := h.reached
  have hdefact := yydefact_reached _ hreached.lt hreached
  have hhead := h.frame.head
  unfold yystep
  dsimp only at hreached hdefact hhead ⊢
  rw [hhead]
  by_cases hpact : pactIsDefault ((parser ε).top stack) = true
  · -- the state reduces whatever comes
    have hne : yydefact.get ((parser ε).top stack) 0 ≠ 0 := fun hzero => by
      rw [hdefact.1 hzero] at hpact
      cases hpact
    obtain ⟨r, hr⟩ := Option.isSome_iff_exists.mp (hdefact.2 hne)
    have heager : (parser ε).eager ((parser ε).top stack) = some r := (if_pos hpact).trans hr
    rw [if_pos hpact, if_neg hne, Parser.step_eager heager, ← Rule.num_ofNum hr]
    exact h.reduce ((report_sound ε).eager heager)
  · have heager : (parser ε).eager ((parser ε).top stack) = none := if_neg hpact
    rw [if_neg hpact]
    have hlook := h.lookahead
    rcases input with - | ⟨e | t, input⟩
    · dsimp only at hlook
      rw [Parser.step, heager, hlook]
      rfl
    · dsimp only at hlook
      rw [Parser.step, heager, hlook]
      rfl
    · obtain ⟨s', hs', htree, hchar, hsim⟩ := hlook
      have haction := tables_action ((parser ε).top stack) t.kind
      change (parser ε).action _ _ = _ at haction
      rw [hs', Parser.step_token heager (a := t.kind) rfl, ← htree]
      dsimp only
      cases hyyaction : yyaction ((parser ε).top stack) t.kind.num with
      | shift q =>
        rw [hyyaction] at haction
        rw [haction]
        exact hsim.shift hchar rfl heager haction
      | reduce n =>
        obtain ⟨r, hr⟩ := yyaction_reduce hreached hyyaction
        rw [hyyaction] at haction
        dsimp only at haction
        rw [hr] at haction
        rw [haction, ← Rule.num_ofNum hr]
        have hterminal := (report_sound ε).terminal (t := .ok t) rfl
        exact hsim.reduce ((report_sound ε).reduce hterminal heager haction)
      | reject =>
        rw [hyyaction] at haction
        rw [haction]
        exact congrArg Sum.inr (yyerrlab_eq s')

/-- The runs end alike. -/
theorem Sim.yyrun_eq (h : Sim s c ts) (n : Nat) :
    yyrun n s = ((parser ε).run n c).map (result s.parseTree) := by
  induction n generalizing s c ts with
  | zero => rfl
  | succ n ih =>
    have hstep := h.step
    rw [yyrun, Parser.run]
    cases hc : (parser ε).step c with
    | inl c' =>
      rw [hc] at hstep
      obtain ⟨s', us, hs', htree, hsim⟩ := hstep
      rw [hs', ← htree]
      exact ih hsim
    | inr o =>
      rw [hc] at hstep
      have hs' : yystep s = .inr (result s.parseTree o) := hstep
      rw [hs']
      rfl

/-- The slots and `yylval` as they are constructed: the lists are empty, and the rest may be anything. -/
structure Constructed (yyvsa : Nat → SemValue) (yylval : SemValue) : Prop where
  slots : ∀ i, (yyvsa i).svConds = [] ∧ (yyvsa i).svOrderbys = []
  yylval : yylval.svConds = [] ∧ yylval.svOrderbys = []

/-- A value whose members are all empty. -/
def SemValue.cleared : SemValue where
  svInt := 0
  svBigint := 0
  svFloat := 0
  svDatetime := ""
  svStr := ""
  svStrs := []
  svNode := none
  svCompOp := .eq
  svTypeLen := none
  svField := none
  svFields := []
  svExpr := none
  svVal := none
  svVals := []
  svCol := none
  svCols := []
  svSetClause := none
  svSetClauses := []
  svCond := none
  svConds := []
  svOrderbyDir := .default
  svOrderby := none
  svAggregateType := .none
  svOrderbys := []

/-- Cleared slots are as constructed. -/
theorem constructed_cleared : Constructed (fun _ => .cleared) .cleared where
  slots _ := ⟨rfl, rfl⟩
  yylval := ⟨rfl, rfl⟩

/-- The two parsers begin alike. -/
theorem Sim.init {yyvsa : Nat → SemValue} {yylval : SemValue} (h : Constructed yyvsa yylval)
    (parseTree : Option TreeNode) (input : List (Except ε Token)) :
    Sim (.init yyvsa yylval parseTree input) ⟨[], input⟩ [] where
  stands := .nil
  frame := ⟨rfl, rfl, trivial⟩
  input := .inl ⟨rfl, rfl⟩
  yylval := by
    intro cl
    cases cl with
    | conds => exact h.yylval.1
    | orderbys => exact h.yylval.2
  slots := by
    intro cl
    cases cl with
    | conds => exact .inl fun i => (h.slots i).1
    | orderbys => exact .inl fun i => (h.slots i).2

/-- The parse of the automaton ends within the rounds of `yyparse`. -/
theorem parser_run_total (input : List (Except ε Token)) :
    ∃ o, (parser ε).run (10 * input.length + 1) ⟨[], input⟩ = some o := by
  refine (report_sound ε).run_total Report.Stands.nil ?_
  have hfuel : report.fuel (parser ε) ⟨[], input⟩ = input.length * 10 + 0 + report.weight 0 := rfl
  have hweight : report.weight 0 = 0 := by decide
  omega

/-- `yyparse` ends as the automaton does. -/
theorem yyparse_eq {yyvsa : Nat → SemValue} {yylval : SemValue} (h : Constructed yyvsa yylval)
    (parseTree : Option TreeNode) {input : List (Except ε Token)}
    {o : Parser.Outcome (Except ε Token) Sem} (ho : (parser ε).Ends ⟨[], input⟩ o) :
    yyparse yyvsa yylval parseTree input = some (result parseTree o) := by
  obtain ⟨o', ho'⟩ := parser_run_total input
  rw [yyparse, (Sim.init h parseTree input).yyrun_eq, ho', ho.run_eq ho']
  rfl

end Yacc

end Rmdb
