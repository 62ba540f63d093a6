import Rmdb.Parser.Simulation

namespace Rmdb

open Lib Ast

/-!
# What `yyparse` accepts (`parser/yacc.tab.cpp`)

The tokens of a statement are those that a rule of `start` derives.  `yyparse` returns 0 where the tokens to
come begin with those of a statement that the stack has room for, and it looks at nothing behind them.

* `Yacc.Statement` — the tokens of a statement, its tree, and how far the stack rises;
* `Yacc.yyparse_returned_zero_iff` — what is accepted;
* `Yacc.yyparse_ends` — every parse ends;
* `Yacc.Statement.depth_le` — there is room for every statement but `LOAD`.
-/

namespace Yacc

variable {ε : Type}

/-- The tokens of a statement with this tree.  The stack rises by `d`. -/
def Statement (ts : List (Except ε Token)) (tree : Option TreeNode) (d : Nat) : Prop :=
  ∃ (r : Rule) (vs : List Sem), r.production.1 = .start ∧ (grammar ε).Derives r.production.2 ts vs d ∧
    r.act vs = .parseTree tree

/-- How far the stack may rise. -/
def maxRise : Nat := YYINITDEPTH - 2

/-- What a run of the automaton accepts is a statement. -/
theorem statement_of_accepted {input rest : List (Except ε Token)} {n : Nat} {v : Sem}
    (h : (parser ε).run n ⟨[], input⟩ = some (.accepted v rest)) :
    ∃ ts tree d, input = ts ++ rest ∧ v = .parseTree tree ∧ Statement ts tree d := by
  obtain ⟨ts, r, d, vs, hinput, haccepts, hderives, rfl⟩ := (report_sound ε).run_derives Report.Stands.nil h
  have hr : r.production.1 = .start := (report_sound ε).accepts.mp haccepts
  have hfits : (r.act vs).Fits r.production.1 := act_fits (derives_fits hderives)
  rw [hr] at hfits
  obtain ⟨tree, htree⟩ := hfits
  exact ⟨ts, tree, d, hinput, htree, r, vs, hr, hderives, htree⟩

/-- One more token. -/
theorem derives_token (t : Token) {ss : List SymbolKind} {ts : List (Except ε Token)} {vs : List Sem} {d : Nat}
    (h : (grammar ε).Derives ss ts vs d) :
    (grammar ε).Derives (t.kind :: ss) (.ok t :: ts) (t.value :: vs) (d + 1) := .token rfl h

/-- A rule on its own. -/
theorem derives_rule (r : Rule) {ts : List (Except ε Token)} {vs : List Sem} {d : Nat}
    (h : (grammar ε).Derives r.production.2 ts vs d) :
    (grammar ε).Derives [r.production.1] ts [r.act vs] (max d 1) := h.single

/-- `select a, t.b from t, u where a < 1 and t.b = c order by a desc limit 3;` -/
def sampleTokens : List Token :=
  [.plain .SELECT (.refl true), .identifier "a", .plain .comma (.refl true), .identifier "t",
    .plain .dot (.refl true), .identifier "b", .plain .FROM (.refl true), .identifier "t",
    .plain .comma (.refl true), .identifier "u", .plain .WHERE (.refl true), .identifier "a",
    .plain .less (.refl true), .valueInt 1, .plain .AND (.refl true), .identifier "t",
    .plain .dot (.refl true), .identifier "b", .plain .equal (.refl true), .identifier "c",
    .plain .ORDER (.refl true), .plain .BY (.refl true), .identifier "a", .plain .DESC (.refl true),
    .plain .LIMIT (.refl true), .valueInt 3, .plain .semicolon (.refl true)]

/-- Its tree. -/
def sampleTree : TreeNode :=
  .selectStmt (.select [⟨"", "a"⟩, ⟨"t", "b"⟩] ["t", "u"]
    [⟨⟨"", "a"⟩, .lt, .value (.intLit 1)⟩, ⟨⟨"t", "b"⟩, .eq, .col ⟨"", "c"⟩⟩] [⟨⟨"", "a"⟩, .desc⟩] 3)

/-- The sample statement is one of the grammar. -/
theorem statement_sample : Statement (ε := ε) (sampleTokens.map .ok) (some sampleTree) 10 := by
  have hname (s : String) : (grammar ε).Derives [.colName] [.ok (.identifier s)] [.svStr s] 1 :=
    derives_rule .colName (derives_token (.identifier s) .nil)
  have htab (s : String) : (grammar ε).Derives [.tbName] [.ok (.identifier s)] [.svStr s] 1 :=
    derives_rule .tbName (derives_token (.identifier s) .nil)
  have halone (s : String) := derives_rule .colAlone (hname s)
  have hof := derives_rule .colOfTable ((htab "t").cons (derives_token (.plain .dot rfl) (hname "b")))
  have hcols := derives_rule .colListMore ((derives_rule .colListOne (halone "a")).cons
    (derives_token (.plain .comma rfl) hof))
  have htabs := derives_rule .tableListMore ((derives_rule .tableListOne (htab "t")).cons
    (derives_token (.plain .comma rfl) (htab "u")))
  have hless := derives_rule .condition ((halone "a").cons
    ((derives_rule .opLt (derives_token (.plain .less rfl) .nil)).cons
      (derives_rule .exprValue (derives_rule .valueInt (derives_token (.valueInt 1) .nil)))))
  have hequal := derives_rule .condition (hof.cons
    ((derives_rule .opEq (derives_token (.plain .equal rfl) .nil)).cons (derives_rule .exprCol (halone "c"))))
  have hwhere := derives_rule .optWhere (derives_token (.plain .WHERE rfl)
    (derives_rule .whereMore ((derives_rule .whereOne hless).cons (derives_token (.plain .AND rfl) hequal))))
  have horder := derives_rule .optOrder (derives_token (.plain .ORDER rfl) (derives_token (.plain .BY rfl)
    (derives_rule .orderListOne (derives_rule .orderClause ((halone "a").cons
      (derives_rule .dirDesc (derives_token (.plain .DESC rfl) .nil)))))))
  have hlimit := derives_rule (ε := ε) .optLimit (derives_token (.plain .LIMIT rfl) (derives_token (.valueInt 3) .nil))
  have hselect := derives_rule .select (derives_token (.plain .SELECT rfl)
    ((derives_rule .selectorCols hcols).cons (derives_token (.plain .FROM rfl)
      (htabs.cons (hwhere.cons (horder.cons hlimit))))))
  have hstmt := (derives_rule .stmtDml hselect).cons (derives_token (.plain .semicolon rfl) .nil)
  exact ⟨.startStmt, _, rfl, hstmt, rfl⟩
/-- A beginning of the tokens is the statement of one tree only. -/
theorem statement_unique {ts ts' rest rest' : List (Except ε Token)} {tree tree' : Option TreeNode} {d d' : Nat}
    (h : Statement ts tree d) (h' : Statement ts' tree' d') (heq : ts ++ rest = ts' ++ rest') :
    ts = ts' ∧ tree = tree' ∧ d = d' := by
  obtain ⟨r, vs, hr, hderives, hact⟩ := h
  obtain ⟨r', vs', hr', hderives', hact'⟩ := h'
  obtain ⟨hts, hsame, hd⟩ := (report_complete ε).derives_unique hderives
    ((report_complete ε).accepts.mpr hr) hderives' ((report_complete ε).accepts.mpr hr') heq
  change r.act vs = r'.act vs' at hsame
  rw [hact, hact'] at hsame
  exact ⟨hts, by injection hsame, hd⟩

/-- It has this tree only. -/
theorem statement_unique_sample :
    sampleTokens.map (Except.ok (ε := Empty)) = sampleTokens.map .ok ∧ some sampleTree = some sampleTree ∧
      10 = 10 :=
  statement_unique statement_sample statement_sample (rfl : _ ++ [] = _ ++ [])

section Parse

variable {yyvsa : Nat → SemValue} {yylval : SemValue} (h : Constructed yyvsa yylval)
  (old : Option TreeNode) {ts rest input : List (Except ε Token)} {tree : Option TreeNode} {d : Nat}
include h

/-- What `yyparse` makes of the tokens of a statement. -/
theorem yyparse_statement (hts : Statement ts tree d) (rest : List (Except ε Token)) :
    yyparse yyvsa yylval old (ts ++ rest) =
      some (if d ≤ maxRise then .returned 0 tree else .returned 2 old) := by
  obtain ⟨r, vs, hr, hderives, hact⟩ := hts
  have hends := (report_complete ε).run_accepts hderives ((report_complete ε).accepts.mpr hr) rest
  rw [yyparse_eq h old hends]
  change some (result old (if d ≤ maxRise then .accepted (r.act vs) rest else .exhausted)) = _
  rw [hact]
  split <;> rfl

/-- `yyparse` is a run of the automaton. -/
theorem yyparse_run (input : List (Except ε Token)) : ∃ o,
    (parser ε).run (10 * input.length + 1) ⟨[], input⟩ = some o ∧
    yyparse yyvsa yylval old input = some (result old o) := by
  obtain ⟨o, ho⟩ := parser_run_total input
  refine ⟨o, ho, ?_⟩
  rw [yyparse, (Sim.init h old input).yyrun_eq, ho]
  rfl

/-- A tree that is returned is that of the tokens read. -/
theorem statement_of_returned (hparse : yyparse yyvsa yylval old input = some (.returned 0 tree)) :
    ∃ ts rest d, input = ts ++ rest ∧ Statement ts tree d ∧ d ≤ maxRise := by
  obtain ⟨o, ho, hrun⟩ := yyparse_run h old input
  rw [hparse, Option.some.injEq] at hrun
  cases o with
  | accepted v rest =>
    obtain ⟨ts, tree', d, hinput, rfl, hstatement⟩ := statement_of_accepted ho
    obtain rfl : tree = tree' := by injection hrun
    refine ⟨ts, rest, d, hinput, hstatement, ?_⟩
    by_contra hd
    have hfull := yyparse_statement h old hstatement rest
    rw [← hinput, hparse, if_neg hd] at hfull
    cases hfull
  | rejected => cases hrun
  | exhausted => cases hrun
  | unread input => rcases input with - | ⟨e | t, input⟩ <;> cases hrun

/-- `yyparse` returns 0 with a tree where the tokens begin with a statement of this tree that the stack has
    room for. -/
theorem yyparse_returned_zero_iff : yyparse yyvsa yylval old input = some (.returned 0 tree) ↔
    ∃ ts rest d, input = ts ++ rest ∧ Statement ts tree d ∧ d ≤ maxRise := by
  constructor
  · exact statement_of_returned h old
  · rintro ⟨ts, rest, d, rfl, hstatement, hd⟩
    rw [yyparse_statement h old hstatement, if_pos hd]

omit h in
/-- The sample statement is parsed. -/
theorem yyparse_returned_zero_sample : yyparse (ε := Empty) (fun _ => .cleared) .cleared none
    (sampleTokens.map .ok ++ [.ok (.plain .EXIT rfl)]) = some (.returned 0 (some sampleTree)) :=
  (yyparse_returned_zero_iff constructed_cleared none).mpr
    ⟨_, [.ok (.plain .EXIT rfl)], 10, rfl, statement_sample, by decide⟩

/-- `yyparse` ends, and it ends by returning 0, 1 or 2, or because `yylex` throws or has no more tokens. -/
theorem yyparse_ends : ∃ o, yyparse yyvsa yylval old input = some o ∧
    ((∃ tree, o = .returned 0 tree) ∨ o = .returned 1 old ∨ o = .returned 2 old ∨ (∃ e, o = .thrown e) ∨
      o = .starved) := by
  obtain ⟨o, ho, hrun⟩ := yyparse_run h old input
  refine ⟨_, hrun, ?_⟩
  cases o with
  | accepted v rest =>
    obtain ⟨ts, tree, d, -, rfl, -⟩ := statement_of_accepted ho
    exact .inl ⟨tree, rfl⟩
  | rejected => exact .inr (.inl rfl)
  | exhausted => exact .inr (.inr (.inl rfl))
  | unread input =>
    rcases input with - | ⟨e | t, input⟩
    · exact .inr (.inr (.inr (.inr rfl)))
    · exact .inr (.inr (.inr (.inl ⟨e, rfl⟩)))
    · exact .inr (.inr (.inr (.inr rfl)))

omit h in
/-- Its run ends. -/
theorem yyparse_ends_sample :
    ∃ o, yyparse (ε := Empty) (fun _ => .cleared) .cleared none (sampleTokens.map .ok) = some o ∧
      ((∃ tree, o = .returned 0 tree) ∨ o = .returned 1 none ∨ o = .returned 2 none ∨ (∃ e, o = .thrown e) ∨
        o = .starved) :=
  yyparse_ends constructed_cleared none

end Parse

/-! ### The height of the stack -/

/-- The states within a `LOAD`. -/
def inLoad (q : Nat) : Bool :=
  (report.items q).any fun i => i.1 == .load || i.1.production.1 == .path || i.1.production.1 == .filename

/-- How high the stack may be where a left side begins, outside of `LOAD`. -/
def base : SymbolKind → Nat
  | .aggregateFunction => 1
  | .selector | .colList | .setClauses => 3
  | .fieldList | .colNameList => 4
  | .valueList | .setClause | .optOrderClause => 5
  | .field | .optLimit => 6
  | .type | .orderClauseList => 7
  | .tableList => 8
  | .optWhereClause | .orderClause => 9
  | .whereClause | .optAscDesc => 10
  | .condition => 12
  | .op => 13
  | .value | .col | .expr | .tbName => 14
  | .colName => 16
  | _ => 0

/-- How high the stack may be in a state outside of `LOAD`. -/
def height (q : Nat) : Nat := ((report.items q).map fun i => base i.1.production.1 + i.2).foldr max 0

/-- The heights outside of `LOAD`, and those of what a state opens. -/
theorem height_le : ∀ q < 180, inLoad q = false →
    height q ≤ 17 ∧ ∀ a ∈ report.opens q, height q ≤ base a := by
  decide +kernel

/-- The entry state is not within a `LOAD`. -/
theorem inLoad_entry : inLoad 0 = false := by decide

/-- Only states within a `LOAD` ask for a path. -/
theorem opens_load : ∀ q < 180, (.path ∈ report.opens q ∨ .filename ∈ report.opens q) → inLoad q = true := by
  decide +kernel

section Height

variable {stack : List (Nat × Sem)} {ss : List SymbolKind}

/-- A stack above the entry has a rule under way, that began below. -/
theorem begin_of_path (h : report.Path (parser ε) stack ss) (hne : stack ≠ []) {i : Rule × Nat}
    (hitem : i ∈ report.items ((parser ε).top stack)) :
    1 ≤ i.2 ∧ i.2 ≤ i.1.production.2.length ∧ i.2 ≤ stack.length ∧
      ss.take i.2 = (i.1.production.2.take i.2).reverse ∧
      report.Path (parser ε) (stack.drop i.2) (ss.drop i.2) ∧
      i.1.production.1 ∈ report.opens ((parser ε).top (stack.drop i.2)) ∧
      (parser ε).top (stack.drop i.2) < 180 := by
  have hpos : 1 ≤ i.2 := by
    cases h with
    | nil => exact absurd rfl hne
    | cons hpath hedge => exact (hedge.2 i hitem).1
  have hhas : report.Has (parser ε) ((parser ε).top stack) i.1 i.2 := .inl hitem
  have hk := items_le _ (lt_of_has (has_iff.mp hhas)) _ hitem
  obtain ⟨hlen, htake, hdrop, hbegin⟩ := h.pop (report_sound ε) hk hhas
  exact ⟨hpos, hk, hlen, htake, hdrop, hdrop.opens (report_sound ε) hbegin, lt_of_has (has_iff.mp hbegin)⟩

/-- Within a `LOAD`, its token is on the stack.  The induction is on the stack, one rule at a time. -/
theorem load_mem {n : Nat} (hn : stack.length ≤ n) (h : report.Path (parser ε) stack ss)
    (hload : inLoad ((parser ε).top stack) = true) : .LOAD ∈ ss := by
  induction n generalizing stack ss with
  | zero =>
    obtain rfl := List.eq_nil_of_length_eq_zero (Nat.le_zero.mp hn)
    exact absurd (inLoad_entry.symm.trans hload) Bool.false_ne_true
  | succ n ih =>
    obtain ⟨i, hitem, hi⟩ := List.any_eq_true.mp hload
    have hne : stack ≠ [] := by
      rintro rfl
      rw [Parser.top_nil, (report_sound ε).entry_items] at hitem
      cases hitem
    obtain ⟨hpos, -, hlen, htake, hdrop, hopens, hlt⟩ := begin_of_path h hne hitem
    simp only [Bool.or_eq_true, beq_iff_eq, or_assoc] at hi
    rcases hi with hi | hi
    · refine List.mem_of_mem_take (i := i.2) ?_
      rw [htake, hi, List.mem_reverse]
      obtain ⟨k, hk⟩ := Nat.exists_eq_add_of_le' hpos
      rw [hk]
      exact List.mem_cons_self
    · refine List.mem_of_mem_drop (ih ?_ hdrop (opens_load _ hlt ?_))
      · rw [List.length_drop]
        omega
      · rcases hi with hi | hi
        · exact .inl (by rwa [hi] at hopens)
        · exact .inr (by rwa [hi] at hopens)

/-- Outside of a `LOAD` the stack is no higher than its state allows. -/
theorem length_le_height {n : Nat} (hn : stack.length ≤ n) (h : report.Path (parser ε) stack ss)
    (hload : .LOAD ∉ ss) : stack.length ≤ height ((parser ε).top stack) := by
  induction n generalizing stack ss with
  | zero => omega
  | succ n ih =>
    by_cases hne : stack = []
    · rw [hne]
      exact Nat.zero_le _
    obtain ⟨i, hitem⟩ : ∃ i, i ∈ report.items ((parser ε).top stack) := by
      cases h with
      | nil => exact absurd rfl hne
      | cons hpath hedge => exact List.exists_mem_of_ne_nil _ hedge.1
    obtain ⟨hpos, -, hlen, htake, hdrop, hopens, hlt⟩ := begin_of_path h hne hitem
    have hload' : .LOAD ∉ ss.drop i.2 := fun hmem => hload (List.mem_of_mem_drop hmem)
    have hbelow := ih (by rw [List.length_drop]; omega) hdrop hload'
    have hout : inLoad ((parser ε).top (stack.drop i.2)) = false :=
      Bool.eq_false_iff.mpr fun hin => hload' (load_mem (Nat.le_refl _) hdrop hin)
    have hbase := (height_le _ hlt hout).2 _ hopens
    have hitem' : base i.1.production.1 + i.2 ≤ height ((parser ε).top stack) := by
      unfold height
      generalize report.items ((parser ε).top stack) = l at hitem
      induction l with
      | nil => cases hitem
      | cons j l ihl =>
        rw [List.map_cons, List.foldr_cons]
        rcases List.mem_cons.mp hitem with rfl | hitem
        · exact Nat.le_max_left _ _
        · exact (ihl hitem).trans (Nat.le_max_right _ _)
    rw [List.length_drop] at hbelow
    omega

end Height

/-- Only a `LOAD` exhausts the stack. -/
theorem load_of_exhausted {input : List (Except ε Token)} {n : Nat}
    (h : (parser ε).run n ⟨[], input⟩ = some .exhausted) : Seen .LOAD input := by
  obtain ⟨stack, us, rest, hinput, ⟨ss, d, hpath, hderives⟩, hfull⟩ :=
    (report_sound ε).run_exhausted Report.Stands.nil h
  have hload : .LOAD ∈ ss := by
    by_contra hload
    have hlen := length_le_height (Nat.le_refl _) hpath hload
    have hlt : (parser ε).top stack < 180 := by
      cases hpath with
      | nil => exact Nat.zero_lt_succ _
      | cons hpath hedge => exact Reached.lt (.inr hedge.1)
    have hout : inLoad ((parser ε).top stack) = false :=
      Bool.eq_false_iff.mpr fun hin => hload (load_mem (Nat.le_refl _) hpath hin)
    have hheight := (height_le _ hlt hout).1
    have hlimit : (parser ε).limit = 198 := rfl
    omega
  obtain ⟨t, ht, hkind⟩ := hderives.exists_token (fun r => by cases r <;> exact SymbolKind.noConfusion)
    (List.mem_reverse.mpr hload)
  change input = us ++ rest at hinput
  exact ⟨t, hinput ▸ List.mem_append_left _ ht, hkind⟩

/-- The stack has room for every statement but `LOAD`. -/
theorem Statement.depth_le {ts : List (Except ε Token)} {tree : Option TreeNode} {d : Nat}
    (h : Statement ts tree d) (hload : ¬ Seen .LOAD ts) : d ≤ maxRise := by
  obtain ⟨r, vs, hr, hderives, hact⟩ := h
  have hends := (report_complete ε).run_accepts hderives ((report_complete ε).accepts.mpr hr) []
  rw [List.append_nil] at hends
  obtain ⟨o, ho⟩ := parser_run_total ts
  by_contra hd
  have hlimit : ¬ d ≤ (parser ε).limit := hd
  rw [hends.run_eq ho, if_neg hlimit] at ho
  exact hload (load_of_exhausted ho)

end Yacc

end Rmdb
