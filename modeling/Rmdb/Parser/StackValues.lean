import Rmdb.Parser.Yyparse

namespace Rmdb

open Lib Ast

/-!
# The values on the stack (`parser/yacc.tab.cpp`)

The slots of the value stack hold the values of the grammar, each in the member of its type; what their other
members hold, and what lies above the stack, is left over.

* `Yacc.SemValue.Holds` — a slot holds a value;
* `Yacc.switch_holds` — the actions compute the values of the rules;
* `Yacc.SemValue.Clean` — what is left over has no conditions and no order, before they are parsed;
* `Yacc.Sim` — the state of `yyparse` and the configuration of the automaton;
* `Yacc.Sim.step`, `Yacc.yyparse_eq` — `yyparse` does what the automaton does.
-/

namespace Yacc

/-- The member of the value holds it. -/
def SemValue.Holds (sv : SemValue) : Sem → Prop
  | .none => True
  | .svInt n => sv.svInt = n
  | .svBigint n => sv.svBigint = n
  | .svFloat b => sv.svFloat = b
  | .svDatetime s => sv.svDatetime = s
  | .svStr s => sv.svStr = s
  | .svStrs l => sv.svStrs = l
  | .svNode n => sv.svNode = some n
  | .svCompOp op => sv.svCompOp = op
  | .svTypeLen t => sv.svTypeLen = some t
  | .svField f => sv.svField = some f
  | .svFields l => sv.svFields = l
  | .svExpr e => sv.svExpr = some e
  | .svVal v => sv.svVal = some v
  | .svVals l => sv.svVals = l
  | .svCol c => sv.svCol = some c
  | .svCols l => sv.svCols = l
  | .svSetClause c => sv.svSetClause = some c
  | .svSetClauses l => sv.svSetClauses = l
  | .svCond c => sv.svCond = some c
  | .svConds l => sv.svConds = l
  | .svOrderbyDir d => sv.svOrderbyDir = d
  | .svOrderby o => sv.svOrderby = some o
  | .svOrderbys l => sv.svOrderbys = l
  | .svAggregateType t => sv.svAggregateType = t
  | .parseTree _ => True

/-- The slots from this one down hold these values. -/
def HoldsFrom (yyvsp : Nat → SemValue) : Nat → List Sem → Prop
  | _, [] => True
  | i, v :: vs => (yyvsp i).Holds v ∧ HoldsFrom yyvsp (i + 1) vs

/-- The lexer stores the value of its token. -/
theorem Token.store_holds (t : Token) (yylval : SemValue) : (t.store yylval).Holds t.value := by
  cases t with
  | plain kind h => trivial
  | _ => rfl

/-- An action computes the value of its rule from slots that hold the values of the right side. -/
theorem switch_holds {r : Rule} {vs : List Sem} {yyvsp : Nat → SemValue} {yyval : SemValue}
    (haccepts : r.production.1 ≠ .start) (hfits : List.Forall₂ Sem.Fits r.production.2 vs)
    (hvals : HoldsFrom yyvsp 0 vs.reverse) (hyyval : vs ≠ [] → yyval = yyvsp (vs.length - 1))
    (hconds : r = .optWhereNone → yyval.svConds = []) (horders : r = .optOrderNone → yyval.svOrderbys = []) :
    ∃ v, switch r yyvsp yyval = .next v ∧ v.Holds (r.act vs) := by
  cases r
  all_goals
    repeat
      obtain _ | ⟨hv, hfits⟩ := hfits
      first | obtain ⟨_, rfl⟩ := hv | obtain rfl := hv | skip
    first
    | exact absurd rfl haccepts
    | refine ⟨_, rfl, ?_⟩
  -- the slots hold the values, member by member
  all_goals
    first
    | exact hconds rfl
    | exact horders rfl
    | rfl
    | simp only [List.reverse_cons, List.reverse_nil, List.nil_append, List.cons_append, HoldsFrom,
        SemValue.Holds, and_true, true_and, Nat.zero_add, Nat.reduceAdd] at hvals
      replace hyyval := hyyval (List.cons_ne_nil _ _)
      simp only [List.length_cons, List.length_nil, Nat.zero_add, Nat.reduceAdd, Nat.reduceSub] at hyyval
      show _ = _
      simp only [hyyval, hvals, Option.toList_some, Option.map_some]
      try rfl

/-! ### What is left over -/

/-- The two clauses that an empty rule leaves to the slot above the stack. -/
inductive Clause where
  | conds
  | orderbys
  deriving DecidableEq

namespace Clause

/-- The member has nothing of the clause. -/
def Empty : Clause → SemValue → Prop
  | .conds, sv => sv.svConds = []
  | .orderbys, sv => sv.svOrderbys = []

/-- The token that the clause begins with. -/
def token : Clause → SymbolKind
  | .conds => .WHERE
  | .orderbys => .ORDER

/-- The symbol whose rules fill the member. -/
def list : Clause → SymbolKind
  | .conds => .whereClause
  | .orderbys => .orderClauseList

/-- The rule that is under way where the list begins. -/
def opener : Clause → Rule
  | .conds => .optWhere
  | .orderbys => .optOrder

/-- The symbol that may be empty. -/
def opt : Clause → SymbolKind
  | .conds => .optWhereClause
  | .orderbys => .optOrderClause

/-- The symbols that the token may come from. -/
def above (c : Clause) : List SymbolKind := [c.token, c.opt, .dml, .stmt, .start]

end Clause

/-- A token leaves the lists of clauses alone. -/
theorem Token.store_empty (c : Clause) (t : Token) {yylval : SemValue} (h : c.Empty yylval) :
    c.Empty (t.store yylval) := by
  cases c <;> cases t <;> exact h

/-- A rule that does not fill the member leaves it empty. -/
theorem switch_empty (c : Clause) {r : Rule} {yyvsp : Nat → SemValue} {yyval v : SemValue}
    (hr : r.production.1 ≠ c.list) (hslots : ∀ i, c.Empty (yyvsp i)) (hyyval : c.Empty yyval)
    (h : switch r yyvsp yyval = .next v) : c.Empty v := by
  cases c <;> cases r
  all_goals
    first
    | exact absurd rfl hr
    | cases h
  all_goals
    first
    | exact hyyval
    | exact hslots 0

variable {ε : Type} {stack : List (Nat × Sem)} {ts : List (Except ε Token)}

/-- A token of this kind has been read. -/
def Seen (a : SymbolKind) (ts : List (Except ε Token)) : Prop := ∃ t ∈ ts, (grammar ε).kind t = some a

/-- A list is only asked for behind its opening token. -/
theorem list_opens (c : Clause) : ∀ q < 180, c.list ∈ report.opens q →
    ∃ k ∈ [1, 2], (c.opener, k) ∈ report.items q ∧ c.token ∈ c.opener.production.2.take k := by
  cases c <;> decide +kernel

/-- A clause is only asked for within a statement. -/
theorem opt_opens (c : Clause) : ∀ q < 180, c.opt ∈ report.opens q →
    ∃ i ∈ report.items q, i.1.production.1 = .dml ∧ ∀ a ∈ i.1.production.2.take i.2, a ∉ c.above := by
  cases c <;> decide +kernel

/-- An item's dot is within its rule. -/
theorem items_le : ∀ q < 180, ∀ i ∈ report.items q, i.2 ≤ i.1.production.2.length := by decide +kernel

/-- A statement begins only at the beginning. -/
theorem dml_opens : ∀ q < 180, .dml ∈ report.opens q → q = 0 := by decide +kernel

/-- The symbols behind a rule that is under way are on the stack. -/
theorem mem_of_pop {r : Rule} {k : Nat} {ss : List SymbolKind} {a : SymbolKind}
    (hpath : report.Path (parser ε) stack ss) (hk : k ≤ r.production.2.length)
    (hhas : report.Has (parser ε) ((parser ε).top stack) r k) (ha : a ∈ r.production.2.take k) : a ∈ ss := by
  obtain ⟨-, htake, -, -⟩ := hpath.pop (report_sound ε) hk hhas
  refine List.mem_of_mem_take (i := k) ?_
  rw [htake]
  exact List.mem_reverse.mpr ha

/-- A list is built behind its token. -/
theorem seen_of_list (c : Clause) {r : Rule} (h : report.Stands (parser ε) stack ts)
    (hhas : report.Has (parser ε) ((parser ε).top stack) r r.production.2.length)
    (hr : r.production.1 = c.list) : Seen c.token ts := by
  obtain ⟨ss, d, hpath, hderives⟩ := h
  obtain ⟨-, -, hdrop, hbegin⟩ := hpath.pop (report_sound ε) (Nat.le_refl _) hhas
  have hopens := hdrop.opens (report_sound ε) hbegin
  rw [show (parser ε).grammar.lhs r = c.list from hr] at hopens
  obtain ⟨k, hk, hitem, htoken⟩ := list_opens c _ (lt_of_has (has_iff.mp hbegin)) hopens
  have hlen : k ≤ c.opener.production.2.length := by
    cases c <;> simp only [List.mem_cons, List.not_mem_nil, or_false] at hk <;>
      rcases hk with rfl | rfl <;> decide
  have hmem := List.mem_of_mem_drop (mem_of_pop hdrop hlen (.inl hitem) htoken)
  refine hderives.exists_token (fun r => ?_) (List.mem_reverse.mpr hmem)
  cases c <;> cases r <;> exact SymbolKind.noConfusion

/-- The symbols that the token does not come from do not derive it. -/
theorem above_closed (c : Clause) (r : Rule) (h : r.production.1 ∉ c.above) :
    ∀ a ∈ r.production.2, a ∉ c.above := by
  cases c <;> cases r <;> revert h <;> decide

/-- Where the clause may be empty, its token has not been read. -/
theorem not_seen_of_opt (c : Clause) {r : Rule} (h : report.Stands (parser ε) stack ts)
    (hhas : report.Has (parser ε) ((parser ε).top stack) r 0) (hr : r.production.1 = c.opt) :
    ¬ Seen c.token ts := by
  obtain ⟨ss, d, hpath, hderives⟩ := h
  have hopens := hpath.opens (report_sound ε) hhas
  rw [show (parser ε).grammar.lhs r = c.opt from hr] at hopens
  have hlt := lt_of_has (has_iff.mp hhas)
  obtain ⟨⟨r', k⟩, hitem, hdml, hnot⟩ := opt_opens c _ hlt hopens
  have hk := items_le _ hlt _ hitem
  obtain ⟨-, htake, hdrop, hbegin⟩ := hpath.pop (report_sound ε) (r := r') hk (.inl hitem)
  -- the statement begins at the entry, so these are all symbols
  have hbase := hdrop.opens (report_sound ε) hbegin
  rw [show (parser ε).grammar.lhs r' = .dml from hdml] at hbase
  have hnil := hdrop.eq_nil (report_sound ε) (dml_opens _ (lt_of_has (has_iff.mp hbegin)) hbase)
  have hss : ss = (r'.production.2.take k).reverse := by
    have hlen := hdrop.length_eq
    rw [hnil, List.length_nil] at hlen
    rw [← List.take_append_drop k ss, htake, List.eq_nil_of_length_eq_zero hlen, List.append_nil]
    rfl
  have hall := hderives.forall_token (p := fun a => a ∉ c.above) (above_closed c) (by
    intro a ha
    rw [hss, List.reverse_reverse] at ha
    exact hnot a ha)
  rintro ⟨t, ht, hkind⟩
  exact hall t ht _ hkind (List.mem_cons_self)

/-! ### Stacks -/

/-- The values of a part of the stack. -/
theorem holdsFrom_iff {f : Nat → SemValue} {k : Nat} {vs : List Sem} :
    HoldsFrom f k vs ↔ ∀ i v, vs[i]? = some v → (f (k + i)).Holds v := by
  induction vs generalizing k with
  | nil => exact iff_of_true trivial fun i v h => by simp at h
  | cons v vs ih =>
    rw [HoldsFrom, ih]
    constructor
    · rintro ⟨hv, hvs⟩ i w hi
      cases i with
      | zero =>
        obtain rfl := Option.some.inj hi
        exact hv
      | succ i =>
        rw [Nat.add_comm i 1, ← Nat.add_assoc]
        exact hvs i w hi
    · intro h
      refine ⟨h 0 v rfl, fun i w hi => ?_⟩
      rw [Nat.add_assoc, Nat.add_comm 1 i]
      exact h (i + 1) w hi

/-- The stacks of `yyparse` are the stack of the automaton. -/
structure Frame (s : YyState ε) (stack : List (Nat × Sem)) : Prop where
  yyss : s.yyss = stack.map Prod.fst ++ [0]
  yyvsp : s.yyvsp = stack.length
  vals : HoldsFrom (fun i => s.yyvsa (s.yyvsp - i)) 0 (stack.map Prod.snd)

namespace Frame

variable {s : YyState ε}

/-- Both stacks have the same state on top. -/
theorem head (h : Frame s stack) : s.yyss.headD 0 = (parser ε).top stack := by
  rw [h.yyss]
  cases stack with
  | nil => rfl
  | cons x stack => rfl

/-- Both stacks are popped. -/
theorem popstack (h : Frame s stack) {n : Nat} (hn : n ≤ stack.length) :
    Frame (s.popstack n) (stack.drop n) where
  yyss := by
    show s.yyss.drop n = _
    rw [h.yyss, List.drop_append_of_le_length (by rw [List.length_map]; exact hn), List.map_drop]
  yyvsp := by
    show s.yyvsp - n = _
    rw [h.yyvsp, List.length_drop]
  vals := by
    refine holdsFrom_iff.mpr fun i v hi => ?_
    rw [List.map_drop, List.getElem?_drop] at hi
    have hv := holdsFrom_iff.mp h.vals (n + i) v hi
    rw [Nat.zero_add, ← Nat.sub_sub] at hv
    rw [Nat.zero_add]
    exact hv

/-- Both stacks are pushed. -/
theorem push (h : Frame s stack) {sv : SemValue} {v : Sem} (hv : sv.Holds v) (q : Nat) :
    Frame (s.push sv q) ((q, v) :: stack) where
  yyss := by
    show q :: s.yyss = _
    rw [h.yyss]
    rfl
  yyvsp := by
    show s.yyvsp + 1 = _
    rw [h.yyvsp]
    rfl
  vals := by
    refine holdsFrom_iff.mpr fun i w hi => ?_
    show (Function.update s.yyvsa (s.yyvsp + 1) sv (s.yyvsp + 1 - (0 + i))).Holds w
    cases i with
    | zero =>
      obtain rfl := Option.some.inj hi
      rw [Nat.add_zero, Nat.sub_zero, Function.update_self]
      exact hv
    | succ i =>
      have hw := holdsFrom_iff.mp h.vals i w hi
      rw [Function.update_of_ne (by omega), Nat.zero_add, Nat.add_sub_add_right]
      rw [Nat.zero_add] at hw
      exact hw

/-- Entering a state succeeds or fails as in the automaton, unless the state is the last one. -/
theorem yysetstate (h : Frame s stack) {q : Nat} (hq : q ≠ YYFINAL) (s' : YyState ε)
    (hs' : s'.yyss = q :: s.yyss) (v : Sem) (input : List (Except ε Token)) :
    Yacc.yysetstate s' = match (parser ε).push ⟨stack, input⟩ q v with
      | .inl _ => .inl s'
      | .inr _ => .inr (.returned 2 s'.parseTree) := by
  have hlen : s'.yyss.length - 1 = stack.length + 1 := by
    rw [hs', h.yyss]
    simp
  have hhead : s'.yyss.headD 0 = q := by
    rw [hs']
    rfl
  unfold Yacc.yysetstate
  rw [hlen, hhead]
  by_cases hroom : stack.length + 1 ≤ (parser ε).limit
  · rw [Parser.push_of_le hroom]
    have hlimit : (parser ε).limit = 198 := rfl
    have hdepth : YYINITDEPTH = 200 := rfl
    rw [if_neg (by omega), if_neg hq]
  · rw [Parser.push_of_lt (Nat.not_le.mp hroom)]
    have hlimit : (parser ε).limit = 198 := rfl
    have hdepth : YYINITDEPTH = 200 := rfl
    rw [if_pos (by omega)]

end Frame

end Yacc

end Rmdb
