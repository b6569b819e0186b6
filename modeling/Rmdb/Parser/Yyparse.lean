import Rmdb.Parser.Certificate

/-!
# The parser

`yyparse` (`parser/yacc.tab.cpp`) on the tokens of the scanner.  Its stacks are arrays of 200 slots,
which never grow. The value that an action starts with is `$1`, and for an empty rule what the slot
above the top of the stack holds from before; the action of an empty WHERE clause leaves it there.
No state shifts the error token, so that a syntax error empties the stack and ends the parse.  The
locations are left out.
-/

namespace Rmdb.Yacc

open Lexer Ast Lr

/-! ## The machine -/

def YYINITDEPTH : ℕ := 200

/-- The fields of `yylval` that the scanner sets with a token. -/
def scanned (atof : Bytes → BitVec 32) : Token → SemValue → SemValue
  | .IDENTIFIER s, v => { v with sv_str := s }
  | .VALUE_INT s, v => { v with sv_str := s }
  | .VALUE_STRING s, v => { v with sv_str := s }
  | .VALUE_FLOAT s, v => { v with sv_float := atof s }
  | _, v => v

/-- The stacks from their top on, without the initial state; the slots above the top, the nearest
first; the value of the last token, and the tokens that are not shifted yet. -/
structure YyState where
  stack : List (ℕ × SemValue) := []
  above : List SemValue := []
  yylval : SemValue := {}
  input : List Token

/-- How `yyparse` ends: with its result and what is in `parse_tree`, or with an exception.  It
`waits` when it asks for a token that is not there yet. -/
inductive YyEnd
  | returns (yyresult : ℕ) (parse_tree : Option TreeNode)
  | throws (e : ParseError)
  | waits
deriving DecidableEq, Repr

namespace YyState

variable (atof : Bytes → BitVec 32) (parse_tree : Option TreeNode)

/-- `yyreduce`. -/
def yyreduce (s : YyState) (r : ℕ) : Except YyEnd YyState :=
  match rule r with
  | none => .error (.returns 1 parse_tree)
  | some q =>
    let yylen := yyr2.getD r 0
    let popped := ((s.stack.take yylen).map Prod.snd).reverse
    let below := s.stack.drop yylen
    let above := popped ++ s.above
    match q.act (fun i => popped.getD (i - 1) {}) (above.headD {}) with
    | .error e => .error (.throws e)
    | .ok yyval =>
      if q.prod.input = .start then .error (.returns 0 yyval.sv_node)
      else .ok ⟨(yygoto (tables.top below) (yyr1.getD r 0 - 59), yyval) :: below, above.tail,
        s.yylval, s.input⟩

/-- From one `yysetstate` to the next. -/
def step (s : YyState) : Except YyEnd YyState :=
  if YYINITDEPTH - 1 ≤ s.stack.length then .error (.returns 2 parse_tree)
  else if tables.top s.stack = YYFINAL then .error (.returns 0 parse_tree)
  else
    match yybackup (tables.top s.stack) (next grammar s.input) with
    | .shift n =>
      match s.input with
      | x :: input =>
        let yylval := scanned atof x s.yylval
        .ok ⟨(n, yylval) :: s.stack, s.above.tail, yylval, input⟩
      | [] => .error .waits
    | .reduce r => s.yyreduce parse_tree r
    | .error => .error (.returns 1 parse_tree)
    | .read => .error .waits

def run : ℕ → YyState → Option YyEnd
  | 0, _ => none
  | n + 1, s =>
    match s.step atof parse_tree with
    | .error e => some e
    | .ok s => run n s

end YyState

/-! ## The values of the symbols -/

/-- The field that is declared for a symbol. -/
def declared : Sym → SemValue → SemValue
  | .terminal u, v =>
    if u.val = 46 ∨ u.val = 47 ∨ u.val = 48 then { sv_str := v.sv_str }
    else if u.val = 49 then { sv_float := v.sv_float }
    else {}
  | .nonterminal A, v =>
    match A with
    | .accept => {}
    | .start | .stmt | .txnStmt | .dbStmt | .ddl | .dml => { sv_node := v.sv_node }
    | .fieldList => { sv_fields := v.sv_fields }
    | .colNameList | .tableList => { sv_strs := v.sv_strs }
    | .field => { sv_field := v.sv_field }
    | .type => { sv_type_len := v.sv_type_len }
    | .valueList => { sv_vals := v.sv_vals }
    | .value => { sv_val := v.sv_val }
    | .condition => { sv_cond := v.sv_cond }
    | .optWhereClause | .whereClause => { sv_conds := v.sv_conds }
    | .col => { sv_col := v.sv_col }
    | .op => { sv_comp_op := v.sv_comp_op }
    | .expr => { sv_expr := v.sv_expr }
    | .setClauses => { sv_set_clauses := v.sv_set_clauses }
    | .setClause => { sv_set_clause := v.sv_set_clause }
    | .selector | .selectorList => { sv_select_items := v.sv_select_items }
    | .selectorItem => { sv_select_item := v.sv_select_item }
    | .optAsAlias | .tbName | .colName => { sv_str := v.sv_str }
    | .opt_order_clause | .order_clause => { sv_orderby_list := v.sv_orderby_list }
    | .order_item => { sv_orderby := v.sv_orderby }
    | .opt_limit_clause => { sv_int := v.sv_int }
    | .opt_asc_desc => { sv_orderby_dir := v.sv_orderby_dir }

/-- What the tokens and the rules mean: an action sees the declared fields of its symbols, and an
empty rule starts from an empty value. -/
def meaning (atof : Bytes → BitVec 32) : Attributes Token ℕ ParseError SemValue where
  token x := scanned atof x {}
  act r vs :=
    match rule r with
    | none => .error .null
    | some q =>
      (q.act (fun i => vs.getD (i - 1) {}) (vs.headD {})).map (declared (.nonterminal q.prod.input))

def YyEnd.of (parse_tree : Option TreeNode) : Outcome ParseError SemValue → YyEnd
  | .accept v => .returns 0 v.sv_node
  | .throws e => .throws e
  | .error => .returns 1 parse_tree
  | .waits => .waits

/-! ## The actions -/

section
variable {α β γ : Type} {x : Except ParseError α}

theorem map_bind (f : α → β) (g : β → γ) :
    (x >>= fun a => pure (f a)).map g = x.map fun a => g (f a) := by
  cases x <;> rfl

theorem map_bind_bind {δ : Type} {y : Except ParseError β} (f : α → β → γ) (g : γ → δ) :
    (x >>= fun a => y >>= fun b => pure (f a b)).map g = x >>= fun a => y.map fun b => g
    (f a b) := by
  cases x <;> cases y <;> rfl

end

/-- What the action of a rule may look at. -/
def seen (q : Rule) (d : ℕ → SemValue) (i : ℕ) : SemValue :=
  match q.prod.output[i - 1]? with
  | some Y => declared Y (d i)
  | none => {}

/-- The value that an action starts with, where `v` is above the stack. -/
def first (q : Rule) (d : ℕ → SemValue) (v : SemValue) : SemValue :=
  match q.prod.output with
  | [] => v
  | _ :: _ => d 1

theorem act_declared : ∀ q ∈ rules, ∀ d v,
    (q.prod.input = .optWhereClause → q.prod.output = [] → v.sv_conds = []) →
    (q.act d (first q d v)).map (declared (.nonterminal q.prod.input)) =
      (q.act (seen q d) (first q (seen q d) {})).map (declared (.nonterminal q.prod.input)) := by
  simp only [rules, List.forall_mem_cons, List.not_mem_nil, false_implies, implies_true, and_true]
  and_intros
  all_goals
    intro d v hv
    first
    | rfl
    | exact (map_bind ..).trans (.trans (by rfl) (map_bind ..).symm)
    | exact (map_bind_bind ..).trans (.trans (by rfl) (map_bind_bind ..).symm)
    | exact congrArg (fun conds => Except.ok ({ sv_conds := conds } : SemValue))
        (hv trivial trivial)

/-! ## Above the stack -/

/-- The symbols of a WHERE clause and of what follows it. -/
def late : Sym → Bool
  | .terminal u => u.val == 17
  | .nonterminal A =>
    [Nonterm.condition, .whereClause, .optWhereClause, .dml, .stmt, .start, .accept].contains A

theorem late_rules : ∀ q ∈ rules, q.prod.output.any late = true → late
    (.nonterminal q.prod.input) = true := by
  decide +kernel

/-- Up to the WHERE clause no action fills `sv_conds`. -/
theorem act_conds : ∀ q ∈ rules, ∀ d v, late (.nonterminal q.prod.input) = true ∨
    (q.act d v).map SemValue.sv_conds = (q.act d v).map fun _ => v.sv_conds := by
  simp only [rules, List.forall_mem_cons, List.not_mem_nil, false_implies, implies_true, and_true]
  and_intros
  all_goals
    intro d v
    first
    | exact .inl rfl
    | exact .inr rfl
    | exact .inr ((map_bind ..).trans (.trans (by rfl) (map_bind ..).symm))

/-- The states on the way to an empty WHERE clause. -/
def early : List ℕ := [0, 6, 7, 8, 31, 32, 40, 53, 54, 61, 72, 81]

theorem early_preds : (early.all fun s => (preds s).all early.contains &&
    (s == 0 || !late (symbolOf (yystos.getD s 0)))) = true := by
  decide +kernel

theorem early_goto : ((List.range 165).all fun s => early.contains s ||
    !(preds (yygoto s Nonterm.optWhereClause.ctorIdx)).contains s) = true := by
  decide +kernel

theorem not_late_of_early {s : ℕ} {Y : Sym} (h : s ∈ early) (hY : access s = some Y) :
    late Y = false := by
  have hcheck := List.all_eq_true.1 early_preds s h
  rw [Bool.and_eq_true, Bool.or_eq_true, beq_iff_eq, Bool.not_eq_true'] at hcheck
  unfold access at hY
  split_ifs at hY with hs
  cases hY
  exact hcheck.2.resolve_left hs

variable {atof : Bytes → BitVec 32} {parse_tree : Option TreeNode} {σ : List (ℕ × SemValue)}
  {w : List Token} {n : ℕ}

theorem early_of_top (h : Stacked grammar (meaning atof) tables access edge σ w n)
    (htop : tables.top σ ∈ early) : ∀ e ∈ σ, e.1 ∈ early := by
  induction h with
  | nil => simp
  | @push σ w n s v Y _ hedge _ _ _ ih =>
    have hs : s ∈ early := htop
    have hcheck := List.all_eq_true.1 early_preds s hs
    rw [Bool.and_eq_true, List.all_eq_true] at hcheck
    refine List.forall_mem_cons.2 ⟨hs, ih ?_⟩
    exact List.contains_iff_mem.1 (hcheck.1 _ hedge)

theorem top_ne_final (h : Stacked grammar (meaning atof) tables access edge σ w n) :
    tables.top σ ≠ YYFINAL := by
  have hpreds {p : ℕ} (hp : edge p YYFINAL) : p = 16 := by
    have hmem : p ∈ preds 45 := hp
    simpa [show preds 45 = [16] by decide +kernel] using hmem
  cases h with
  | nil => decide
  | @push σ w n s v Y hσ hfinal _ _ _ =>
    intro hs
    have hs : s = YYFINAL := hs
    subst hs
    have htop := hpreds hfinal
    cases hσ with
    | nil => cases htop
    | @push σ w n s v Y hσ hedge _ _ _ =>
      have hs : s = 16 := htop
      subst hs
      have hnone : tables.top σ ∈ preds 16 := hedge
      rw [show preds 16 = [] by decide +kernel] at hnone
      cases hnone

/-! ## The machine of the library -/

/-- A slot of the stack has the declared field of its symbol. -/
def Agree (e e' : ℕ × SemValue) : Prop :=
  e.1 = e'.1 ∧ ∃ Y, access e.1 = some Y ∧ declared Y e.2 = e'.2

/-- Before the WHERE clause no slot has conditions. -/
def Clean (s : YyState) : Prop :=
  (∀ e ∈ s.stack, ∀ Y, access e.1 = some Y → late Y = false) →
    (∀ e ∈ s.stack, e.2.sv_conds = []) ∧ ∀ v ∈ s.above, v.sv_conds = []

structure Simulates (s : YyState) (c : Config ℕ SemValue Token) : Prop where
  stack : List.Forall₂ Agree s.stack c.stack
  input : s.input = c.input
  clean : Clean s
  yylval : s.yylval.sv_conds = []

theorem top_eq {σ σ' : List (ℕ × SemValue)} (h : List.Forall₂ Agree σ σ') :
    tables.top σ = tables.top σ' := by
  cases h with
  | nil => rfl
  | cons h _ => exact h.1

theorem declared_scanned (x : Token) (v : SemValue) :
    declared (.terminal (yytranslate x)) (scanned atof x v) = scanned atof x {} := by
  cases x with
  | keyword k => cases k <;> rfl
  | op b =>
    simp only [declared, yytranslate, charKind, scanned]
    split_ifs <;> first | rfl | simp_all [YYUNDEF]
  | _ => rfl

theorem scanned_conds (x : Token) (v : SemValue) : (scanned atof x v).sv_conds = v.sv_conds := by
  cases x <;> rfl

theorem lengths_checked :
    (rules.zipIdx.all fun q => yyr2.getD (q.2 + 1) 0 == q.1.prod.output.length &&
    yyr1.getD (q.2 + 1) 0 - 59 == q.1.prod.input.ctorIdx) = true := by
  decide +kernel

theorem rule_numbers {r : ℕ} {q : Rule} (h : rule r = some q) :
    q ∈ rules ∧ yyr2.getD r 0 = q.prod.output.length ∧
    yyr1.getD r 0 - 59 = q.prod.input.ctorIdx := by
  cases r with
  | zero => cases h
  | succ i =>
    have hcheck := List.all_eq_true.1 lengths_checked (q, i) (List.mk_mem_zipIdx_iff_getElem?.2 h)
    rw [Bool.and_eq_true, beq_iff_eq, beq_iff_eq] at hcheck
    exact ⟨List.mem_of_getElem? h, hcheck⟩

theorem values_eq {τ τ' : List (ℕ × SemValue)} (h : List.Forall₂ Agree τ τ') {β : List Sym}
    (hβ : τ'.map (fun e => access e.1) = β.map some) :
    τ'.map Prod.snd = List.zipWith declared β (τ.map Prod.snd) := by
  induction h generalizing β with
  | nil => simp
  | @cons e e' τ τ' he _ ih =>
    cases β with
    | nil => cases hβ
    | cons Y β =>
      simp only [List.map_cons, List.cons.injEq] at hβ
      obtain ⟨hfst, Y', hY', hdecl⟩ := he
      have hYY : Y' = Y := Option.some.inj (hY'.symm.trans ((congrArg access hfst).trans hβ.1))
      subst hYY
      rw [List.map_cons, List.map_cons, List.zipWith_cons_cons, ih hβ.2, hdecl]

theorem symbols_eq {τ τ' : List (ℕ × SemValue)} (h : List.Forall₂ Agree τ τ') :
    τ.map (fun e => access e.1) = τ'.map fun e => access e.1 := by
  induction h with
  | nil => rfl
  | cons he _ ih => rw [List.map_cons, List.map_cons, ih, he.1]

theorem Simulates.push {s : YyState} {c : Config ℕ SemValue Token} (h : Simulates s c)
    {i : ℕ} {x : Token}
    {input : List Token} (hi : access i = some (.terminal (yytranslate x))) :
    Simulates ⟨(i, scanned atof x s.yylval) :: s.stack, s.above.tail,
      scanned atof x s.yylval, input⟩ ⟨(i, (meaning atof).token x) :: c.stack, input⟩ := by
  have hconds : (scanned atof x s.yylval).sv_conds = [] := (scanned_conds x _).trans h.yylval
  refine ⟨.cons ⟨rfl, _, hi, declared_scanned x _⟩ h.stack, rfl, ?_, hconds⟩
  intro hlate
  obtain ⟨hstack, habove⟩ := h.clean fun e he => hlate e (List.mem_cons_of_mem _ he)
  exact ⟨List.forall_mem_cons.2 ⟨hconds, hstack⟩, fun v hv => habove v (List.mem_of_mem_tail hv)⟩

/-- What a reduction finds on the stacks, and what it leaves there. -/
structure Popped (s : YyState) (c : Config ℕ SemValue Token) (r : ℕ) (q : Rule) (vs : List SemValue)
    (below : List (ℕ × SemValue)) : Prop where
  rule : rule r = some q
  popped : ((s.stack.take (yyr2.getD r 0)).map Prod.snd).reverse = vs
  rest : s.stack.drop (yyr2.getD r 0) = below
  values : (c.stack.take q.prod.output.length).reverse.map Prod.snd =
    List.zipWith declared q.prod.output vs
  length : vs.length = q.prod.output.length
  agrees : List.Forall₂ Agree below (c.stack.drop q.prod.output.length)
  goto : q.prod.input ≠ .start →
    access (yygoto (tables.top below) q.prod.input.ctorIdx) = some (.nonterminal q.prod.input)
  symbols : (s.stack.take (yyr2.getD r 0)).map (fun e => access e.1) =
    q.prod.output.reverse.map some
  early : q.prod.input = .optWhereClause → q.prod.output = [] → tables.top s.stack ∈ early

theorem Simulates.popped {s : YyState} {c : Config ℕ SemValue Token} (h : Simulates s c)
    (hstack : Stacked grammar (meaning atof) tables access edge c.stack w n) {r : ℕ}
    {a : Option (Fin 59)}
    (haction : yybackup (tables.top c.stack) a = .reduce r) :
    ∃ q vs below, Popped s c r q vs below := by
  obtain ⟨p, hp, hback⟩ := tables_sound.reduce _ _ _ haction
  obtain ⟨q, hq, rfl⟩ := Option.map_eq_some_iff.1 hp
  obtain ⟨hmem, hlen2, -⟩ := rule_numbers hq
  obtain ⟨τ, σ', w', n', γ, d, -, hσ, hlen, -, -, -, -, ⟨-, hgoto⟩, hτ⟩ :=
    hstack.pop tables_sound hback
  rw [List.length_reverse] at hlen
  have htake := List.forall₂_take q.prod.output.length h.stack
  have hdrop := List.forall₂_drop q.prod.output.length h.stack
  have hτ' : c.stack.take q.prod.output.length = τ := by rw [hσ, ← hlen, List.take_left]
  have hσ' : c.stack.drop q.prod.output.length = σ' := by rw [hσ, ← hlen, List.drop_left]
  have hvalues := values_eq htake (hτ' ▸ hτ)
  have hslen : (s.stack.take q.prod.output.length).length = q.prod.output.length := by
    rw [htake.length_eq, hτ', hlen]
  refine ⟨q, _, _, hq, rfl, rfl, ?_, ?_, hlen2 ▸ hdrop, ?_, ?_, ?_⟩
  · rw [List.map_reverse, hvalues, hlen2, List.reverse_zipWith, List.reverse_reverse]
    rw [List.length_reverse, List.length_map, hslen]
  · rw [List.length_reverse, List.length_map, hlen2, hslen]
  · intro hne
    rw [hlen2, top_eq hdrop, hσ']
    exact (hgoto hne).1
  · rw [hlen2, ← hτ, ← hτ']
    exact symbols_eq htake
  · intro hinput hnil
    rw [hnil, List.length_nil] at hlen
    have hτnil := List.eq_nil_of_length_eq_zero hlen
    rw [hinput] at hgoto
    have hedge := (hgoto (by decide)).2
    have hs := lt_of_yybackup haction
    rw [top_eq h.stack]
    rw [hσ, hτnil, List.nil_append] at hs ⊢
    have hcheck := List.all_eq_true.1 early_goto _ (List.mem_range.2 hs)
    rw [Bool.or_eq_true, Bool.not_eq_true', List.contains_iff_mem] at hcheck
    refine hcheck.resolve_right fun hfalse => ?_
    have hmem' : (preds (yygoto (tables.top σ') Nonterm.optWhereClause.ctorIdx)).contains
      (tables.top σ') = true :=
      List.contains_iff_mem.2 hedge
    rw [hmem'] at hfalse
    cases hfalse

theorem getD_seen (q : Rule) (vs : List SemValue) (hlen : vs.length = q.prod.output.length) :
    seen q (fun i => vs.getD (i - 1) {}) = fun i => (List.zipWith declared q.prod.output vs).getD
    (i - 1) {} := by
  funext i
  rw [seen, List.getD_eq_getElem?_getD, List.getD_eq_getElem?_getD, List.getElem?_zipWith]
  cases hY : q.prod.output[i - 1]? with
  | none => rfl
  | some Y =>
    have hi : i - 1 < vs.length := by
      rw [hlen]
      exact (List.getElem?_eq_some_iff.1 hY).1
    simp [List.getElem?_eq_getElem hi]

/-- The value that an action starts with, in both machines. -/
theorem first_eq (q : Rule) (vs above : List SemValue) (hlen : vs.length = q.prod.output.length) :
    (vs ++ above).headD {} = first q (fun i => vs.getD (i - 1) {}) (above.headD {}) ∧
      (List.zipWith declared q.prod.output vs).headD {} =
        first q (fun i => (List.zipWith declared q.prod.output vs).getD (i - 1) {}) {} := by
  cases hout : q.prod.output with
  | nil =>
    rw [hout] at hlen
    have hvs := List.eq_nil_of_length_eq_zero hlen
    subst hvs
    simp [first, hout]
  | cons Y β =>
    rw [hout] at hlen
    obtain ⟨v, vs, rfl⟩ := List.exists_cons_of_length_eq_add_one hlen
    simp [first, hout]

/-- The actions of the two machines give the same, for the declared field. -/
theorem Popped.act {s : YyState} {c : Config ℕ SemValue Token} {r : ℕ} {q : Rule}
    {vs : List SemValue}
    {below : List (ℕ × SemValue)} (h : Popped s c r q vs below) (hsim : Simulates s c)
    (hstack : Stacked grammar (meaning atof) tables access edge c.stack w n) :
    (meaning atof).act r ((c.stack.take q.prod.output.length).reverse.map Prod.snd) =
      (q.act (fun i => vs.getD (i - 1) {}) ((vs ++ s.above).headD {})).map
      (declared (.nonterminal q.prod.input)) := by
  obtain ⟨hfirst, hfirst'⟩ := first_eq q vs s.above h.length
  have hconds (hinput : q.prod.input = .optWhereClause) (hout : q.prod.output = []) :
      (s.above.headD {}).sv_conds = [] := by
    have htop := h.early hinput hout
    rw [top_eq hsim.stack] at htop
    have hearly := early_of_top hstack htop
    have hlate : ∀ e ∈ s.stack, ∀ Y, access e.1 = some Y → late Y = false := by
      intro e he Y hY
      obtain ⟨i, hi, rfl⟩ := List.getElem_of_mem he
      have hi' : i < c.stack.length := hsim.stack.length_eq ▸ hi
      have hagree := List.Forall₂.get hsim.stack hi hi'
      refine not_late_of_early ?_ hY
      rw [show s.stack[i].1 = c.stack[i].1 from hagree.1]
      exact hearly _ (List.getElem_mem hi')
    have habove := (hsim.clean hlate).2
    cases hab : s.above with
    | nil => rfl
    | cons v above => exact habove v (hab ▸ List.mem_cons_self)
  rw [h.values, hfirst, act_declared q (rule_numbers h.rule).1 _ _ hconds,
    getD_seen q vs h.length, ← hfirst']
  simp only [meaning, h.rule]

theorem Popped.clean {s : YyState} {c : Config ℕ SemValue Token} {r : ℕ} {q : Rule}
    {vs : List SemValue}
    {below : List (ℕ × SemValue)} (h : Popped s c r q vs below) (hsim : Simulates s c) {i : ℕ}
    {v : SemValue}
    (hi : access i = some (.nonterminal q.prod.input))
    (hv : q.act (fun i => vs.getD (i - 1) {}) ((vs ++ s.above).headD {}) = .ok v) :
    Clean ⟨(i, v) :: below, (vs ++ s.above).tail, s.yylval, s.input⟩ := by
  intro hlate
  have hmem := (rule_numbers h.rule).1
  have hlhs : late (.nonterminal q.prod.input) = false := hlate _ List.mem_cons_self _ hi
  have hsplit : s.stack = s.stack.take (yyr2.getD r 0) ++ below := by
    rw [← h.rest, List.take_append_drop]
  have hbefore : ∀ e ∈ s.stack, ∀ Y, access e.1 = some Y → late Y = false := by
    intro e he Y hY
    rw [hsplit] at he
    rcases List.mem_append.1 he with he | he
    · have hsym : some Y ∈ (s.stack.take (yyr2.getD r 0)).map fun e => access e.1 :=
        List.mem_map.2 ⟨e, he, hY⟩
      rw [h.symbols, List.mem_map] at hsym
      obtain ⟨Y', hY', hYY⟩ := hsym
      cases hYY
      by_contra hne
      have hany := List.any_eq_true.2 ⟨Y, List.mem_reverse.1 hY', Bool.of_not_eq_false hne⟩
      exact Bool.false_ne_true (hlhs.symm.trans (late_rules q hmem hany))
    · exact hlate e (List.mem_cons_of_mem _ he) Y hY
  obtain ⟨hstack, habove⟩ := hsim.clean hbefore
  have hslots : ∀ u ∈ vs ++ s.above, u.sv_conds = [] := by
    intro u hu
    rcases List.mem_append.1 hu with hu | hu
    · rw [← h.popped, List.mem_reverse] at hu
      obtain ⟨e, he, rfl⟩ := List.mem_map.1 hu
      exact hstack e (List.mem_of_mem_take he)
    · exact habove u hu
  have hhead : ((vs ++ s.above).headD {}).sv_conds = [] := by
    cases hvs : vs ++ s.above with
    | nil => rfl
    | cons u us => exact hslots u (hvs ▸ List.mem_cons_self)
  have hconds :=
    (act_conds q hmem (fun i => vs.getD (i - 1) {}) ((vs ++ s.above).headD {})).resolve_left
    (by simp [hlhs])
  rw [hv] at hconds
  refine ⟨List.forall_mem_cons.2 ⟨(Except.ok.inj hconds).trans hhead, ?_⟩,
    fun u hu => hslots u (List.mem_of_mem_tail hu)⟩
  intro e he
  exact hstack e (hsplit ▸ List.mem_append_right _ he)

theorem Simulates.reduce {s : YyState} {c : Config ℕ SemValue Token} (h : Simulates s c)
    (hstack : Stacked grammar (meaning atof) tables access edge c.stack w n) {r : ℕ}
    {a : Option (Fin 59)}
    (haction : yybackup (tables.top c.stack) a = .reduce r) :
    (∀ o, tables.reduce grammar (meaning atof) r c = .error o →
      s.yyreduce parse_tree r = .error (.of parse_tree o)) ∧
    ∀ c', tables.reduce grammar (meaning atof) r c = .ok c' →
      ∃ s', s.yyreduce parse_tree r = .ok s' ∧ Simulates s' c' := by
  obtain ⟨q, vs, below, hpop⟩ := h.popped hstack haction
  have hrule : grammar.rule r = some q.prod := by simp [grammar, hpop.rule]
  have hact := hpop.act h hstack
  unfold Tables.reduce YyState.yyreduce
  simp only [hrule, hpop.rule, hpop.popped, hpop.rest, hact]
  cases hv : q.act (fun i => vs.getD (i - 1) {}) ((vs ++ s.above).headD {}) with
  | error e => exact ⟨fun o ho => (by cases ho; rfl), fun c' hc' => (by cases hc')⟩
  | ok v =>
    simp only [Except.map]
    by_cases hstart : q.prod.input = .start
    · rw [if_pos hstart, if_pos (show q.prod.input = grammar.start from hstart)]
      refine ⟨fun o ho => ?_, fun c' hc' => (by cases hc')⟩
      cases ho
      rw [hstart]
      rfl
    · rw [if_neg hstart, if_neg (show q.prod.input ≠ grammar.start from hstart)]
      refine ⟨fun o ho => (by cases ho), fun c' hc' => ?_⟩
      cases hc'
      have haccess := hpop.goto hstart
      rw [(rule_numbers hpop.rule).2.2]
      refine ⟨_, rfl, .cons ⟨?_, _, haccess, rfl⟩ hpop.agrees, h.input,
        hpop.clean h haccess hv, h.yylval⟩
      exact congrArg (yygoto · _) (top_eq hpop.agrees)

/-- The parser makes the steps of the machine of the library. -/
theorem Simulates.step {s : YyState} {c : Config ℕ SemValue Token} (h : Simulates s c)
    (hstack : Stacked grammar (meaning atof) tables access edge c.stack w n) :
    (∀ o, tables.step grammar (meaning atof) c = .error o → s.step atof parse_tree =
      .error (.of parse_tree o)) ∧
    ∀ c', tables.step grammar (meaning atof) c = .ok c' → ∃ s', s.step atof parse_tree = .ok s' ∧
    Simulates s' c' := by
  have hlen : s.stack.length ≤ 12 := h.stack.length_eq ▸ hstack.length_le tables_bounded
  have hfinal : tables.top s.stack ≠ YYFINAL := top_eq h.stack ▸ top_ne_final hstack
  unfold YyState.step Tables.step
  rw [if_neg (by unfold YYINITDEPTH; omega), if_neg hfinal, top_eq h.stack, h.input]
  rw [show tables.action (tables.top c.stack) (next grammar c.input) =
    yybackup (tables.top c.stack) (next grammar c.input) from rfl]
  cases haction : yybackup (tables.top c.stack) (next grammar c.input) with
  | shift i =>
    cases hinput : c.input with
    | nil => exact ⟨fun o ho => (by cases ho; rfl), fun c' hc' => (by cases hc')⟩
    | cons x input =>
      refine ⟨fun o ho => (by cases ho), fun c' hc' => ?_⟩
      cases hc'
      rw [hinput] at haction
      exact ⟨_, rfl, h.push (tables_sound.shift _ _ _ haction).1⟩
  | reduce r => exact h.reduce hstack haction
  | error => exact ⟨fun o ho => (by cases ho; rfl), fun c' hc' => (by cases hc')⟩
  | read => exact ⟨fun o ho => (by cases ho; rfl), fun c' hc' => (by cases hc')⟩

/-! ## Parses -/

/-- `yyparse`, with what is in `parse_tree` before. -/
def yyparse (atof : Bytes → BitVec 32) (parse_tree : Option TreeNode) (ts : List Token) : YyEnd :=
  (YyState.run atof parse_tree (6 * ts.length + 61) { input := ts }).getD .waits

theorem run_eq {k : ℕ} : ∀ {s : YyState} {c : Config ℕ SemValue Token} {w : List Token} {n : ℕ},
    Simulates s c → Stacked grammar (meaning atof) tables access edge c.stack w n →
    YyState.run atof parse_tree k s = (tables.run grammar (meaning atof) k c).map
    (YyEnd.of parse_tree) := by
  induction k with
  | zero => intros; rfl
  | succ k ih =>
    intro s c w n hsim hstack
    simp only [YyState.run, Tables.run]
    obtain ⟨hstops, hgoes⟩ := @Simulates.step atof parse_tree w n s c hsim hstack
    cases hstep : tables.step grammar (meaning atof) c with
    | error o =>
      rw [hstops o hstep]
      rfl
    | ok c' =>
      obtain ⟨s', hs', hsim'⟩ := hgoes c' hstep
      obtain ⟨w', n', hstack', -⟩ := hstack.step tables_sound hstep
      rw [hs']
      exact ih hsim' hstack'

theorem simulates_start (ts : List Token) : Simulates { input := ts } (Tables.start ts) :=
  ⟨.nil, rfl, fun _ => ⟨fun _ h => absurd h List.not_mem_nil, fun _ h => absurd h List.not_mem_nil⟩,
    rfl⟩

/-- Every parse ends, in a number of steps that is linear in the number of the tokens. -/
theorem yyparse_ends (ts : List Token) :
    ∃ o, tables.Ends grammar (meaning atof) (Tables.start ts) o ∧
      YyState.run atof parse_tree (6 * ts.length + 61) { input := ts } = some (.of parse_tree o) ∧
      yyparse atof parse_tree ts = .of parse_tree o := by
  have hsome : (tables.run grammar (meaning atof) (6 * ts.length + 61) (Tables.start ts)).isSome :=
    run_isSome tables_sound tables_bounded (by omega)
  obtain ⟨o, ho⟩ := Option.isSome_iff_exists.1 hsome
  have hrun : YyState.run atof parse_tree (6 * ts.length + 61) { input := ts } = _ :=
    run_eq (simulates_start ts) .nil
  rw [ho, Option.map_some] at hrun
  refine ⟨o, ends_of_run ho, hrun, ?_⟩
  rw [yyparse, hrun, Option.getD_some]

end Rmdb.Yacc
