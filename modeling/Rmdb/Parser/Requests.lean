import Rmdb.Parser.Yyparse

/-!
# Statements and requests

What `yyparse` makes of the tokens of a request (`parser/yacc.y`), and the scanner and the parser
together: the tokens that they take are exactly those of a sentence, or the request has a syntax
error or a number that `std::stoi` refuses. No action ever keeps a null pointer.
-/

namespace Rmdb.Yacc

open Lexer Ast Lr

variable {atof : Bytes → BitVec 32} {parse_tree : Option TreeNode}

/-! ## Pointers -/

/-- The pointers of the declared field are not null. -/
def Filled : Sym → SemValue → Prop
  | .terminal _, _ => True
  | .nonterminal A, v =>
    match A with
    | .field => v.sv_field.isSome
    | .type => v.sv_type_len.isSome
    | .value => v.sv_val.isSome
    | .condition => v.sv_cond.isSome
    | .col => v.sv_col.isSome
    | .expr => v.sv_expr.isSome
    | .setClause => v.sv_set_clause.isSome
    | .selectorItem => v.sv_select_item.isSome
    | .order_item => v.sv_orderby.isSome
    | _ => True

/-- The values `$i` and so on of some symbols. -/
def AllFilled (d : ℕ → SemValue) : ℕ → List Sym → Prop
  | _, [] => True
  | i, Y :: β => Filled Y (d i) ∧ AllFilled d (i + 1) β

/-- An action gives a value for the symbol, or the error of `std::stoi`. -/
def Fills (Y : Sym) (x : Except ParseError SemValue) : Prop :=
  (∀ e, x = .error e → e = .lit .outOfRange) ∧ ∀ v, x = .ok v → Filled Y v

section
variable {Y : Sym} {v : SemValue} {α : Type}

theorem Fills.ok (h : Filled Y v) : Fills Y (.ok v) :=
  ⟨fun _ he => (by cases he), fun _ hv => Except.ok.inj hv ▸ h⟩

theorem Fills.ptr {o : Option α} {f : α → Except ParseError SemValue} (ho : o.isSome)
    (hf : ∀ a, Fills Y (f a)) : Fills Y (Yacc.ptr o >>= f) := by
  obtain ⟨a, rfl⟩ := Option.isSome_iff_exists.1 ho
  exact hf a

theorem Fills.number {s : Bytes} {f : ℤ → Except ParseError SemValue} (hf : ∀ a, Fills Y (f a)) :
    Fills Y (Yacc.number s >>= f) := by
  unfold Yacc.number stoi
  split_ifs
  · exact hf _
  · exact ⟨fun _ he => (by cases he; rfl), fun _ hv => (by cases hv)⟩

end

theorem act_fills : ∀ q ∈ rules, ∀ d v, AllFilled d 1 q.prod.output →
    Fills (.nonterminal q.prod.input) (q.act d (first q d v)) := by
  simp only [rules, List.forall_mem_cons, List.not_mem_nil, false_implies, implies_true, and_true]
  and_intros
  all_goals
    intro d v h
    first
    | exact .ok trivial
    | exact .ok rfl
    | exact .ok (Option.isSome_map.trans h.1)
    | exact .ptr h.1 fun _ => .ok trivial
    | exact .ptr h.1 fun _ => .ok rfl
    | exact .ptr h.2.1 fun _ => .ok rfl
    | exact .ptr h.2.2.1 fun _ => .ok trivial
    | exact .ptr h.2.2.1 fun _ => .ok rfl
    | exact .number fun _ => .ok trivial
    | exact .number fun _ => .ok rfl
    | exact .ptr h.1 fun _ => .ptr h.2.2.1 fun _ => .ok rfl

theorem allFilled_of {d : ℕ → SemValue} {i : ℕ} {β : List Sym}
    (h : ∀ j Y, β[j]? = some Y → Filled Y (d (i + j))) : AllFilled d i β := by
  induction β generalizing i with
  | nil => trivial
  | cons Y β ih =>
    refine ⟨h 0 Y rfl, ih fun j Y' hY' => ?_⟩
    rw [Nat.add_right_comm]
    exact h (j + 1) Y' hY'

theorem filled_declared {Y : Sym} {v : SemValue} (h : Filled Y v) : Filled Y (declared Y v) := by
  cases Y with
  | terminal => trivial
  | nonterminal A => cases A <;> exact h

theorem meaning_fills {r : ℕ} {p : ContextFreeRule (Fin 59) Nonterm} {us : List SemValue}
    (hr : grammar.rule r = some p) (hus : List.Forall₂ Filled p.output us) :
    Fills (.nonterminal p.input) ((meaning atof).act r us) := by
  obtain ⟨q, hq, rfl⟩ := Option.map_eq_some_iff.1 hr
  have hfirst : us.headD {} = first q (fun i => us.getD (i - 1) {}) {} := by
    cases hout : q.prod.output with
    | nil =>
      rw [hout] at hus
      cases hus
      simp [first, hout]
    | cons Y β =>
      rw [hout] at hus
      cases hus
      simp [first, hout]
  have hall : AllFilled (fun i => us.getD (i - 1) {}) 1 q.prod.output := by
    refine allFilled_of fun j Y hY => ?_
    obtain ⟨hj, rfl⟩ := List.getElem?_eq_some_iff.1 hY
    have hj' : j < us.length := hus.length_eq ▸ hj
    have hget := List.Forall₂.get hus hj hj'
    simpa [Nat.add_sub_cancel_left, List.getElem?_eq_getElem hj'] using hget
  obtain ⟨herror, hok⟩ := act_fills q (rule_numbers hq).1 _ {} hall
  simp only [meaning, hq, hfirst]
  cases hact : q.act (fun i => us.getD (i - 1) {}) (first q (fun i => us.getD (i - 1) {}) {}) with
  | error e => exact ⟨fun _ he => (by cases he; exact herror e hact), fun _ hv => (by cases hv)⟩
  | ok v =>
    exact ⟨fun _ he => (by cases he), fun _ hv => (by cases hv; exact filled_declared (hok v hact))⟩

theorem values_filled {β : List Sym} (d : Derivation grammar β) {vs : List SemValue}
    (h : d.values (meaning atof) = .ok vs) : List.Forall₂ Filled β vs := by
  induction d generalizing vs with
  | nil =>
    cases h
    exact .nil
  | token x rest ih =>
    obtain ⟨ws, hws, rfl⟩ := (Derivation.values_token rest).1 h
    exact .cons trivial (ih hws)
  | node r hr children rest ihc ih =>
    obtain ⟨us, v, ws, hus, hv, hws, rfl⟩ := (Derivation.values_node rest children).1 h
    exact .cons ((meaning_fills hr (ihc hus)).2 v hv) (ih hws)

theorem throws_outOfRange {ts : List Token} {e : ParseError}
    (h : tables.Ends grammar (meaning atof) (Tables.start ts) (.throws e)) :
    e = .lit .outOfRange := by
  obtain ⟨c, hreach, hend⟩ := h
  obtain ⟨w, n, hstack, -⟩ := stacked_of_reaches tables_sound hreach
  obtain ⟨r, p, hr, d, -, vs, hvs, hact⟩ := hstack.throws tables_sound hend
  exact (meaning_fills hr (values_filled d hvs)).1 e hact

/-! ## Sentences -/

/-- The tokens of a sentence give what its derivation means, whatever comes after them. -/
theorem yyparse_sentence (d : Derivation grammar [.nonterminal .start]) (rest : List Token) :
    yyparse atof parse_tree (d.yield ++ rest) = .of parse_tree (.of (d.value (meaning atof))) := by
  obtain ⟨o, hends, -, hparse⟩ := @yyparse_ends atof parse_tree (d.yield ++ rest)
  rw [hparse, hends.unique (ends_of_derivation tables_complete d rest)]
  rfl

/-- No sentence begins with tokens that have a syntax error. -/
theorem not_sentence_of_error {ts : List Token}
    (h : tables.Ends grammar (meaning atof) (Tables.start ts) .error)
    (more : List Token) (d : Derivation grammar [.nonterminal .start]) :
    ¬ d.yield <+: ts ++ more := by
  rintro ⟨rest, hrest⟩
  have herror := h.append tables_eager more (by simp)
  have hsentence : tables.Ends grammar (meaning atof) (Tables.start (d.yield ++ rest))
    (.of (d.value (meaning atof))) :=
    ends_of_derivation tables_complete d rest
  rw [hrest] at hsentence
  have heq := herror.unique hsentence
  cases hd : d.value (meaning atof) with
  | error e =>
    rw [hd] at heq
    cases heq
  | ok v =>
    rw [hd] at heq
    cases heq

/-- The parser is the grammar: it ends on every sequence of tokens, within its stacks and after at
most six steps for each token and a constant; a sentence that the tokens begin with gives what its
derivation means, there is no other way to be accepted, the only exception is that of `std::stoi`,
and a syntax error is found only where no sentence begins with the tokens, whatever comes next. -/
theorem yyparse_iff_grammar (atof : Bytes → BitVec 32) (parse_tree : Option TreeNode)
    (ts : List Token) : (YyState.run atof parse_tree (6 * ts.length + 61) { input := ts }).isSome ∧
    (∀ d : Derivation grammar [.nonterminal .start], d.yield <+: ts →
      yyparse atof parse_tree ts = .of parse_tree (.of (d.value (meaning atof)))) ∧
    (∀ tree, yyparse atof parse_tree ts = .returns 0 tree →
      ∃ d : Derivation grammar [.nonterminal .start], d.yield <+: ts ∧
        ∃ v, d.value (meaning atof) = .ok v ∧ v.sv_node = tree) ∧
    (∀ e, yyparse atof parse_tree ts = .throws e → e = .lit .outOfRange) ∧
    (∀ tree, yyparse atof parse_tree ts ≠ .returns 2 tree) ∧
    (∀ tree, yyparse atof parse_tree ts = .returns 1 tree → tree = parse_tree ∧
      ∀ (more : List Token) (d : Derivation grammar [.nonterminal .start]),
        ¬ d.yield <+: ts ++ more) := by
  obtain ⟨o, hends, hrun, hparse⟩ := @yyparse_ends atof parse_tree ts
  rw [hrun, hparse]
  refine ⟨rfl, ?_, ?_, ?_, ?_, ?_⟩
  · rintro d ⟨rest, rfl⟩
    exact hparse.symm.trans (yyparse_sentence d rest)
  · intro tree htree
    cases o with
    | accept v =>
      obtain ⟨d, hd, hv⟩ := derivation_of_ends tables_sound hends
      exact ⟨d, hd, v, hv, by cases htree; rfl⟩
    | throws e => cases htree
    | error => cases htree
    | waits => cases htree
  · intro e he
    cases o with
    | throws e' =>
      cases he
      exact throws_outOfRange hends
    | accept v => cases he
    | error => cases he
    | waits => cases he
  · intro tree htree
    cases o <;> cases htree
  · intro tree htree
    cases o with
    | accept v => cases htree
    | throws e => cases htree
    | waits => cases htree
    | error =>
      exact ⟨by cases htree; rfl, fun more d => not_sentence_of_error hends more d⟩

/-! ## Requests -/

theorem yyparse_nil (atof : Bytes → BitVec 32) (parse_tree : Option TreeNode) :
    yyparse atof parse_tree [] = .waits := rfl

theorem eof_checked :
    ((List.range 165).all fun s => access s != some (.terminal 45) || s == 15) = true := by
  decide +kernel

/-- The state after `T_EOF`. -/
theorem eq_eof_state {s : ℕ} (h : access s = some (.terminal (yytranslate .T_EOF))) : s = 15 := by
  by_cases hs : s < 165
  · have hcheck := List.all_eq_true.1 eof_checked s (List.mem_range.2 hs)
    rw [Bool.or_eq_true, bne_iff_ne, beq_iff_eq] at hcheck
    exact hcheck.resolve_left fun hne => hne h
  · have hzero : yystos.getD s 0 = 0 := by
      rw [List.getD_eq_default]
      exact not_lt.1 hs
    unfold access at h
    split_ifs at h
    rw [hzero] at h
    cases h

theorem step_eof {c : Config ℕ SemValue Token} (hinput : c.input = [])
    (htop : tables.top c.stack = 15) :
    ∃ v, tables.step grammar (meaning atof) c = .error (.accept v) := by
  have haction : tables.action (tables.top c.stack) (next grammar c.input) = .reduce 5 := by
    rw [hinput, htop]
    rfl
  unfold Tables.step
  rw [haction]
  exact ⟨_, rfl⟩

/-- No parse waits after `T_EOF`. -/
theorem ends_ne_waits {ts : List Token} {o : Outcome ParseError SemValue}
    (h : tables.Ends grammar (meaning atof) (Tables.start (ts ++ [.T_EOF])) o) : o ≠ .waits := by
  obtain ⟨c, hreach, hend⟩ := h
  have hinv : (∃ pre, c.input = pre ++ [Token.T_EOF]) ∨ c.input = [] ∧ tables.top c.stack = 15 := by
    clear hend
    induction hreach with
    | refl => exact .inl ⟨ts, rfl⟩
    | @tail b c _ hstep ih =>
      rcases ih with ⟨pre, hpre⟩ | ⟨hnil, htop⟩
      · rcases step_input hstep with hsame | ⟨x, hx, hshift⟩
        · exact .inl ⟨pre, hsame.trans hpre⟩
        · rw [hpre] at hx
          cases pre with
          | nil =>
            obtain ⟨rfl, hrest⟩ := List.cons.inj hx
            exact .inr ⟨hrest.symm, eq_eof_state (tables_sound.shift _ _ _ hshift).1⟩
          | cons y pre => exact .inl ⟨pre, (List.cons.inj hx).2.symm⟩
      · obtain ⟨v, hv⟩ := @step_eof atof b hnil htop
        cases hv.symm.trans hstep
  rintro rfl
  rcases hinv with ⟨pre, hpre⟩ | ⟨hnil, htop⟩
  · rcases action_of_waits hend with hread | hnil
    · obtain ⟨x, hx⟩ : ∃ x, next grammar c.input = some x := by
        rw [hpre]
        cases pre with
        | nil => exact ⟨_, rfl⟩
        | cons y pre => exact ⟨_, rfl⟩
      rw [hx] at hread
      have hne : yybackup (tables.top c.stack) (some x) ≠ .read := by
        unfold yybackup yydefault
        simp only
        split_ifs <;> simp
      exact hne hread
    · rw [hnil] at hpre
      simp at hpre
  · obtain ⟨v, hv⟩ := @step_eof atof c hnil htop
    cases hv.symm.trans hend

/-- The parser of the requests, with what is in `parse_tree` before. -/
def parser (atof : Bytes → BitVec 32) (parse_tree : Option TreeNode) : Lexer.Parser YyEnd where
  result ts :=
    if yyparse atof parse_tree ts = .waits then none else some (yyparse atof parse_tree ts)
  begins := if_pos rfl
  ends ts := by
    obtain ⟨o, hends, -, hparse⟩ := @yyparse_ends atof parse_tree (ts ++ [.T_EOF])
    have hne := ends_ne_waits hends
    rw [hparse, if_neg]
    · rfl
    · cases o with
      | waits => exact absurd rfl hne
      | accept v => exact fun h => (by cases h)
      | throws e => exact fun h => (by cases h)
      | error => exact fun h => (by cases h)

/-- The scanner and the parser end on every request, and take no token behind a sentence: a request
is accepted just when the tokens taken are a sentence, with its meaning.  Otherwise it is refused,
with `parse_tree` as it was, where no sentence begins with the tokens taken, or a number in it is
too large. -/
theorem request_parsed (atof : Bytes → BitVec 32) (parse_tree : Option TreeNode) (cond : StartCond)
    (text : Bytes) : ∃ ts e, outcome Lexer.rules (parser atof parse_tree) cond text = some (ts, e) ∧
      (∀ d : Derivation grammar [.nonterminal .start], d.yield <+: ts →
        d.yield = ts ∧ e = .of parse_tree (.of (d.value (meaning atof)))) ∧
      ((∃ tree, e = .returns 0 tree ∧ ∃ d : Derivation grammar [.nonterminal .start], d.yield = ts ∧
          ∃ v, d.value (meaning atof) = .ok v ∧ v.sv_node = tree) ∨
        (e = .returns 1 parse_tree ∧
          ∀ (more : List Token) (d : Derivation grammar [.nonterminal .start]),
          ¬ d.yield <+: ts ++ more) ∨
        e = .throws (.lit .outOfRange)) := by
  obtain ⟨⟨ts, e, cond'⟩, hfeed⟩ :=
    Option.isSome_iff_exists.1 (handle_isSome rules_complete (parser atof parse_tree) cond text)
  refine ⟨ts, e, by rw [outcome, hfeed]; rfl, ?_⟩
  obtain ⟨rest, -, hres⟩ := feed_comes hfeed
  have hparse : yyparse atof parse_tree ts = e ∧ e ≠ .waits := by
    simp only [parser] at hres
    split_ifs at hres with hwaits
    cases hres
    exact ⟨rfl, hwaits⟩
  obtain ⟨hparse, hnot⟩ := hparse
  obtain ⟨o, hends, -, ho⟩ := @yyparse_ends atof parse_tree ts
  have hsentence (d : Derivation grammar [.nonterminal .start]) (hd : d.yield <+: ts) :
      d.yield = ts ∧ e = .of parse_tree (.of (d.value (meaning atof))) := by
    obtain ⟨more, rfl⟩ := hd
    refine ⟨?_, hparse.symm.trans (yyparse_sentence d more)⟩
    by_contra hne
    have hasks := feed_asks hfeed List.nil_prefix (List.prefix_append ..) hne
    simp only [parser] at hasks
    split_ifs at hasks with hwaits
    have hmeans := @yyparse_sentence atof parse_tree d []
    rw [List.append_nil] at hmeans
    rw [hmeans] at hwaits
    cases hval : d.value (meaning atof) with
    | ok v =>
      rw [hval] at hwaits
      cases hwaits
    | error x =>
      rw [hval] at hwaits
      cases hwaits
  refine ⟨hsentence, ?_⟩
  rw [← hparse, ho]
  cases o with
  | accept v =>
    obtain ⟨d, hd, hv⟩ := derivation_of_ends tables_sound hends
    exact .inl ⟨_, rfl, d, (hsentence d hd).1, v, hv, rfl⟩
  | throws x =>
    rw [throws_outOfRange hends]
    exact .inr (.inr rfl)
  | error => exact .inr (.inl ⟨rfl, fun more d => not_sentence_of_error hends more d⟩)
  | waits => exact absurd (hparse.symm.trans ho) hnot

end Rmdb.Yacc
