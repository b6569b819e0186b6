import Rmdb.Lib.Derivation

/-!
# Table-driven parsers

The machine of an LR parser is given by its tables: in the state on top of its stack, and with the
next token in view unless the state does without, it shifts the token or reduces the top of the
stack by a rule.  A reduction computes the value of the rule from the values on the stack; one by a
rule of the start symbol ends the parse.

Two certificates about tables say that they are those of a grammar.  `Complete` names the lookaheads
with which a nonterminal is expected in a state, and follows every rule from every state that
expects its nonterminal: then the machine builds every derivation.  `Sound` names the predecessors
of the states, and follows every reduction back: then the stack always spells derivations of the
tokens that were taken.  `Bounded` gives ranks to the states and weights to the nonterminals, for
the height of the stack and the number of steps.
-/

namespace Rmdb.Lr

variable {X T N R S E V : Type*} [DecidableEq N]

/-- What the tables say; `read` asks for the next token. -/
inductive Action (S R : Type*)
  | shift (s : S)
  | reduce (r : R)
  | error
  | read
deriving DecidableEq, Repr

/-- The tables of a parser.  A state looks at the next token when it is there, and acts without one
if it can. -/
structure Tables (T N R S : Type*) where
  action : S → Option T → Action S R
  goto : S → N → S
  initial : S

/-- The stack, from its top on and without the initial state, and the tokens that are not shifted
yet. -/
structure Config (S V X : Type*) where
  stack : List (S × V)
  input : List X

/-- How a parse ends; `waits` stands for a parse that needs more tokens. -/
inductive Outcome (E V : Type*)
  | accept (v : V)
  | throws (e : E)
  | error
  | waits
deriving DecidableEq, Repr

/-- The outcome when the value of the start symbol is computed. -/
def Outcome.of : Except E V → Outcome E V
  | .ok v => .accept v
  | .error e => .throws e

/-- The kind of the next token. -/
def next (G : NamedGrammar X T N R) (input : List X) : Option T := input.head?.map G.kind

namespace Tables

variable (G : NamedGrammar X T N R) (A : Attributes X R E V) (M : Tables T N R S)

/-- The state on top of a stack. -/
def top (σ : List (S × V)) : S := (σ.head?.map Prod.fst).getD M.initial

/-- A reduction by a rule. -/
def reduce (r : R) (c : Config S V X) : Except (Outcome E V) (Config S V X) :=
  match G.rule r with
  | none => .error .error
  | some p =>
    match A.act r ((c.stack.take p.output.length).reverse.map Prod.snd) with
    | .error e => .error (.throws e)
    | .ok v =>
      if p.input = G.start then .error (.accept v)
      else .ok ⟨(M.goto (M.top (c.stack.drop p.output.length)) p.input, v) ::
        c.stack.drop p.output.length, c.input⟩

/-- One step of the machine, which may be the last one. -/
def step (c : Config S V X) : Except (Outcome E V) (Config S V X) :=
  match M.action (M.top c.stack) (next G c.input) with
  | .shift s =>
    match c.input with
    | x :: input => .ok ⟨(s, A.token x) :: c.stack, input⟩
    | [] => .error .waits
  | .reduce r => M.reduce G A r c
  | .error => .error .error
  | .read => .error .waits

def run : ℕ → Config S V X → Option (Outcome E V)
  | 0, _ => none
  | n + 1, c =>
    match M.step G A c with
    | .error o => some o
    | .ok c => run n c

/-- One configuration leads to another. -/
def Reaches : Config S V X → Config S V X → Prop :=
  Relation.ReflTransGen fun c c' => M.step G A c = .ok c'

/-- The parse from a configuration ends. -/
def Ends (c : Config S V X) (o : Outcome E V) : Prop :=
  ∃ c', M.Reaches G A c c' ∧ M.step G A c' = .error o

/-- The configuration before the first token. -/
def start (input : List X) : Config S V X := ⟨[], input⟩

end Tables

variable {G : NamedGrammar X T N R} {A : Attributes X R E V} {M : Tables T N R S}
variable {σ τ : List (S × V)} {x : X} {input rest : List X} {c c' : Config S V X}
  {o o' : Outcome E V}

open Tables

/-! ## Steps -/

theorem step_shift {s : S} (h : M.action (M.top σ) (some (G.kind x)) = .shift s) :
    M.step G A ⟨σ, x :: input⟩ = .ok ⟨(s, A.token x) :: σ, input⟩ := by
  simp only [step, next, List.head?_cons, Option.map_some, h]

theorem step_reduce {r : R} (h : M.action (M.top σ) (next G input) = .reduce r) :
    M.step G A ⟨σ, input⟩ = M.reduce G A r ⟨σ, input⟩ := by
  simp only [step, h]

theorem reduce_throws {r : R} {p : ContextFreeRule T N} {e : E} (hr : G.rule r = some p)
    (hlen : τ.length = p.output.length) (h : A.act r (τ.reverse.map Prod.snd) = .error e) :
    M.reduce G A r ⟨τ ++ σ, input⟩ = .error (.throws e) := by
  simp only [reduce, hr, ← hlen, List.take_left, h]

theorem reduce_value {r : R} {p : ContextFreeRule T N} {v : V} (hr : G.rule r = some p)
    (hlen : τ.length = p.output.length) (h : A.act r (τ.reverse.map Prod.snd) = .ok v) :
    M.reduce G A r ⟨τ ++ σ, input⟩ = if p.input = G.start then .error (.accept v)
      else .ok ⟨(M.goto (M.top σ) p.input, v) :: σ, input⟩ := by
  simp only [reduce, hr, ← hlen, List.take_left, List.drop_left, h]

/-- A step leaves the tokens, or shifts the first one. -/
theorem step_input (h : M.step G A c = .ok c') : c'.input = c.input ∨
    ∃ x, c.input = x :: c'.input ∧ M.action (M.top c.stack) (some (G.kind x)) = .shift
    (M.top c'.stack) := by
  obtain ⟨σ, input⟩ := c
  unfold step at h
  split at h
  · next s haction =>
    cases input with
    | nil => cases h
    | cons x input =>
      cases h
      exact .inr ⟨x, rfl, haction⟩
  · next r haction =>
    unfold reduce at h
    split at h
    · cases h
    · split at h
      · cases h
      · split_ifs at h
        cases h
        exact .inl rfl
  · cases h
  · cases h

/-- The machine waits at the end of the tokens, or where it asks for the next one. -/
theorem action_of_waits (h : M.step G A c = .error .waits) :
    M.action (M.top c.stack) (next G c.input) = .read ∨ c.input = [] := by
  obtain ⟨σ, input⟩ := c
  unfold step at h
  split at h
  · next s haction =>
    cases input with
    | nil => exact .inr rfl
    | cons x input => cases h
  · next r haction =>
    unfold reduce at h
    split at h
    · cases h
    · split at h
      · cases h
      · split_ifs at h
        cases h
  · cases h
  · next haction => exact .inl haction

theorem Tables.Ends.head (h : M.step G A c = .ok c') (h' : M.Ends G A c' o) : M.Ends G A c o := by
  obtain ⟨d, hd, ho⟩ := h'
  exact ⟨d, .head h hd, ho⟩

theorem Tables.Ends.of_reaches (h : M.Reaches G A c c') (h' : M.Ends G A c' o) :
    M.Ends G A c o := by
  obtain ⟨d, hd, ho⟩ := h'
  exact ⟨d, h.trans hd, ho⟩

theorem ends_of_run {n : ℕ} (h : M.run G A n c = some o) : M.Ends G A c o := by
  induction n generalizing c with
  | zero => cases h
  | succ n ih =>
    cases hs : M.step G A c with
    | error o' =>
      simp only [run, hs, Option.some.injEq] at h
      exact ⟨c, .refl, h ▸ hs⟩
    | ok c' =>
      simp only [run, hs] at h
      exact (ih h).head hs

theorem Tables.Ends.unique (h : M.Ends G A c o) (h' : M.Ends G A c o') : o = o' := by
  obtain ⟨d, hd, ho⟩ := h
  induction hd using Relation.ReflTransGen.head_induction_on with
  | refl =>
    obtain ⟨d', hd', ho'⟩ := h'
    rcases hd'.cases_head with rfl | ⟨c', hstep, -⟩
    · exact Except.error.inj (ho.symm.trans ho')
    · cases ho.symm.trans hstep
  | head hstep _ ih =>
    obtain ⟨d', hd', ho'⟩ := h'
    rcases hd'.cases_head with rfl | ⟨c', hstep', hrest⟩
    · cases hstep.symm.trans ho'
    · cases hstep.symm.trans hstep'
      exact ih ⟨d', hrest, ho'⟩

/-! ## More tokens -/

/-- A state that acts without a token acts in the same way with one. -/
def Tables.Eager (M : Tables T N R S) : Prop :=
  ∀ s t, M.action s none ≠ .read → M.action s (some t) = M.action s none

theorem step_append (hM : M.Eager) (more : List X) :
    (∀ c', M.step G A ⟨σ, input⟩ = .ok c' → M.step G A ⟨σ, input ++ more⟩ =
      .ok ⟨c'.stack, c'.input ++ more⟩) ∧
      ∀ o, M.step G A ⟨σ, input⟩ = .error o → o ≠ .waits → M.step G A ⟨σ, input ++ more⟩ =
      .error o := by
  have hreduce (r : R) : (∀ c', M.reduce G A r ⟨σ, input⟩ = .ok c' →
        M.reduce G A r ⟨σ, input ++ more⟩ = .ok ⟨c'.stack, c'.input ++ more⟩) ∧
      ∀ o, M.reduce G A r ⟨σ, input⟩ = .error o → o ≠ .waits → M.reduce G A r ⟨σ, input ++ more⟩ =
        .error o := by
    unfold reduce
    cases G.rule r with
    | none => exact ⟨fun _ h => (by cases h), fun _ h _ => h⟩
    | some p =>
      simp only
      cases A.act r ((σ.take p.output.length).reverse.map Prod.snd) with
      | error e => exact ⟨fun _ h => (by cases h), fun _ h _ => h⟩
      | ok v =>
        simp only
        split_ifs
        · exact ⟨fun _ h => (by cases h), fun _ h _ => h⟩
        · exact ⟨fun _ h => (by cases h; rfl), fun _ h => (by cases h)⟩
  cases input with
  | cons x input =>
    simp only [step, next, List.cons_append, List.head?_cons, Option.map_some]
    cases M.action (M.top σ) (some (G.kind x)) with
    | shift s => exact ⟨fun _ h => (by cases h; rfl), fun _ h => (by cases h)⟩
    | reduce r => exact hreduce r
    | error => exact ⟨fun _ h => (by cases h), fun _ h _ => h⟩
    | read => exact ⟨fun _ h => (by cases h), fun _ h _ => h⟩
  | nil =>
    have hsame (hne : M.action (M.top σ) none ≠ .read) :
        M.action (M.top σ) (next G ([] ++ more)) = M.action (M.top σ) none := by
      cases more with
      | nil => rfl
      | cons y more => exact hM _ _ hne
    simp only [step]
    rw [show next G ([] : List X) = none from rfl]
    cases h : M.action (M.top σ) none with
    | shift s => exact ⟨fun _ h => (by cases h), fun _ h hw => absurd (Except.error.inj h).symm hw⟩
    | reduce r =>
      rw [hsame (by simp [h]), h]
      exact hreduce r
    | error =>
      rw [hsame (by simp [h]), h]
      exact ⟨fun _ h => (by cases h), fun _ h _ => h⟩
    | read => exact ⟨fun _ h => (by cases h), fun _ h hw => absurd (Except.error.inj h).symm hw⟩

/-- A parse that does not wait ends in the same way when there are more tokens. -/
theorem Tables.Ends.append (hM : M.Eager) (more : List X) (h : M.Ends G A c o) (ho : o ≠ .waits) :
    M.Ends G A ⟨c.stack, c.input ++ more⟩ o := by
  obtain ⟨d, hd, hend⟩ := h
  induction hd using Relation.ReflTransGen.head_induction_on with
  | refl => exact ⟨_, .refl, (step_append hM more).2 _ hend ho⟩
  | head hstep _ ih => exact ih.head ((step_append hM more).1 _ hstep)

/-! ## Complete tables -/

section
variable {β γ : List (Symbol T N)}

/-- The tokens, or the end, that may come first where `β` begins and what follows it begins with one
of `L`; `heads` has the first tokens of a nonterminal, and `none` when nothing may be left of it. -/
def Starts (heads : N → Option T → Prop) : List (Symbol T N) → (Option T → Prop) → Option T → Prop
  | [], L, a => L a
  | .terminal t :: _, _, a => a = some t
  | .nonterminal B :: β, L, a => (a ≠ none ∧ heads B a) ∨ (heads B none ∧ Starts heads β L a)

/-- The rule `r` can be followed from a state over what is left of it, up to its reduction for the
lookaheads `L`. -/
def Walk (G : NamedGrammar X T N R) (M : Tables T N R S) (heads : N → Option T → Prop)
    (expects : S → N → Option T → Prop) (r : R) : S → List (Symbol T N) → (Option T → Prop) → Prop
  | s, [], L => ∀ a, L a → M.action s a = .reduce r
  | s, .terminal t :: β, L =>
    ∃ s', M.action s (some t) = .shift s' ∧ Walk G M heads expects r s' β L
  | s, .nonterminal B :: β, L =>
    B ≠ G.start ∧ (∀ a, Starts heads β L a → expects s B a) ∧
      Walk G M heads expects r (M.goto s B) β L

/-- The tables let every derivation be built: `expects s B a` when `B`, with `a` after it, may come
in the state. -/
structure Complete (G : NamedGrammar X T N R) (M : Tables T N R S) (heads : N → Option T → Prop)
    (expects : S → N → Option T → Prop) : Prop where
  opens : ∀ r p a, G.rule r = some p → Starts heads p.output (· = none) a → heads p.input a
  start : ∀ a, expects M.initial G.start a
  rule : ∀ s r p a, G.rule r = some p → expects s p.input a →
    Walk G M heads expects r s p.output (expects s p.input)

variable {heads : N → Option T → Prop} {expects : S → N → Option T → Prop} {L : Option T → Prop}

omit [DecidableEq N] in
theorem next_append_of_ne (h : next G input ≠ none) : next G (input ++ rest) = next G input := by
  cases input with
  | nil => exact absurd rfl h
  | cons x input => rfl

omit [DecidableEq N] in
theorem starts_yield (hC : Complete G M heads expects) (d : Derivation G β) (hL : L (next G rest)) :
    Starts heads β L (next G (d.yield ++ rest)) := by
  induction d generalizing L rest with
  | nil => exact hL
  | token x d _ => rfl
  | @node r B γ h children β d ihc ih =>
    have hchildren : Starts heads γ (· = none) (next G (children.yield ++ [])) := ihc rfl
    rw [List.append_nil] at hchildren
    have hhead := hC.opens _ _ _ h hchildren
    rw [Derivation.yield, List.append_assoc]
    by_cases hnil : children.yield = []
    · rw [hnil] at hhead ⊢
      exact .inr ⟨hhead, ih hL⟩
    · have hne : next G children.yield ≠ none := by
        obtain ⟨x, xs, hx⟩ := List.exists_cons_of_ne_nil hnil
        simp [next, hx]
      refine .inl ?_
      rw [next_append_of_ne hne]
      exact ⟨hne, hhead⟩

/-- Over a derivation that has values, the machine comes to have them on its stack. -/
theorem reaches_of_values (hC : Complete G M heads expects) (d : Derivation G β) {r : R}
    {vs : List V}
    (hvs : d.values A = .ok vs) (hwalk : Walk G M heads expects r (M.top σ) β L)
    (hL : L (next G rest)) :
    ∃ τ, τ.length = β.length ∧ τ.reverse.map Prod.snd = vs ∧
    M.Reaches G A ⟨σ, d.yield ++ rest⟩ ⟨τ ++ σ, rest⟩ ∧
      M.action (M.top (τ ++ σ)) (next G rest) = .reduce r := by
  induction d generalizing σ rest L r vs with
  | nil =>
    cases hvs
    exact ⟨[], rfl, rfl, .refl, hwalk _ hL⟩
  | token x d ih =>
    obtain ⟨ws, hws, rfl⟩ := (Derivation.values_token d).1 hvs
    obtain ⟨s, hshift, hwalk⟩ := hwalk
    obtain ⟨τ, hlen, hval, hreach, haction⟩ := ih (σ := (s, A.token x) :: σ) hws hwalk hL
    refine ⟨τ ++ [(s, A.token x)], by simp [hlen], by simp [hval], ?_, by simpa using haction⟩
    rw [List.append_assoc]
    exact .head (step_shift hshift) hreach
  | @node r' B γ h children β d ihc ih =>
    obtain ⟨us, v, ws, hus, hv, hws, rfl⟩ := (Derivation.values_node d children).1 hvs
    obtain ⟨hstart, hexpects, hwalk⟩ := hwalk
    have ha := hexpects _ (starts_yield hC d hL)
    obtain ⟨τ, hlen, hval, hreach, haction⟩ := ihc hus (hC.rule _ _ _ _ h ha) ha
    obtain ⟨τ', hlen', hval', hreach', haction'⟩ :=
      ih (σ := (M.goto (M.top σ) B, v) :: σ) hws hwalk hL
    have hreduce : M.reduce G A r' ⟨τ ++ σ, d.yield ++ rest⟩ = _ := reduce_value h hlen (hval ▸ hv)
    rw [if_neg hstart] at hreduce
    refine ⟨τ' ++ [(M.goto (M.top σ) B, v)], by simp [hlen'], by simp [hval'],
      ?_, by simpa using haction'⟩
    rw [Derivation.yield, List.append_assoc, List.append_assoc]
    exact hreach.trans (.head ((step_reduce haction).trans hreduce) hreach')

/-- Over a derivation in which a rule fails, the parse ends with its error. -/
theorem ends_of_values (hC : Complete G M heads expects) (d : Derivation G β) {r : R} {e : E}
    (he : d.values A = .error e) (hwalk : Walk G M heads expects r (M.top σ) β L)
    (hL : L (next G rest)) : M.Ends G A ⟨σ, d.yield ++ rest⟩ (.throws e) := by
  induction d generalizing σ rest L r with
  | nil => cases he
  | token x d ih =>
    obtain ⟨s, hshift, hwalk⟩ := hwalk
    have hd : d.values A = .error e := by
      cases h : d.values A with
      | error e' =>
        simp only [Derivation.values, h, bind, Except.bind, Except.error.injEq] at he
        exact congrArg _ he
      | ok ws => simp [Derivation.values, h, bind, Except.bind, pure, Except.pure] at he
    exact (ih (σ := (s, A.token x) :: σ) hd hwalk hL).head (step_shift hshift)
  | @node r' B γ h children β d ihc ih =>
    obtain ⟨hstart, hexpects, hwalk⟩ := hwalk
    have ha := hexpects _ (starts_yield hC d hL)
    rw [Derivation.yield, List.append_assoc]
    obtain hus | ⟨us, hus, hact⟩ := Derivation.values_error d children he
    · exact ihc hus (hC.rule _ _ _ _ h ha) ha
    · obtain ⟨τ, hlen, hval, hreach, haction⟩ :=
        reaches_of_values hC children hus (hC.rule _ _ _ _ h ha) ha
      refine .of_reaches hreach ?_
      obtain hv | ⟨v, hv, hd⟩ := hact
      · exact ⟨_, .refl, (step_reduce haction).trans (reduce_throws h hlen (hval ▸ hv))⟩
      · have hreduce : M.reduce G A r' ⟨τ ++ σ, d.yield ++ rest⟩ = _ :=
          reduce_value h hlen (hval ▸ hv)
        rw [if_neg hstart] at hreduce
        exact (ih (σ := (M.goto (M.top σ) B, v) :: σ) hd hwalk hL).head
          ((step_reduce haction).trans hreduce)

/-- The machine builds every derivation of the start symbol, whatever comes after it. -/
theorem ends_of_derivation (hC : Complete G M heads expects)
    (d : Derivation G [.nonterminal G.start])
    (rest : List X) : M.Ends G A (start (d.yield ++ rest)) (.of (d.value A)) := by
  generalize hstart : G.start = B at d
  cases d with
  | @node r _ γ h children _ d =>
    cases d with
    | nil =>
      have ha : expects M.initial B (next G rest) := hstart ▸ hC.start _
      have hwalk : Walk G M heads expects r (M.top ([] : List (S × V))) γ (expects M.initial B) :=
        hC.rule _ _ _ _ h ha
      rw [Derivation.yield, Derivation.yield, List.append_nil]
      cases hvs : children.values A with
      | error e =>
        have hval : (Derivation.node r h children .nil).value A = .error e := by
          simp [Derivation.value, hvs, bind, Except.bind]
        rw [hval]
        exact ends_of_values hC children hvs hwalk ha
      | ok vs =>
        have hval : (Derivation.node r h children .nil).value A = A.act r vs := by
          simp [Derivation.value, hvs, bind, Except.bind]
        rw [hval]
        obtain ⟨τ, hlen, hτ, hreach, haction⟩ := reaches_of_values hC children hvs hwalk ha
        refine .of_reaches hreach ⟨_, .refl, (step_reduce haction).trans ?_⟩
        cases hv : A.act r vs with
        | error e => exact reduce_throws h hlen (hτ ▸ hv)
        | ok v =>
          rw [reduce_value h hlen (hτ ▸ hv), if_pos hstart.symm]
          rfl

end

/-! ## Sound tables -/

section
variable {access : S → Option (Symbol T N)} {edge : S → S → Prop}

/-- From a state, whatever was under it, the symbols `β` lead down to a state that goes on with the
nonterminal `B`. -/
def Back (G : NamedGrammar X T N R) (M : Tables T N R S) (access : S → Option (Symbol T N))
    (edge : S → S → Prop) (B : N) : S → List (Symbol T N) → Prop
  | s, [] =>
    (B = G.start → s = M.initial) ∧
      (B ≠ G.start → access (M.goto s B) = some (.nonterminal B) ∧ edge s (M.goto s B))
  | s, Y :: β => access s = some Y ∧ ∀ p, edge p s → Back G M access edge B p β

/-- The tables do nothing else: `access s` is the symbol with which a state is entered, and
`edge p s` holds for the states `p` that it is entered from. -/
structure Sound (G : NamedGrammar X T N R) (M : Tables T N R S) (access : S → Option (Symbol T N))
    (edge : S → S → Prop) : Prop where
  initial : access M.initial = none
  shift : ∀ s t s', M.action s (some t) = .shift s' → access s' = some (.terminal t) ∧ edge s s'
  reduce : ∀ s a r, M.action s a = .reduce r → ∃ p, G.rule r = some p ∧
    Back G M access edge p.input s p.output.reverse

/-- The stack holds the values of derivations from the symbols of its states, which have the tokens
`w` and `n` nodes. -/
inductive Stacked (G : NamedGrammar X T N R) (A : Attributes X R E V) (M : Tables T N R S)
    (access : S → Option (Symbol T N)) (edge : S → S → Prop) : List (S × V) → List X → ℕ → Prop
  | nil : Stacked G A M access edge [] [] 0
  | push {σ : List (S × V)} {w : List X} {n : ℕ} {s : S} {v : V} {Y : Symbol T N} :
      Stacked G A M access edge σ w n → edge (M.top σ) s → access s = some Y →
        (d : Derivation G [Y]) →
      d.values A = .ok [v] → Stacked G A M access edge ((s, v) :: σ) (w ++ d.yield) (n + d.nodes)

variable {w : List X} {n : ℕ}

omit [DecidableEq N] in
theorem Stacked.pop (hS : Sound G M access edge) (h : Stacked G A M access edge σ w n) {B : N}
    {β : List (Symbol T N)} (hback : Back G M access edge B (M.top σ) β) :
    ∃ τ σ' w' n', ∃ γ, ∃ d : Derivation G γ, γ = β.reverse ∧ σ = τ ++ σ' ∧ τ.length = β.length ∧
      Stacked G A M access edge σ' w' n' ∧ w = w' ++ d.yield ∧ n = n' + d.nodes ∧
      d.values A = .ok (τ.reverse.map Prod.snd) ∧ Back G M access edge B (M.top σ') [] ∧
      τ.map (fun e => access e.1) = β.map some := by
  induction β generalizing σ w n with
  | nil =>
    exact ⟨[], σ, w, n, [], .nil, rfl, rfl, rfl, h, by simp [Derivation.yield], rfl,
      rfl, hback, rfl⟩
  | cons Y β ih =>
    obtain ⟨haccess, hdown⟩ := hback
    cases h with
    | nil => cases (hS.initial.symm.trans haccess)
    | @push σ w n s v Y' hσ hedge hY dY hv =>
      have hYY : Y' = Y := Option.some.inj (hY.symm.trans haccess)
      subst hYY
      obtain ⟨τ, σ', w', n', γ, d, rfl, rfl, hlen, hσ', rfl, rfl, hvs, hback, hτ⟩ :=
        ih hσ (hdown _ hedge)
      refine ⟨(s, v) :: τ, σ', w', n', _, d.append dY, by simp, rfl, by simp [hlen], hσ', by simp,
        by simp [Nat.add_assoc], ?_, hback, by simp [hY, hτ]⟩
      simpa using Derivation.values_append d dY hvs hv

/-- A step keeps the stack the derivations of what was taken, and is one more token or one more
node. -/
theorem Stacked.step (hS : Sound G M access edge) (h : Stacked G A M access edge c.stack w n)
    (hstep : M.step G A c = .ok c') : ∃ w' n', Stacked G A M access edge c'.stack w' n' ∧
      w' ++ c'.input = w ++ c.input ∧ w'.length + n' = w.length + n + 1 := by
  obtain ⟨σ, input⟩ := c
  unfold Tables.step at hstep
  split at hstep
  · next s haction =>
    cases input with
    | nil => cases hstep
    | cons x input =>
      cases hstep
      obtain ⟨haccess, hedge⟩ := hS.shift _ _ _ haction
      exact ⟨_, _, h.push hedge haccess (.leaf x) rfl, by simp, by simp; omega⟩
  · next r haction =>
    obtain ⟨p, hp, hback⟩ := hS.reduce _ _ _ haction
    obtain ⟨τ, σ', w', n', γ, d, hγ, hσ, hlen, hσ', rfl, rfl, hvs, ⟨hstart, hgoto⟩, -⟩ :=
      h.pop hS hback
    rw [List.reverse_reverse] at hγ
    subst hγ
    simp only at hσ
    subst hσ
    rw [List.length_reverse] at hlen
    cases hv : A.act r (τ.reverse.map Prod.snd) with
    | error e => cases (reduce_throws hp hlen hv).symm.trans hstep
    | ok v =>
      rw [reduce_value hp hlen hv] at hstep
      split_ifs at hstep with hne
      cases hstep
      obtain ⟨haccess, hedge⟩ := hgoto hne
      refine ⟨_, _, hσ'.push hedge haccess (.tree r hp d) (Derivation.values_tree d hp hvs hv), ?_,
        ?_⟩
      · simp
      · simp
        omega
  · cases hstep
  · cases hstep

/-- When the machine accepts, it has a derivation of the start symbol. -/
theorem Stacked.accept (hS : Sound G M access edge)
    (h : Stacked G A M access edge c.stack w n) {v : V}
    (hstep : M.step G A c = .error (.accept v)) :
    ∃ d : Derivation G [.nonterminal G.start], d.yield = w ∧ d.value A = .ok v := by
  obtain ⟨σ, input⟩ := c
  unfold Tables.step at hstep
  split at hstep
  · split at hstep
    · cases hstep
    · cases hstep
  · next r haction =>
    obtain ⟨p, hp, hback⟩ := hS.reduce _ _ _ haction
    obtain ⟨τ, σ', w', n', γ, d, hγ, hσ, hlen, hσ', rfl, rfl, hvs, ⟨hstart, -⟩, -⟩ := h.pop hS hback
    rw [List.reverse_reverse] at hγ
    subst hγ
    simp only at hσ
    subst hσ
    rw [List.length_reverse] at hlen
    cases hv : A.act r (τ.reverse.map Prod.snd) with
    | error e => cases (reduce_throws hp hlen hv).symm.trans hstep
    | ok v' =>
      rw [reduce_value hp hlen hv] at hstep
      split_ifs at hstep with heq
      cases hstep
      obtain ⟨B, γ⟩ := p
      cases heq
      have hnil : w' = [] := by
        cases hσ' with
        | nil => rfl
        | push hσ hedge hY d hv =>
          have htop := congrArg access (hstart rfl)
          cases hY.symm.trans (htop.trans hS.initial)
      refine ⟨.tree r hp d, by simp [hnil], ?_⟩
      rw [← Derivation.values_single]
      exact Derivation.values_tree d hp hvs hv
  · cases hstep
  · cases hstep

/-- An exception is that of a rule, over a derivation of the last tokens taken from its right-hand
side. -/
theorem Stacked.throws (hS : Sound G M access edge)
    (h : Stacked G A M access edge c.stack w n) {e : E}
    (hstep : M.step G A c = .error (.throws e)) : ∃ r p, G.rule r = some p ∧
      ∃ d : Derivation G p.output, d.yield <:+ w ∧ ∃ vs, d.values A = .ok vs ∧
      A.act r vs = .error e := by
  obtain ⟨σ, input⟩ := c
  unfold Tables.step at hstep
  split at hstep
  · split at hstep
    · cases hstep
    · cases hstep
  · next r haction =>
    obtain ⟨p, hp, hback⟩ := hS.reduce _ _ _ haction
    obtain ⟨τ, σ', w', n', γ, d, hγ, hσ, hlen, hσ', rfl, rfl, hvs, -, -⟩ := h.pop hS hback
    rw [List.reverse_reverse] at hγ
    subst hγ
    simp only at hσ
    subst hσ
    rw [List.length_reverse] at hlen
    refine ⟨r, p, hp, d, List.suffix_append _ _, _, hvs, ?_⟩
    cases hv : A.act r (τ.reverse.map Prod.snd) with
    | error e' =>
      cases (reduce_throws hp hlen hv).symm.trans hstep
      rfl
    | ok v =>
      rw [reduce_value hp hlen hv] at hstep
      split_ifs at hstep
      cases hstep
  · cases hstep
  · cases hstep

/-- The stack of every configuration of a parse. -/
theorem stacked_of_reaches (hS : Sound G M access edge) (h : M.Reaches G A (start input) c) :
    ∃ w n, Stacked G A M access edge c.stack w n ∧ w ++ c.input = input := by
  induction h with
  | refl => exact ⟨[], 0, .nil, rfl⟩
  | tail _ hstep ih =>
    obtain ⟨w, n, hstack, hw⟩ := ih
    obtain ⟨w', n', hstack', hw', -⟩ := hstack.step hS hstep
    exact ⟨w', n', hstack', hw'.trans hw⟩

/-- A parse that accepts has found a derivation of the first tokens of its input, and has its
value. -/
theorem derivation_of_ends (hS : Sound G M access edge) {v : V}
    (h : M.Ends G A (start input) (.accept v)) :
    ∃ d : Derivation G [.nonterminal G.start], d.yield <+: input ∧ d.value A = .ok v := by
  obtain ⟨c, hreach, hend⟩ := h
  obtain ⟨w, n, hstack, rfl⟩ := stacked_of_reaches hS hreach
  obtain ⟨d, rfl, hv⟩ := hstack.accept hS hend
  exact ⟨d, List.prefix_append _ _, hv⟩

/-! ## Bounds -/

/-- The states on a stack have rising ranks of at most `height`, and the rules cost what
`Derivation.nodes_le` asks. -/
structure Bounded (G : NamedGrammar X T N R) (edge : S → S → Prop) (rank : S → ℕ) (weight : N → ℕ)
    (height cost heaviest : ℕ) : Prop where
  rises : ∀ p s, edge p s → rank p < rank s
  rank_le : ∀ s, rank s ≤ height
  pays : ∀ r p, G.rule r = some p →
    Derivation.weightOf weight p.output + 1 ≤ weight p.input + cost * Derivation.terminals p.output
  weight_le : ∀ B, weight B ≤ heaviest

variable {rank : S → ℕ} {weight : N → ℕ} {height cost heaviest : ℕ}

omit [DecidableEq N] in
theorem Stacked.length_le (hB : Bounded G edge rank weight height cost heaviest)
    (h : Stacked G A M access edge σ w n) : σ.length ≤ height := by
  have hrank : σ.length ≤ rank (M.top σ) := by
    induction h with
    | nil => exact Nat.zero_le _
    | push _ hedge _ _ _ ih => exact ih.trans_lt (hB.rises _ _ hedge)
  exact hrank.trans (hB.rank_le _)

omit [DecidableEq N] in
theorem Stacked.nodes_le (hB : Bounded G edge rank weight height cost heaviest)
    (h : Stacked G A M access edge σ w n) : n ≤ cost * w.length + heaviest * σ.length := by
  induction h with
  | nil => exact Nat.zero_le _
  | @push σ w n s v Y _ _ _ d _ ih =>
    have hd := d.nodes_le hB.pays
    have hY : Derivation.weightOf weight [Y] ≤ heaviest := by
      cases Y with
      | terminal t => exact Nat.zero_le _
      | nonterminal B => simpa [Derivation.weightOf] using hB.weight_le B
    simp only [List.length_append, List.length_cons, Nat.mul_add, Nat.mul_one]
    omega

/-- A parse takes a number of steps that is linear in the number of the tokens. -/
theorem run_isSome (hS : Sound G M access edge)
    (hB : Bounded G edge rank weight height cost heaviest) {fuel : ℕ}
    (hfuel : (cost + 1) * input.length + heaviest * height < fuel) :
    (M.run G A fuel (start input)).isSome := by
  have hrun (fuel : ℕ) : ∀ (c : Config S V X) (w : List X) (n : ℕ),
    Stacked G A M access edge c.stack w n →
      w ++ c.input = input → (cost + 1) * input.length + heaviest * height < w.length + n + fuel →
      (M.run G A fuel c).isSome := by
    induction fuel with
    | zero =>
      intro c w n hstack hw hlt
      have hnodes := hstack.nodes_le hB
      have hheight := Nat.mul_le_mul_left heaviest (hstack.length_le hB)
      have hlen : w.length ≤ input.length := by rw [← hw, List.length_append]; omega
      have hcost := Nat.mul_le_mul_left (cost + 1) hlen
      rw [Nat.add_mul, Nat.one_mul] at hcost
      omega
    | succ fuel ih =>
      intro c w n hstack hw hlt
      simp only [run]
      cases hstep : M.step G A c with
      | error o => rfl
      | ok c' =>
        obtain ⟨w', n', hstack', hw', hcount⟩ := hstack.step hS hstep
        exact ih c' w' n' hstack' (hw'.trans hw) (by omega)
  exact hrun fuel _ [] 0 .nil rfl (by simpa using hfuel)

end

end Rmdb.Lr
