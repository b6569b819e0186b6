import Mathlib.Computability.ContextFreeGrammar

/-!
# Derivations and their values

The derivations of a context-free grammar whose rules have names, over tokens that are of the kinds
the grammar speaks of and have a text or a number besides.  A derivation has a value when the tokens
have one and each rule computes its value from those of its children, from the left to the right and
the children first, or fails.
-/

namespace Rmdb

/-- A grammar with names for its rules, over tokens `X` of the kinds `T`. -/
structure NamedGrammar (X T N R : Type*) where
  kind : X → T
  rule : R → Option (ContextFreeRule T N)
  start : N

/-- The values of the tokens and what the rules compute. -/
structure Attributes (X R E V : Type*) where
  token : X → V
  act : R → List V → Except E V

variable {X T N R E V : Type*} {G : NamedGrammar X T N R}

/-- The derivations from a sequence of symbols: the trees of the symbols side by side. -/
inductive Derivation (G : NamedGrammar X T N R) : List (Symbol T N) → Type _
  | nil : Derivation G []
  | token (x : X) {β : List (Symbol T N)} (rest : Derivation G β) :
      Derivation G (.terminal (G.kind x) :: β)
  | node (r : R) {A : N} {γ : List (Symbol T N)} (h : G.rule r = some ⟨A, γ⟩)
      (children : Derivation G γ)
      {β : List (Symbol T N)} (rest : Derivation G β) : Derivation G (.nonterminal A :: β)

namespace Derivation

variable {β γ : List (Symbol T N)}

/-- The tokens at the leaves. -/
def yield {β : List (Symbol T N)} : Derivation G β → List X
  | nil => []
  | token x rest => x :: rest.yield
  | node _ _ children rest => children.yield ++ rest.yield

/-- The number of rules that are applied. -/
def nodes {β : List (Symbol T N)} : Derivation G β → ℕ
  | nil => 0
  | token _ rest => rest.nodes
  | node _ _ children rest => children.nodes + 1 + rest.nodes

/-- The values of the symbols. -/
def values (A : Attributes X R E V) {β : List (Symbol T N)} : Derivation G β → Except E (List V)
  | nil => .ok []
  | token x rest => do return A.token x :: (← rest.values A)
  | node r _ children rest => do
    let v ← A.act r (← children.values A)
    return v :: (← rest.values A)

/-- The value of a single nonterminal. -/
def value (A : Attributes X R E V) {B : N} : Derivation G [.nonterminal B] → Except E V
  | node r _ children _ => do A.act r (← children.values A)

def append {β γ : List (Symbol T N)} : Derivation G β → Derivation G γ → Derivation G (β ++ γ)
  | nil, e => e
  | token x rest, e => token x (rest.append e)
  | node r h children rest, e => node r h children (rest.append e)

/-- The derivation of one token. -/
def leaf (x : X) : Derivation G [.terminal (G.kind x)] := token x nil

/-- The derivation of one nonterminal. -/
def tree (r : R) {A : N} {γ : List (Symbol T N)} (h : G.rule r = some ⟨A, γ⟩)
    (children : Derivation G γ) : Derivation G [.nonterminal A] := node r h children nil

variable {A : Attributes X R E V} (d : Derivation G β) (e : Derivation G γ)

@[simp] theorem yield_leaf (x : X) : (leaf x : Derivation G _).yield = [x] := rfl

@[simp] theorem nodes_leaf (x : X) : (leaf x : Derivation G _).nodes = 0 := rfl

@[simp] theorem values_leaf (x : X) : (leaf x : Derivation G _).values A = .ok [A.token x] := rfl

@[simp] theorem yield_tree {r : R} {B : N} (h : G.rule r = some ⟨B, γ⟩) :
    (tree r h e).yield = e.yield :=
  List.append_nil _

@[simp] theorem nodes_tree {r : R} {B : N} (h : G.rule r = some ⟨B, γ⟩) :
    (tree r h e).nodes = e.nodes + 1 := rfl

theorem values_tree {r : R} {B : N} {vs : List V} {v : V} (h : G.rule r = some ⟨B, γ⟩)
    (hvs : e.values A = .ok vs) (hv : A.act r vs = .ok v) : (tree r h e).values A = .ok [v] := by
  simp only [tree, values, hvs, hv, bind, Except.bind, pure, Except.pure]

@[simp] theorem yield_append : (d.append e).yield = d.yield ++ e.yield := by
  induction d with
  | nil => rfl
  | token x rest ih => exact congrArg (x :: ·) ih
  | node r h children rest _ ih => rw [append, yield, ih, yield, List.append_assoc]

@[simp] theorem nodes_append : (d.append e).nodes = d.nodes + e.nodes := by
  induction d with
  | nil => exact (Nat.zero_add _).symm
  | token x rest ih => exact ih
  | node r h children rest _ ih =>
    simp only [append, nodes, ih]
    omega

theorem values_token {x : X} {vs : List V} :
    (token x d).values A = .ok vs ↔ ∃ ws, d.values A = .ok ws ∧ vs = A.token x :: ws := by
  cases h : d.values A with
  | error e => simp [values, h, bind, Except.bind]
  | ok ws => simp [values, h, bind, Except.bind, pure, Except.pure, eq_comm]

theorem values_node {r : R} {B : N} {vs : List V} {h : G.rule r = some ⟨B, γ⟩} :
    (node r h e d).values A = .ok vs ↔
      ∃ us v ws, e.values A = .ok us ∧ A.act r us = .ok v ∧ d.values A = .ok ws ∧ vs = v :: ws := by
  cases he : e.values A with
  | error x => simp [values, he, bind, Except.bind]
  | ok us =>
    cases hv : A.act r us with
    | error x => simp [values, he, hv, bind, Except.bind]
    | ok v =>
      cases hd : d.values A with
      | error x => simp [values, he, hv, hd, bind, Except.bind]
      | ok ws => simp [values, he, hv, hd, bind, Except.bind, pure, Except.pure, eq_comm]

theorem values_append {vs ws : List V} (hd : d.values A = .ok vs) (he : e.values A = .ok ws) :
    (d.append e).values A = .ok (vs ++ ws) := by
  induction d generalizing vs with
  | nil =>
    cases hd
    exact he
  | token x rest ih =>
    obtain ⟨us, hus, rfl⟩ := (values_token rest).1 hd
    exact (values_token _).2 ⟨us ++ ws, ih hus, rfl⟩
  | node r h children rest _ ih =>
    obtain ⟨us, v, ts, hus, hv, hts, rfl⟩ := (values_node rest children).1 hd
    exact (values_node _ _).2 ⟨us, v, ts ++ ws, hus, hv, ih hts, rfl⟩

theorem values_error {r : R} {B : N} {x : E} {h : G.rule r = some ⟨B, γ⟩}
    (hx : (node r h e d).values A = .error x) :
    e.values A = .error x ∨ ∃ us, e.values A = .ok us ∧
      (A.act r us = .error x ∨ ∃ v, A.act r us = .ok v ∧ d.values A = .error x) := by
  cases he : e.values A with
  | error y =>
    simp only [values, he, bind, Except.bind, reduceCtorEq, false_and, exists_false,
      or_false] at hx ⊢
    exact hx
  | ok us =>
    refine .inr ⟨us, rfl, ?_⟩
    cases hv : A.act r us with
    | error y =>
      simp only [values, he, hv, bind, Except.bind, Except.error.injEq] at hx
      exact .inl (congrArg _ hx)
    | ok v =>
      refine .inr ⟨v, rfl, ?_⟩
      cases hd : d.values A with
      | error y =>
        simp only [values, he, hv, hd, bind, Except.bind] at hx
        exact hx
      | ok ws => simp [values, he, hv, hd, bind, Except.bind, pure, Except.pure] at hx

theorem values_single {B : N} (d : Derivation G [.nonterminal B]) (v : V) :
    d.values A = .ok [v] ↔ d.value A = .ok v := by
  cases d with
  | node r h children rest =>
    cases rest with
    | nil =>
      rw [values_node]
      cases hus : children.values A with
      | error x => simp [value, hus, bind, Except.bind]
      | ok us => simp [value, hus, values, bind, Except.bind]

/-! ## Sizes -/

/-- The number of terminals. -/
def terminals : List (Symbol T N) → ℕ
  | [] => 0
  | .terminal _ :: β => terminals β + 1
  | .nonterminal _ :: β => terminals β

/-- The weights of the nonterminals. -/
def weightOf (w : N → ℕ) : List (Symbol T N) → ℕ
  | [] => 0
  | .terminal _ :: β => weightOf w β
  | .nonterminal A :: β => w A + weightOf w β

/-- When each rule, over its nonterminals, costs at most the weight of its own and `k` for each of
its terminals, a derivation has not more nodes than `k` for each of its tokens, and the weights. -/
theorem nodes_le {w : N → ℕ} {k : ℕ}
    (hw : ∀ r p, G.rule r = some p → weightOf w p.output + 1 ≤ w p.input + k * terminals p.output) :
    d.nodes + k * terminals β ≤ k * d.yield.length + weightOf w β := by
  induction d with
  | nil => simp [nodes, terminals, yield, weightOf]
  | token x rest ih =>
    simp only [nodes, terminals, yield, weightOf, List.length_cons, Nat.mul_add] at ih ⊢
    omega
  | node r h children rest ihc ih =>
    have hr := hw r _ h
    simp only [nodes, terminals, yield, weightOf, List.length_append, Nat.mul_add] at ihc ih hr ⊢
    omega

end Derivation

end Rmdb
