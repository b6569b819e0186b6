import Mathlib.Data.List.Basic
import Mathlib.Data.List.Induction
import Mathlib.Data.Nat.Notation
import Mathlib.Logic.Relation

/-!
# Scanners with start conditions

A scanner takes the longest prefix of its input that a rule of the current start condition matches,
the first such rule if there are several, and does what the rule says: it skips the text, enters
another start condition, or returns a token.  A consumer is fed with tokens until it has a result.
The start condition is what is left of one input when the next one comes: inputs are handled alike
whatever came before just when each leaves the condition it began with.
-/

namespace Rmdb

variable {χ τ κ R : Type}

/-- What a rule does with the text that it matches. -/
inductive LexAction (τ κ : Type)
  | skip
  | enter (cond : κ)
  | ret (t : τ)

/-- A rule: the texts that it matches, and its action. -/
structure LexRule (χ τ κ : Type) where
  pattern : List χ → Bool
  action : List χ → LexAction τ κ

/-- The length of the longest prefix, not the empty one, that a pattern matches. -/
def longest (pattern : List χ → Bool) (input : List χ) : Option ℕ :=
  (List.range' 1 input.length).reverse.find? fun k => pattern (input.take k)

/-- The rule with the longest match, the first one of several, and the length of its match. -/
def bestMatch : List (LexRule χ τ κ) → List χ → Option (ℕ × LexRule χ τ κ)
  | [], _ => none
  | rule :: rules, input =>
    match longest rule.pattern input, bestMatch rules input with
    | none, best => best
    | some k, none => some (k, rule)
    | some k, some (k', rule') => if k' ≤ k then some (k, rule) else some (k', rule')

/-- The next token, the start condition after it and the rest of the input, in at most `n`
matches. -/
def nextToken (rules : κ → List (LexRule χ τ κ)) (eof : τ) :
    ℕ → κ → List χ → Option (τ × κ × List χ)
  | 0, _, _ => none
  | _ + 1, cond, [] => some (eof, cond, [])
  | n + 1, cond, c :: input =>
    match bestMatch (rules cond) (c :: input) with
    | none => none
    | some (k, rule) =>
      match rule.action ((c :: input).take k) with
      | .skip => nextToken rules eof n cond ((c :: input).drop k)
      | .enter cond' => nextToken rules eof n cond' ((c :: input).drop k)
      | .ret t => some (t, cond, (c :: input).drop k)

/-- A consumer of tokens: its result for the tokens so far, or none when it asks for another one.
It asks for a first token and for none after the end of the input. -/
structure Consumer (τ R : Type) (eof : τ) where
  result : List τ → Option R
  begins : result [] = none
  ends : ∀ ts, (result (ts ++ [eof])).isSome = true

/-- The tokens that a consumer takes from an input, its result, and the start condition at the
end. -/
def feed {eof : τ} (rules : κ → List (LexRule χ τ κ)) (P : Consumer τ R eof) :
    ℕ → List τ → κ → List χ → Option (List τ × R × κ)
  | 0, _, _, _ => none
  | n + 1, ts, cond, input =>
    match P.result ts with
    | some r => some (ts, r, cond)
    | none => do
      let (t, cond, input) ← nextToken rules eof (input.length + 1) cond input
      feed rules P n (ts ++ [t]) cond input

/-- An input from its first token on. -/
def handle {eof : τ} (rules : κ → List (LexRule χ τ κ)) (P : Consumer τ R eof) (cond : κ)
    (input : List χ) : Option (List τ × R × κ) := feed rules P (input.length + 2) [] cond input

/-- The start condition after several inputs. -/
def condAfter {eof : τ} (rules : κ → List (LexRule χ τ κ)) (P : Consumer τ R eof) (cond : κ)
    (inputs : List (List χ)) :
    κ := inputs.foldl (fun cond input => ((handle rules P cond input).map (·.2.2)).getD cond) cond

/-- The tokens of an input and the result. -/
def outcome {eof : τ} (rules : κ → List (LexRule χ τ κ)) (P : Consumer τ R eof) (cond : κ)
    (input : List χ) : Option (List τ × R) := (handle rules P cond input).map fun x => (x.1, x.2.1)

/-! ## Every input is handled -/

/-- Each character alone is matched by a rule. -/
def Complete (rules : κ → List (LexRule χ τ κ)) : Prop :=
  ∀ cond c, ∃ rule ∈ rules cond, rule.pattern [c] = true

section
variable {rules : κ → List (LexRule χ τ κ)} {eof : τ} {pattern : List χ → Bool}
  {input : List χ} {k n : ℕ}

theorem longest_bounds (h : longest pattern input = some k) : 1 ≤ k ∧ k ≤ input.length := by
  have hmem := List.mem_of_find?_eq_some h
  rw [List.mem_reverse, List.mem_range'_1] at hmem
  omega

theorem longest_spec (h : longest pattern input = some k) : pattern (input.take k) = true := by
  have hfound := List.find?_some h
  exact hfound

theorem longest_of_pattern {c : χ} (h : pattern [c] = true) (input : List χ) :
    (longest pattern (c :: input)).isSome = true := by
  rw [longest, List.find?_isSome]
  refine ⟨1, ?_, by simpa using h⟩
  rw [List.mem_reverse, List.mem_range'_1, List.length_cons]
  omega

theorem bestMatch_bounds {rs : List (LexRule χ τ κ)} {rule : LexRule χ τ κ}
    (h : bestMatch rs input = some (k, rule)) : 1 ≤ k ∧ k ≤ input.length := by
  induction rs generalizing k rule with
  | nil => cases h
  | cons r rs ih =>
    rw [bestMatch] at h
    split at h
    · exact ih h
    · next hlong _ =>
      cases h
      exact longest_bounds hlong
    · next hlong hbest =>
      split at h
      · cases h
        exact longest_bounds hlong
      · cases h
        exact ih hbest

/-- The rule that is chosen matches. -/
theorem bestMatch_spec {rs : List (LexRule χ τ κ)} {rule : LexRule χ τ κ}
    (h : bestMatch rs input = some (k, rule)) : rule ∈ rs ∧ rule.pattern (input.take k) = true := by
  induction rs generalizing k rule with
  | nil => cases h
  | cons r rs ih =>
    have hhead {j : ℕ} (hlong : longest r.pattern input = some j) : r ∈ r :: rs ∧
      r.pattern (input.take j) = true :=
      ⟨List.mem_cons_self, longest_spec hlong⟩
    have htail {j : ℕ} {rule : LexRule χ τ κ} (hbest : bestMatch rs input = some (j, rule)) :
        rule ∈ r :: rs ∧ rule.pattern (input.take j) = true :=
      ⟨List.mem_cons_of_mem _ (ih hbest).1, (ih hbest).2⟩
    rw [bestMatch] at h
    split at h
    · exact htail h
    · next hlong _ =>
      cases h
      exact hhead hlong
    · next hlong hbest =>
      split at h
      · cases h
        exact hhead hlong
      · cases h
        exact htail hbest

/-- A rule that matches, when no rule after it matches more. -/
theorem bestMatch_head {rs : List (LexRule χ τ κ)} {rule : LexRule χ τ κ}
    (hlong : longest rule.pattern input = some k)
    (hrest : ∀ r ∈ rs, ∀ j ≤ input.length, r.pattern (input.take j) = true → j ≤ k) :
    bestMatch (rule :: rs) input = some (k, rule) := by
  rw [bestMatch, hlong]
  cases hbest : bestMatch rs input with
  | none => rfl
  | some best =>
    obtain ⟨hmem, hpat⟩ := bestMatch_spec hbest
    exact if_pos (hrest _ hmem _ (bestMatch_bounds hbest).2 hpat)

/-- A pattern that matches texts of one length only. -/
theorem longest_of_length (hlen : ∀ t, pattern t = true → t.length = k) (hk : 1 ≤ k)
    (hpat : pattern (input.take k) = true) : longest pattern input = some k := by
  have hle : k ≤ input.length := by
    have := hlen _ hpat
    rw [List.length_take] at this
    omega
  have hsome : (longest pattern input).isSome = true := by
    rw [longest, List.find?_isSome]
    refine ⟨k, ?_, hpat⟩
    rw [List.mem_reverse, List.mem_range'_1]
    omega
  obtain ⟨j, hj⟩ := Option.isSome_iff_exists.1 hsome
  have hbounds := longest_bounds hj
  have hlenj := hlen _ (longest_spec hj)
  rw [List.length_take] at hlenj
  rw [hj]
  congr 1
  omega

theorem bestMatch_isSome {rs : List (LexRule χ τ κ)} {c : χ}
    (h : ∃ rule ∈ rs, rule.pattern [c] = true)
    (input : List χ) : (bestMatch rs (c :: input)).isSome = true := by
  induction rs with
  | nil =>
    obtain ⟨rule, hrule, -⟩ := h
    cases hrule
  | cons r rs ih =>
    rw [bestMatch]
    split
    · next hlong =>
      refine ih ?_
      obtain ⟨rule, hrule, hpat⟩ := h
      rcases List.mem_cons.1 hrule with rfl | hrule
      · have hsome := longest_of_pattern hpat input
        rw [hlong] at hsome
        cases hsome
      · exact ⟨rule, hrule, hpat⟩
    · rfl
    · split <;> rfl

/-- The scanner finds a token, or the end. -/
theorem nextToken_total (eof : τ) (hc : Complete rules) (cond : κ) (input : List χ)
    (hn : input.length < n) :
    ∃ t cond' rest, nextToken rules eof n cond input = some (t, cond', rest) ∧
      (t = eof ∨ rest.length < input.length) := by
  induction n generalizing cond input with
  | zero => omega
  | succ n ih =>
    cases input with
    | nil => exact ⟨eof, cond, [], rfl, .inl rfl⟩
    | cons c input =>
      obtain ⟨⟨k, rule⟩, hbest⟩ := Option.isSome_iff_exists.1 (bestMatch_isSome (hc cond c) input)
      have hk := bestMatch_bounds hbest
      have hlen : ((c :: input).drop k).length < (c :: input).length := by
        rw [List.length_drop]
        omega
      have hstep (cond' : κ) : ∃ t cond'' rest, nextToken rules eof n cond' ((c :: input).drop k) =
          some (t, cond'', rest) ∧ (t = eof ∨ rest.length < (c :: input).length) := by
        obtain ⟨t, cond'', rest, hnext, hor⟩ := ih cond' ((c :: input).drop k) (by omega)
        exact ⟨t, cond'', rest, hnext, hor.imp_right fun hlt => Nat.lt_trans hlt hlen⟩
      rw [nextToken, hbest]
      simp only
      cases rule.action ((c :: input).take k) with
      | skip => exact hstep cond
      | enter cond' => exact hstep cond'
      | ret t => exact ⟨t, cond, _, rfl, .inr hlen⟩

theorem feed_total (hc : Complete rules) (P : Consumer τ R eof) (ts : List τ) (cond : κ)
    (hn : input.length + 1 < n ∨ (P.result ts).isSome = true ∧ 0 < n) :
    (feed rules P n ts cond input).isSome = true := by
  induction n generalizing ts cond input with
  | zero => omega
  | succ n ih =>
    rw [feed]
    cases hr : P.result ts with
    | some r => rfl
    | none =>
      obtain ⟨t, cond', rest, hnext, hor⟩ := nextToken_total eof hc cond input (Nat.lt_succ_self _)
      have hlen : input.length + 1 < n + 1 := by
        rcases hn with hn | ⟨hsome, _⟩
        · exact hn
        · rw [hr] at hsome
          cases hsome
      simp only [hnext, Option.bind_eq_bind, Option.bind_some]
      rcases hor with rfl | hlt
      · exact ih _ _ (.inr ⟨P.ends ts, by omega⟩)
      · exact ih _ _ (.inl (by omega))

/-- Every input is handled, in every start condition. -/
theorem handle_isSome (hc : Complete rules) (P : Consumer τ R eof) (cond : κ) (input : List χ) :
    (handle rules P cond input).isSome = true :=
  feed_total hc P [] cond (.inl (by omega))

end

/-! ## Match by match -/

/-- A point of the scan of an input: the tokens so far, the start condition and the rest of the
input. -/
structure Point (χ τ κ : Type) where
  tokens : List τ
  cond : κ
  input : List χ

/-- The point after a match of `k` characters. -/
def Point.advance (x : Point χ τ κ) (k : ℕ) : LexAction τ κ → Point χ τ κ
  | .skip => ⟨x.tokens, x.cond, x.input.drop k⟩
  | .enter cond => ⟨x.tokens, cond, x.input.drop k⟩
  | .ret t => ⟨x.tokens ++ [t], x.cond, x.input.drop k⟩

/-- One match, or the end of the input, while the consumer asks for a token. -/
def matchStep {eof : τ} (rules : κ → List (LexRule χ τ κ)) (P : Consumer τ R eof)
    (x : Point χ τ κ) : Option (Point χ τ κ) :=
  match P.result x.tokens, x.input with
  | some _, _ => none
  | none, [] => some ⟨x.tokens ++ [eof], x.cond, []⟩
  | none, input =>
    (bestMatch (rules x.cond) input).map fun best =>
      x.advance best.1 (best.2.action (input.take best.1))

/-- The scan comes from one point to another. -/
def Comes {eof : τ} (rules : κ → List (LexRule χ τ κ)) (P : Consumer τ R eof) :
    Point χ τ κ → Point χ τ κ → Prop :=
  Relation.ReflTransGen fun x y => matchStep rules P x = some y

section
variable {rules : κ → List (LexRule χ τ κ)} {eof : τ} {P : Consumer τ R eof} {x y z : Point χ τ κ}

theorem matchStep_eof (hasks : P.result x.tokens = none) (hnil : x.input = []) :
    matchStep rules P x = some ⟨x.tokens ++ [eof], x.cond, []⟩ := by
  simp only [matchStep, hasks, hnil]

theorem matchStep_match {k : ℕ} {rule : LexRule χ τ κ} (hasks : P.result x.tokens = none)
    (hbest : bestMatch (rules x.cond) x.input = some (k, rule)) :
    matchStep rules P x = some (x.advance k (rule.action (x.input.take k))) := by
  have hk := bestMatch_bounds hbest
  have hne : x.input ≠ [] := List.ne_nil_of_length_pos (by omega)
  rw [matchStep, hasks]
  split
  · next h => cases h
  · next hnil => exact absurd hnil hne
  · rw [hbest]
    rfl

/-- What one match can do. -/
theorem matchStep_cases (h : matchStep rules P x = some y) : P.result x.tokens = none ∧
    (x.input = [] ∧ y = ⟨x.tokens ++ [eof], x.cond, []⟩ ∨
      ∃ k rule, bestMatch (rules x.cond) x.input = some (k, rule) ∧
        y = x.advance k (rule.action (x.input.take k))) := by
  rw [matchStep] at h
  split at h
  · cases h
  · next hasks hnil => exact ⟨hasks, .inl ⟨hnil, (Option.some.inj h).symm⟩⟩
  · next hasks _ =>
    obtain ⟨⟨k, rule⟩, hbest, heq⟩ := Option.map_eq_some_iff.1 h
    exact ⟨hasks, .inr ⟨k, rule, hbest, heq.symm⟩⟩

theorem nextToken_comes {n : ℕ} {ts : List τ} {cond cond' : κ} {input rest : List χ} {t : τ}
    (hasks : P.result ts = none) (h : nextToken rules eof n cond input = some (t, cond', rest)) :
    Comes rules P ⟨ts, cond, input⟩ ⟨ts ++ [t], cond', rest⟩ := by
  induction n generalizing cond input with
  | zero => cases h
  | succ n ih =>
    cases input with
    | nil =>
      cases h
      exact .single (matchStep_eof hasks rfl)
    | cons c input =>
      rw [nextToken] at h
      cases hbest : bestMatch (rules cond) (c :: input) with
      | none =>
        rw [hbest] at h
        cases h
      | some best =>
        obtain ⟨k, rule⟩ := best
        have hstep := matchStep_match (x := ⟨ts, cond, c :: input⟩) hasks hbest
        simp only [hbest] at h
        cases haction : rule.action ((c :: input).take k) with
        | skip =>
          simp only [haction] at h hstep
          exact .head hstep (ih h)
        | enter cond₁ =>
          simp only [haction] at h hstep
          exact .head hstep (ih h)
        | ret t₁ =>
          simp only [haction] at h hstep
          cases h
          exact .single hstep

theorem feed_comes {n : ℕ} {ts ts' : List τ} {cond cond' : κ} {input : List χ} {r : R}
    (h : feed rules P n ts cond input = some (ts', r, cond')) :
    ∃ rest, Comes rules P ⟨ts, cond, input⟩ ⟨ts', cond', rest⟩ ∧ P.result ts' = some r := by
  induction n generalizing ts cond input with
  | zero => cases h
  | succ n ih =>
    rw [feed] at h
    cases hr : P.result ts with
    | some r₁ =>
      simp only [hr] at h
      cases h
      exact ⟨input, .refl, hr⟩
    | none =>
      simp only [hr, Option.bind_eq_bind, Option.bind_eq_some_iff] at h
      obtain ⟨⟨t, cond₁, input₁⟩, hnext, hfeed⟩ := h
      obtain ⟨rest, hcomes, hres⟩ := ih hfeed
      exact ⟨rest, (nextToken_comes hr hnext).trans hcomes, hres⟩

theorem feed_starts {n : ℕ} {ts ts' : List τ} {cond cond' : κ} {input : List χ} {r : R}
    (h : feed rules P n ts cond input = some (ts', r, cond')) : ts <+: ts' := by
  induction n generalizing ts cond input with
  | zero => cases h
  | succ n ih =>
    rw [feed] at h
    cases hr : P.result ts with
    | some r₁ =>
      simp only [hr] at h
      cases h
      exact List.prefix_refl _
    | none =>
      simp only [hr, Option.bind_eq_bind, Option.bind_eq_some_iff] at h
      obtain ⟨⟨t, cond₁, input₁⟩, -, hfeed⟩ := h
      exact (List.prefix_append _ _).trans (ih hfeed)

/-- The consumer asks for a token after each of the token sequences that it has on the way. -/
theorem feed_asks {n : ℕ} {ts ts' pre : List τ} {cond cond' : κ} {input : List χ} {r : R}
    (h : feed rules P n ts cond input = some (ts', r, cond')) (hts : ts <+: pre)
    (hpre : pre <+: ts') (hne : pre ≠ ts') : P.result pre = none := by
  induction n generalizing ts cond input with
  | zero => cases h
  | succ n ih =>
    rw [feed] at h
    cases hr : P.result ts with
    | some r₁ =>
      simp only [hr] at h
      cases h
      exact absurd (hpre.eq_of_length_le hts.length_le) hne
    | none =>
      simp only [hr, Option.bind_eq_bind, Option.bind_eq_some_iff] at h
      obtain ⟨⟨t, cond₁, input₁⟩, -, hfeed⟩ := h
      by_cases heq : pre = ts
      · rw [heq, hr]
      · have hlt : ts.length < pre.length := by
          exact Nat.lt_of_le_of_ne hts.length_le fun hlen => heq (hts.eq_of_length hlen).symm
        refine ih hfeed (List.prefix_of_prefix_length_le (feed_starts hfeed) hpre ?_)
        rw [List.length_append, List.length_singleton]
        exact hlt

theorem outcome_isSome (hc : Complete rules) (P : Consumer τ R eof) (cond : κ) (input : List χ) :
    ∃ ts r, outcome rules P cond input = some (ts, r) := by
  obtain ⟨⟨ts, r, cond'⟩, hhandle⟩ := Option.isSome_iff_exists.1 (handle_isSome hc P cond input)
  exact ⟨ts, r, by rw [outcome, hhandle]; rfl⟩

/-- The first token of an input is the first one that the consumer takes. -/
theorem outcome_head {cond cond' : κ} {input rest : List χ} {t : τ} {ts : List τ} {r : R}
    (hnext : nextToken rules eof (input.length + 1) cond input = some (t, cond', rest))
    (h : outcome rules P cond input = some (ts, r)) : ts.head? = some t := by
  rw [outcome, handle, feed, P.begins, Option.map_eq_some_iff] at h
  simp only [hnext, Option.bind_eq_bind, Option.bind_some] at h
  obtain ⟨⟨ts', r', cond''⟩, hfeed, heq⟩ := h
  obtain ⟨more, rfl⟩ := feed_starts hfeed
  cases heq
  rfl

/-- Where the consumer has its result, the scan stops: each point that it comes to is on the way
there. -/
theorem Comes.before_end {r : R} (hy : Comes rules P x y) (hz : Comes rules P x z)
    (hend : P.result z.tokens = some r) : Comes rules P y z := by
  have hunique : Relator.RightUnique fun x y : Point χ τ κ => matchStep rules P x = some y :=
    fun a b c hb hc => Option.some.inj (hb.symm.trans hc)
  rcases Relation.ReflTransGen.total_of_right_unique hunique hy hz with h | h
  · exact h
  · rcases Relation.ReflTransGen.cases_head h with rfl | ⟨w, hstep, -⟩
    · exact .refl
    · rw [(matchStep_cases hstep).1] at hend
      cases hend

/-- The start condition after an input is the one at the point where the consumer has its result. -/
theorem condAfter_of_comes (hc : Complete rules) (cond : κ) (input : List χ) :
    ∃ ts rest r, Comes rules P ⟨[], cond, input⟩ ⟨ts, condAfter rules P cond [input], rest⟩ ∧
    P.result ts = some r := by
  obtain ⟨⟨ts, r, cond'⟩, hhandle⟩ := Option.isSome_iff_exists.1 (handle_isSome hc P cond input)
  obtain ⟨rest, hcomes, hres⟩ := feed_comes hhandle
  refine ⟨ts, rest, r, ?_, hres⟩
  have hafter : condAfter rules P cond [input] = cond' := by
    simp only [condAfter, List.foldl_cons, List.foldl_nil, hhandle, Option.map_some,
      Option.getD_some]
  rw [hafter]
  exact hcomes

end

/-! ## One input after the other -/

section
variable {rules : κ → List (LexRule χ τ κ)} {eof : τ} {P : Consumer τ R eof} {cond : κ}
  {inputs : List (List χ)}

theorem condAfter_append (hist : List (List χ)) (input : List χ) :
    condAfter rules P cond (hist ++ [input]) =
      ((handle rules P (condAfter rules P cond hist) input).map (·.2.2)).getD
      (condAfter rules P cond hist) := by
  rw [condAfter, List.foldl_append]
  rfl

/-- The start condition is the same at each point just when each input leaves it. -/
theorem condAfter_prefix_iff : (∀ hist, hist <+: inputs → condAfter rules P cond hist = cond) ↔
    ∀ input ∈ inputs, condAfter rules P cond [input] = cond := by
  constructor
  · intro h input hinput
    obtain ⟨before, after, rfl⟩ := List.append_of_mem hinput
    have hbefore := h before (List.prefix_append _ _)
    have hthen := h (before ++ [input]) ⟨after, by simp⟩
    rw [condAfter_append, hbefore] at hthen
    exact hthen
  · intro h hist hpre
    induction hist using List.reverseRecOn with
    | nil => rfl
    | append_singleton hist input ih =>
      have hhist := ih ((List.prefix_append hist [input]).trans hpre)
      have hinput := h input (hpre.subset (by simp))
      rw [condAfter_append, hhist]
      exact hinput

/-- Inputs are handled alike at each point just when each leaves the start condition, provided that
another start condition can be told from it. -/
theorem outcome_alike_iff
    (htell : ∀ cond', cond' ≠ cond →
      ∃ input, outcome rules P cond' input ≠ outcome rules P cond input) :
    (∀ hist, hist <+: inputs → ∀ input,
      outcome rules P (condAfter rules P cond hist) input = outcome rules P cond input) ↔
      ∀ input ∈ inputs, condAfter rules P cond [input] = cond := by
  rw [← condAfter_prefix_iff]
  refine forall_congr' fun hist => forall_congr' fun _ => ?_
  constructor
  · intro h
    by_contra hne
    obtain ⟨input, hinput⟩ := htell _ hne
    exact hinput (h input)
  · intro h input
    rw [h]

end

end Rmdb
