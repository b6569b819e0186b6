import Mathlib.Logic.Basic
import Mathlib.Data.List.Basic

/-!
# Runs of a labelled transition system

A system is a step relation `step : S → A → S → Prop`.  `Run step s as s'` says that `s'` is reached
from `s` by steps labelled `as`.  The rules below turn a fact about one step into a fact about every
run: `Run.invariant` for properties of the state, `Run.mono` to change the step relation.
-/

namespace Rmdb

variable {S A : Type*}

/-- The runs of a step relation, with the labels of their steps. -/
inductive Run (step : S → A → S → Prop) : S → List A → S → Prop
  | nil (s : S) : Run step s [] s
  | cons {s s' s'' : S} {a : A} {as : List A} :
      step s a s' → Run step s' as s'' → Run step s (a :: as) s''

/-- The step relation `step` with its steps cut down to those that meet `C`. -/
def Meeting (C : S → A → Prop) (step : S → A → S → Prop) : S → A → S → Prop :=
  fun s a s' => C s a ∧ step s a s'

namespace Run

variable {step step' : S → A → S → Prop} {s s' s'' : S} {as bs : List A}

theorem single {a : A} (h : step s a s') : Run step s [a] s' :=
  .cons h (.nil s')

theorem append (h : Run step s as s') (h' : Run step s' bs s'') : Run step s (as ++ bs) s'' := by
  induction h with
  | nil _ => exact h'
  | cons ha _ ih => exact .cons ha (ih h')

theorem snoc {a : A} (h : Run step s as s') (ha : step s' a s'') : Run step s (as ++ [a]) s'' :=
  h.append (single ha)

theorem mono (h : ∀ s a s', step s a s' → step' s a s') (hr : Run step s as s') :
    Run step' s as s' := by
  induction hr with
  | nil s => exact .nil s
  | cons ha _ ih => exact .cons (h _ _ _ ha) ih

/-- A property that every step keeps holds at the end of every run that starts with it. -/
theorem invariant {P : S → Prop} (h : ∀ s a s', step s a s' → P s → P s')
    (hr : Run step s as s') (hs : P s) : P s' := by
  induction hr with
  | nil _ => exact hs
  | cons ha _ ih => exact ih (h _ _ _ ha hs)

/-- A property that the steps with labels in `Q` keep holds at the end of every run over such
labels. -/
theorem invariant_of_labels {P : S → Prop} {Q : A → Prop}
    (h : ∀ s a s', step s a s' → Q a → P s → P s')
    (hr : Run step s as s') (hq : ∀ a ∈ as, Q a) (hs : P s) : P s' := by
  induction hr with
  | nil _ => exact hs
  | cons ha _ ih =>
    refine ih (fun b hb => hq b (List.mem_cons_of_mem _ hb)) ?_
    exact h _ _ _ ha (hq _ List.mem_cons_self) hs

theorem of_append (h : Run step s (as ++ bs) s'') :
    ∃ s', Run step s as s' ∧ Run step s' bs s'' := by
  induction as generalizing s with
  | nil => exact ⟨s, .nil s, h⟩
  | cons a as ih =>
    cases h with
    | cons ha hr =>
      obtain ⟨s', has, hbs⟩ := ih hr
      exact ⟨s', .cons ha has, hbs⟩

/-- A run whose labels meet the condition in every state. -/
theorem meeting {C : S → A → Prop} (hr : Run step s as s') (hC : ∀ a ∈ as, ∀ s, C s a) :
    Run (Meeting C step) s as s' := by
  induction hr with
  | nil s => exact .nil s
  | cons ha _ ih =>
    exact .cons ⟨hC _ List.mem_cons_self _, ha⟩ (ih fun b hb => hC b (List.mem_cons_of_mem _ hb))

/-- Playing a step function. -/
theorem of_foldlM {next : S → A → Option S} (h : as.foldlM next s = some s') :
    Run (fun s a s' => next s a = some s') s as s' := by
  induction as generalizing s with
  | nil =>
    cases h
    exact .nil _
  | cons a as ih =>
    rw [List.foldlM_cons] at h
    obtain ⟨s₁, h₁, h₂⟩ := Option.bind_eq_some_iff.1 h
    exact .cons h₁ (ih h₂)

/-- A run to a state that passes a test. -/
theorem exists_of_any (next : S → A → Option S) (s : S) (as : List A) (p : S → Bool)
    (h : (as.foldlM next s).any p = true) :
    ∃ s', Run (fun s a s' => next s a = some s') s as s' ∧ p s' = true := by
  obtain ⟨s', hs, hp⟩ := (Option.any_eq_true p _).1 h
  exact ⟨s', of_foldlM hs, hp⟩

/-- A run whose steps meet a condition, to a state that passes a test. -/
theorem exists_meeting (next : S → A → Option S) (C : S → A → Prop) [∀ s a, Decidable (C s a)]
    (s : S) (as : List A) (p : S → Bool)
    (h : (as.foldlM (fun s a => if C s a then next s a else none) s).any p = true) :
    ∃ s', Run (Meeting C fun s a s' => next s a = some s') s as s' ∧ p s' = true := by
  obtain ⟨s', hrun, hp⟩ := exists_of_any _ s as p h
  refine ⟨s', hrun.mono fun s a s' hstep => ?_, hp⟩
  split at hstep
  · rename_i hC
    exact ⟨hC, hstep⟩
  · cases hstep

/-- `L` holds of every state and label that playing the labels goes through. -/
def Along (L : S → A → Prop) (next : S → A → S) : S → List A → Prop
  | _, [] => True
  | s, a :: as => L s a ∧ Along L next (next s a) as

instance decidableAlong {L : S → A → Prop} [∀ s a, Decidable (L s a)] (next : S → A → S) :
    ∀ s as, Decidable (Along L next s as)
  | _, [] => isTrue trivial
  | s, a :: as => @instDecidableAnd _ _ _ (decidableAlong next (next s a) as)

/-- Playing a step function with a condition on its use. -/
theorem of_along {L : S → A → Prop} {next : S → A → S} (h : Along L next s as) :
    Run (fun s a s' => L s a ∧ s' = next s a) s as (as.foldl next s) := by
  induction as generalizing s with
  | nil => exact .nil s
  | cons a as ih => exact .cons ⟨h.1, rfl⟩ (ih h.2)

/-- When the steps that keep `P` are those that meet `C`, the runs that meet `C` are those in which
`P` holds all the time. -/
theorem meeting_iff {C : S → A → Prop} {I P : S → Prop}
    (hdet : ∀ s a s₁ s₂, step s a s₁ → step s a s₂ → s₁ = s₂)
    (hI : ∀ s a s', step s a s' → I s → I s')
    (hP : ∀ s a s', step s a s' → I s → P s → (P s' ↔ C s a)) (hs : I s) (hPs : P s)
    (hr : Run step s as s') :
    (∀ as₁ as₂ s₁, as = as₁ ++ as₂ → Run step s as₁ s₁ → P s₁) ↔ Run (Meeting C step) s as s' := by
  induction hr with
  | nil s =>
    refine ⟨fun _ => .nil s, fun _ as₁ as₂ s₁ has hr₁ => ?_⟩
    obtain ⟨rfl, -⟩ := List.nil_eq_append_iff.1 has
    cases hr₁ with
    | nil _ => exact hPs
  | @cons s s₁ s₂ a as ha hr ih =>
    constructor
    · intro hall
      have hPs₁ : P s₁ := hall [a] as s₁ rfl (single ha)
      refine .cons ⟨(hP _ _ _ ha hs hPs).1 hPs₁, ha⟩ ((ih (hI _ _ _ ha hs) hPs₁).1 ?_)
      intro as₁ as₂ s₃ has hr₁
      exact hall (a :: as₁) as₂ s₃ (by rw [has]; rfl) (.cons ha hr₁)
    · intro hmeet as₁ as₂ s₃ has hr₃
      cases hmeet with
      | cons ha' hmeet' =>
        cases hdet _ _ _ _ ha ha'.2
        cases hr₃ with
        | nil _ => exact hPs
        | cons ha₃ hr₃ =>
          rw [List.cons_append, List.cons.injEq] at has
          obtain ⟨rfl, has⟩ := has
          cases hdet _ _ _ _ ha ha₃
          exact (ih (hI _ _ _ ha hs) ((hP _ _ _ ha hs hPs).2 ha'.1)).2 hmeet' _ _ _ has hr₃

end Run

end Rmdb
