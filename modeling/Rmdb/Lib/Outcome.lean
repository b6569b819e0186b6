import Mathlib.Data.List.Basic

/-!
# Postconditions of computations that may stop

A computation on a state that may stop with an error leaves the state as it is at that point: its
type is `Except (ε × S) α`, with the state reached beside the error.  `Yields P E x` says that `x`
returns a value with `P`, or stops with an error and a state with `E`.
-/

namespace Rmdb

variable {ε S α β : Type} {P P' : α → Prop} {Q : β → Prop} {E E' : ε → S → Prop}
  {x : Except (ε × S) α} {f : α → Except (ε × S) β}

def Yields (P : α → Prop) (E : ε → S → Prop) : Except (ε × S) α → Prop
  | .ok a => P a
  | .error e => E e.1 e.2

namespace Yields

theorem mono (h : Yields P E x) (hP : ∀ a, P a → P' a) (hE : ∀ e s, E e s → E' e s) :
    Yields P' E' x := by
  cases x with
  | ok a => exact hP a h
  | error e => exact hE e.1 e.2 h

theorem bind (h : Yields P E x) (hf : ∀ a, P a → Yields Q E (f a)) : Yields Q E (x >>= f) := by
  cases x with
  | ok a => exact hf a h
  | error e => exact h

theorem and (h : Yields P E x) (h' : Yields P' E' x) :
    Yields (fun a => P a ∧ P' a) (fun e s => E e s ∧ E' e s) x := by
  cases x with
  | ok a => exact ⟨h, h'⟩
  | error e => exact ⟨h, h'⟩

theorem of_ok {a : α} (h : Yields P E x) (hx : x = .ok a) : P a := by
  rw [hx] at h
  exact h

theorem of_error {e : ε} {s : S} (h : Yields P E x) (hx : x = .error (e, s)) : E e s := by
  rw [hx] at h
  exact h

/-- A loop over a list: `I` holds of the elements done and the state they lead to. -/
theorem foldlM {A σ : Type} {f : σ → A → Except (ε × S) σ} {I : List A → σ → Prop}
    {l : List A} {s : σ} (h : I [] s)
    (hstep : ∀ done a rest s, l = done ++ a :: rest → I done s →
      Yields (I (done ++ [a])) E (f s a)) : Yields (I l) E (l.foldlM f s) := by
  suffices hsuffix : ∀ rest done s, l = done ++ rest → I done s →
      Yields (I l) E (rest.foldlM f s) from hsuffix l [] s rfl h
  intro rest
  induction rest with
  | nil =>
    intro done s hl hdone
    rw [List.append_nil] at hl
    subst hl
    exact hdone
  | cons a rest ih =>
    intro done s hl hdone
    rw [List.foldlM_cons]
    refine (hstep done a rest s hl hdone).bind fun s' hs' => ?_
    exact ih (done ++ [a]) s' (by rw [hl, List.append_assoc, List.singleton_append]) hs'

end Yields

/-! ## Inversion -/

theorem exists_of_bind_ok {x : Except ε α} {f : α → Except ε β} {b : β} (h : (x >>= f) = .ok b) :
    ∃ a, x = .ok a ∧ f a = .ok b := by
  cases x with
  | error e => cases h
  | ok a => exact ⟨a, rfl, h⟩

/-- A computed fact about the value of a computation. -/
theorem exists_ok_of_any {x : Except ε α} {p : α → Bool} (h : x.toOption.any p = true) :
    ∃ a, x = .ok a ∧ p a = true := by
  cases x with
  | error e => cases h
  | ok a => exact ⟨a, rfl, h⟩

/-- Each result of a `mapM` comes from an element of the list. -/
theorem exists_of_mem_mapM {f : α → Except ε β} {l : List α} {r : List β} (h : l.mapM f = .ok r) :
    ∀ b ∈ r, ∃ a ∈ l, f a = .ok b := by
  induction l generalizing r with
  | nil =>
    cases h
    simp
  | cons a l ih =>
    rw [List.mapM_cons] at h
    obtain ⟨b, hb, h⟩ := exists_of_bind_ok h
    obtain ⟨bs, hbs, h⟩ := exists_of_bind_ok h
    cases h
    intro b' hb'
    rcases List.mem_cons.mp hb' with rfl | hb'
    · exact ⟨a, List.mem_cons_self, hb⟩
    · obtain ⟨a', ha', hfa⟩ := ih hbs b' hb'
      exact ⟨a', List.mem_cons_of_mem _ ha', hfa⟩

end Rmdb
