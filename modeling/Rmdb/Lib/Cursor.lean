import Mathlib.Data.Multiset.ZeroCons
import Mathlib.Data.Nat.Notation

/-!
# Loops and cursors

A `while` loop is a round that continues or is done, run with fuel: `iterate` gives `none` when the
fuel runs out or a round fails.  A cursor goes through a list of items, one at a time: `Emits` says
which items it will give from a state on, and `Enumerates` that it gives them whenever it is
rewound.  `EnumeratesBag` leaves their order open.  `through` looks the items up, `kept` goes over
those that fail a test.
-/

namespace Rmdb

/-! ## Loops -/

/-- What a round of a loop leads to. -/
inductive Loop (σ : Type)
  | next (s : σ)
  | done (s : σ)

section
variable {σ : Type} {round : σ → Option (Loop σ)} {n m : ℕ} {s : σ}

/-- Rounds until one is done, at most `n` of them. -/
def iterate (round : σ → Option (Loop σ)) : ℕ → σ → Option σ
  | 0, _ => none
  | n + 1, s =>
    match round s with
    | none => none
    | some (.done s) => some s
    | some (.next s) => iterate round n s

/-- A loop whose rounds keep `P` and lower its measure ends with `Q`. -/
theorem iterate_spec {P : ℕ → σ → Prop} {Q : σ → Prop}
    (h : ∀ m s, P m s → (∃ s', round s = some (.done s') ∧ Q s') ∨
      ∃ m' s', m' < m ∧ round s = some (.next s') ∧ P m' s')
    (hs : P m s) (hn : m < n) : ∃ s', iterate round n s = some s' ∧ Q s' := by
  induction n generalizing m s with
  | zero => omega
  | succ n ih =>
    rcases h m s hs with ⟨s', hround, hq⟩ | ⟨m', s', hlt, hround, hs'⟩
    · exact ⟨s', by rw [iterate, hround], hq⟩
    · obtain ⟨s'', hit, hq⟩ := ih hs' (by omega)
      exact ⟨s'', by rw [iterate, hround]; exact hit, hq⟩

end

/-! ## Cursors -/

/-- A cursor over states of type `σ`; an operation that fails or does not end gives `none`. -/
structure Cursor (σ α : Type) where
  rewind : σ → Option σ
  advance : σ → Option σ
  atEnd : σ → Bool
  get : σ → Option α

namespace Cursor

variable {σ α : Type} {C C' : Cursor σ α} {I : σ → Prop} {s s₀ : σ} {x : α} {xs ys : List α}

/-- The cursor gives the items `xs` and is then at its end; its states meet `I`. -/
def Emits (C : Cursor σ α) (I : σ → Prop) : List α → σ → Prop
  | [], s => I s ∧ C.atEnd s = true
  | x :: xs, s =>
    I s ∧ C.atEnd s = false ∧ C.get s = some x ∧ ∃ s', C.advance s = some s' ∧ Emits C I xs s'

/-- Rewound in a state that meets `I`, the cursor gives the items `xs`. -/
def Enumerates (C : Cursor σ α) (I : σ → Prop) (xs : List α) : Prop :=
  ∀ s, I s → ∃ s', C.rewind s = some s' ∧ C.Emits I xs s'

/-- Rewound in a state that meets `I`, the cursor gives the items of `M` in some order. -/
def EnumeratesBag (C : Cursor σ α) (I : σ → Prop) (M : Multiset α) : Prop :=
  ∀ s, I s → ∃ s' xs, C.rewind s = some s' ∧ Multiset.ofList xs = M ∧ C.Emits I xs s'

/-- The states that a cursor can be brought to. -/
inductive Reachable (C : Cursor σ α) (s₀ : σ) : σ → Prop
  | refl : Reachable C s₀ s₀
  | rewind {s s' : σ} : Reachable C s₀ s → C.rewind s = some s' → Reachable C s₀ s'
  | advance {s s' : σ} : Reachable C s₀ s → C.advance s = some s' → Reachable C s₀ s'

/-- The items from a state on, at most `n` of them. -/
def drain (C : Cursor σ α) : ℕ → σ → Option (List α)
  | 0, _ => none
  | n + 1, s =>
    if C.atEnd s then some []
    else do
      let x ← C.get s
      let s' ← C.advance s
      return x :: (← drain C n s')

theorem Emits.inv (h : C.Emits I xs s) : I s := by
  cases xs with
  | nil => exact h.1
  | cons x xs => exact h.1

theorem Emits.atEnd_iff (h : C.Emits I xs s) : C.atEnd s = true ↔ xs = [] := by
  cases xs with
  | nil => exact iff_of_true h.2 rfl
  | cons x xs => simp [h.2.1]

theorem Emits.mono {J : σ → Prop} (hij : ∀ s, I s → J s) (h : C.Emits I xs s) : C.Emits J xs s := by
  induction xs generalizing s with
  | nil => exact ⟨hij s h.1, h.2⟩
  | cons x xs ih =>
    obtain ⟨hi, hend, hget, s', hadv, hrest⟩ := h
    exact ⟨hij s hi, hend, hget, s', hadv, ih hrest⟩

/-- A state determines the items to come. -/
theorem Emits.unique {J : σ → Prop} (h : C.Emits I xs s) (h' : C.Emits J ys s) : xs = ys := by
  induction xs generalizing s ys with
  | nil => exact (h'.atEnd_iff.mp h.2).symm
  | cons x xs ih =>
    obtain ⟨_, hend, hget, s', hadv, hrest⟩ := h
    cases ys with
    | nil => exact absurd h'.2 (by simp [hend])
    | cons y ys =>
      obtain ⟨_, _, hget', s'', hadv', hrest'⟩ := h'
      obtain rfl : x = y := Option.some.inj (hget.symm.trans hget')
      obtain rfl : s' = s'' := Option.some.inj (hadv.symm.trans hadv')
      rw [ih hrest hrest']

theorem Emits.drain {n : ℕ} (h : C.Emits I xs s) (hn : xs.length < n) : C.drain n s = some xs := by
  induction xs generalizing s n with
  | nil =>
    obtain ⟨n, rfl⟩ : ∃ m, n = m + 1 := ⟨n - 1, by omega⟩
    simp [Cursor.drain, h.2]
  | cons x xs ih =>
    obtain ⟨n, rfl⟩ : ∃ m, n = m + 1 := ⟨n - 1, by omega⟩
    obtain ⟨_, hend, hget, s', hadv, hrest⟩ := h
    have hdrain := ih hrest (by simpa using hn)
    simp [Cursor.drain, hend, hget, hadv, hdrain]

/-- Two cursors that differ in what they give only. -/
theorem Emits.congr (hrest : C'.rewind = C.rewind ∧ C'.advance = C.advance ∧ C'.atEnd = C.atEnd)
    (hget : ∀ s, C.atEnd s = false → C'.get s = C.get s) (h : C.Emits I xs s) :
    C'.Emits I xs s := by
  obtain ⟨_, hadv, hend⟩ := hrest
  induction xs generalizing s with
  | nil => exact ⟨h.1, by rw [hend]; exact h.2⟩
  | cons x xs ih =>
    obtain ⟨hi, he, hg, s', ha, hrest⟩ := h
    exact ⟨hi, by rw [hend]; exact he, by rw [hget s he, hg], s', by rw [hadv]; exact ha, ih hrest⟩

theorem Emits.nil_congr (hrest : C'.rewind = C.rewind ∧ C'.advance = C.advance ∧ C'.atEnd = C.atEnd)
    (h : C.Emits I [] s) : C'.Emits I [] s :=
  ⟨h.1, by rw [hrest.2.2]; exact h.2⟩

theorem Enumerates.bag (h : C.Enumerates I xs) : C.EnumeratesBag I (Multiset.ofList xs) := by
  intro s hs
  obtain ⟨s', hs', hem⟩ := h s hs
  exact ⟨s', xs, hs', rfl, hem⟩

theorem EnumeratesBag.enumerates_nil (h : C.EnumeratesBag I 0) : C.Enumerates I [] := by
  intro s hs
  obtain ⟨s', xs, hs', hxs, hem⟩ := h s hs
  rw [Multiset.coe_eq_zero] at hxs
  subst hxs
  exact ⟨s', hs', hem⟩

/-- A cursor that stays where it is at its end gives a part of its items in every state it can be
brought to. -/
theorem EnumeratesBag.emits_of_reachable {M : Multiset α} (h : C.EnumeratesBag I M) (h₀ : I s₀)
    (hend₀ : C.atEnd s₀ = true) (hstay : ∀ s, C.atEnd s = true → C.advance s = some s)
    (hs : C.Reachable s₀ s) : ∃ ys, Multiset.ofList ys ≤ M ∧ C.Emits I ys s := by
  induction hs with
  | refl => exact ⟨[], Multiset.zero_le M, h₀, hend₀⟩
  | rewind _ hrew ih =>
    obtain ⟨ys, _, hys⟩ := ih
    obtain ⟨s', xs, hs', hxs, hem⟩ := h _ hys.inv
    cases hrew.symm.trans hs'
    exact ⟨xs, hxs.le, hem⟩
  | advance _ hadv ih =>
    obtain ⟨ys, hle, hys⟩ := ih
    cases ys with
    | nil =>
      cases hadv.symm.trans (hstay _ hys.2)
      exact ⟨[], hle, hys⟩
    | cons y ys =>
      obtain ⟨_, _, _, s', hs', hem⟩ := hys
      cases hadv.symm.trans hs'
      exact ⟨ys, (Multiset.le_cons_self _ y).trans hle, hem⟩

/-- A cursor whose operations are those of another one on the states that `g` gives. -/
theorem Emits.map {τ : Type} {D : Cursor τ α} (g : σ → τ) (hend : ∀ s, D.atEnd (g s) = C.atEnd s)
    (hget : ∀ s, D.get (g s) = C.get s) (hadv : ∀ s, D.advance (g s) = (C.advance s).map g)
    (h : C.Emits I xs s) : D.Emits (fun _ => True) xs (g s) := by
  induction xs generalizing s with
  | nil => exact ⟨trivial, (hend s).trans h.2⟩
  | cons x xs ih =>
    obtain ⟨-, he, hg, s', ha, hrest⟩ := h
    exact ⟨trivial, (hend s).trans he, (hget s).trans hg, g s', by rw [hadv, ha]; rfl, ih hrest⟩

/-- The cursor with its items looked up. -/
def through {β : Type} (C : Cursor σ α) (find : α → Option β) : Cursor σ β where
  rewind := C.rewind
  advance := C.advance
  atEnd := C.atEnd
  get s := do find (← C.get s)

theorem Emits.through {β : Type} {find : α → Option β} {ys : List β} (h : C.Emits I xs s)
    (hfind : List.Forall₂ (fun x y => find x = some y) xs ys) : (C.through find).Emits I ys s := by
  induction hfind generalizing s with
  | nil => exact h
  | cons hx _ ih =>
    obtain ⟨hi, hend, hget, s', hadv, hrest⟩ := h
    refine ⟨hi, hend, ?_, s', hadv, ih hrest⟩
    simp only [Cursor.through, hget, Option.bind_eq_bind, Option.bind_some, hx]

/-! ### Leaving items out -/

section Kept

variable (C) (keeps : α → Option Bool)

/-- On to the next item with `keeps`, or to the end; a test that fails gives `none`. -/
def skip : ℕ → σ → Option σ
  | 0, _ => none
  | n + 1, s =>
    if C.atEnd s then some s
    else do
      let x ← C.get s
      if ← keeps x then return s
      let s' ← C.advance s
      skip n s'

/-- The cursor with such a loop after each move. -/
def kept (n : ℕ) : Cursor σ α where
  rewind s := do C.skip keeps n (← C.rewind s)
  advance s := if C.atEnd s then some s else do C.skip keeps n (← C.advance s)
  atEnd := C.atEnd
  get := C.get

variable {C keeps} {n m : ℕ}

theorem Emits.skip (h : C.Emits I xs s) (hkeeps : ∀ x ∈ xs, (keeps x).isSome = true)
    (hm : xs.length < m) (hn : xs.length < n) : ∃ s', C.skip keeps m s = some s' ∧
      (C.kept keeps n).Emits (fun _ => True) (xs.filter (keeps · = some true)) s' := by
  induction xs generalizing s m with
  | nil =>
    obtain ⟨m, rfl⟩ : ∃ k, m = k + 1 := ⟨m - 1, by omega⟩
    exact ⟨s, by rw [Cursor.skip, if_pos h.2], trivial, h.2⟩
  | cons x xs ih =>
    obtain ⟨m, rfl⟩ : ∃ k, m = k + 1 := ⟨m - 1, by omega⟩
    rw [List.length_cons] at hm hn
    obtain ⟨hx, hxs⟩ := List.forall_mem_cons.mp hkeeps
    obtain ⟨-, hend, hget, s', hadv, hrest⟩ := h
    obtain ⟨kept, hkept⟩ := Option.isSome_iff_exists.mp hx
    cases kept with
    | true =>
      obtain ⟨s'', hskip, hrest⟩ := ih (m := n) hrest hxs (by omega) (by omega)
      refine ⟨s, ?_, ?_⟩
      · simp only [Cursor.skip, hend, hget, hkept, Option.bind_eq_bind, Option.bind_some, if_true]
        rfl
      · rw [List.filter_cons_of_pos (by simpa using hkept)]
        refine ⟨trivial, hend, hget, s'', ?_, hrest⟩
        simp only [kept, hend, hadv, Option.bind_eq_bind, Option.bind_some, hskip]
        rfl
    | false =>
      obtain ⟨s'', hskip, hrest⟩ := ih (m := m) hrest hxs (by omega) (by omega)
      refine ⟨s'', ?_, ?_⟩
      · simp only [Cursor.skip, hend, hget, hkept, hadv, Option.bind_eq_bind,
          Option.bind_some, hskip]
        rfl
      · rwa [List.filter_cons_of_neg (by simp [hkept])]

/-- With enough rounds for its loop, the cursor gives the items that are kept. -/
theorem Enumerates.kept (h : C.Enumerates (fun _ => True) xs)
    (hkeeps : ∀ x ∈ xs, (keeps x).isSome = true)
    (hn : xs.length < n) : (C.kept keeps n).Enumerates (fun _ => True)
    (xs.filter (keeps · = some true)) := by
  intro s _
  obtain ⟨s', hrewind, hemits⟩ := h s trivial
  obtain ⟨s'', hskip, hkept⟩ := hemits.skip hkeeps hn hn
  exact ⟨s'', by simp only [Cursor.kept, hrewind, Option.bind_eq_bind, Option.bind_some, hskip],
    hkept⟩

/-- The loop does not come to an end over states that are not the end and whose items are not
kept. -/
theorem skip_eq_none {P : σ → Prop} (hend : ∀ s, P s → C.atEnd s = false)
    (hget : ∀ s x, P s → C.get s = some x → keeps x = some false)
    (hadv : ∀ s s', P s → C.advance s = some s' → P s') (hs : P s) (n : ℕ) :
    C.skip keeps n s = none := by
  induction n generalizing s with
  | zero => rfl
  | succ n ih =>
    rw [Cursor.skip, hend s hs, if_neg Bool.false_ne_true]
    cases hx : C.get s with
    | none => rfl
    | some x =>
      simp only [Option.bind_eq_bind, Option.bind_some, hget s x hs hx]
      cases hs' : C.advance s with
      | none => rfl
      | some s' => exact ih (hadv s s' hs hs')

end Kept

end Cursor

end Rmdb
