import Mathlib.Data.List.Count
import Mathlib.Data.List.Nodup
import Mathlib.Tactic.Ring

/-!
# Bins with counters and a list of those with room

Each bin has a counter, and the bins with room are linked through `next` from `first` to `nil`.
`fill` counts an item into a bin, `free` counts one out of it; a bin whose counter leaves the
capacity downwards is put at the front of the list.  Neither looks at what is in the bin, so the
counters and the list can lose touch with it.  `exact_iff` says for any sequence of moves when the
list is the right one in the end.
-/

namespace Rmdb

variable {P : Type*} [DecidableEq P]

/-- The counters and the list. -/
structure Book (P : Type*) where
  count : P → ℤ
  next : P → P
  first : P

/-- An item is counted in or out. -/
inductive Move (P : Type*)
  | fill (p : P)
  | free (p : P)

namespace Move

/-- The bin of a move. -/
def bin : Move P → P
  | fill p => p
  | free p => p

/-- The change of the counter. -/
def sign : Move P → ℤ
  | fill _ => 1
  | free _ => -1

end Move

/-- `next` leads from `start` through the bins of the list to `nil`. -/
def Leads (nil : P) (next : P → P) : P → List P → Prop
  | start, [] => start = nil
  | start, p :: rest => start = p ∧ Leads nil next (next p) rest

namespace Leads

variable {nil : P} {next next' : P → P} {l l' : List P} {start p : P}

omit [DecidableEq P] in
theorem congr (h : ∀ p ∈ l, next' p = next p) (hl : Leads nil next start l) :
    Leads nil next' start l := by
  induction l generalizing start with
  | nil => exact hl
  | cons p l ih =>
    refine ⟨hl.1, ?_⟩
    rw [h p List.mem_cons_self]
    exact ih (fun q hq => h q (List.mem_cons_of_mem _ hq)) hl.2

omit [DecidableEq P] in
theorem unique (h : Leads nil next start l) (h' : Leads nil next start l') (hl : nil ∉ l)
    (hl' : nil ∉ l') : l = l' := by
  induction l generalizing start l' with
  | nil =>
    cases l' with
    | nil => rfl
    | cons q l' =>
      obtain ⟨rfl, -⟩ := h'
      exact absurd (h ▸ List.mem_cons_self) hl'
  | cons p l ih =>
    obtain ⟨rfl, h⟩ := h
    cases l' with
    | nil => exact absurd (h' ▸ List.mem_cons_self) hl
    | cons q l' =>
      obtain ⟨rfl, h'⟩ := h'
      rw [ih h h' (fun hm => hl (List.mem_cons_of_mem _ hm)) fun hm =>
        hl' (List.mem_cons_of_mem _ hm)]

end Leads

namespace Book

/-- The list of the book is `l`. -/
structure Exact (nil : P) (b : Book P) (l : List P) : Prop where
  nodup : l.Nodup
  nil_notMem : nil ∉ l
  leads : Leads nil b.next b.first l

/-- One move; `cap` is the capacity of a bin. -/
def move (cap : ℤ) (b : Book P) : Move P → Book P
  | .fill p => { b with count := Function.update b.count p (b.count p + 1) }
  | .free p =>
    if b.count p = cap then
      { count := Function.update b.count p (b.count p - 1)
        next := Function.update b.next p b.first
        first := p }
    else { b with count := Function.update b.count p (b.count p - 1) }

/-- The bins that a move puts into the list. -/
def pushed (cap : ℤ) (b : Book P) : Move P → List P
  | .fill _ => []
  | .free p => if b.count p = cap then [p] else []

/-- The bins that moves put into the list, the last one first. -/
def pushes (cap : ℤ) (b : Book P) : List (Move P) → List P
  | [] => []
  | m :: ms => pushes cap (b.move cap m) ms ++ b.pushed cap m

/-- How often a counter that starts at `n` leaves the capacity downwards, over the signs of
moves. -/
def refills (cap : ℤ) : ℤ → List ℤ → ℕ
  | _, [] => 0
  | n, d :: ds => (if d = -1 ∧ n = cap then 1 else 0) + refills cap (n + d) ds

/-- The signs of the moves in the bin `p`. -/
def signsAt (p : P) (ms : List (Move P)) : List ℤ := (ms.filter fun m => m.bin = p).map Move.sign

variable {nil p : P} {cap : ℤ} {b : Book P} {l l' : List P} {m : Move P} {ms : List (Move P)}

theorem count_move (p : P) :
    (b.move cap m).count p = b.count p + (signsAt p [m]).sum := by
  have hupdate (q : P) (d : ℤ) : Function.update b.count q (b.count q + d) p =
      b.count p + if q = p then d else 0 := by
    by_cases hq : p = q
    · subst hq
      simp
    · simp [Function.update_of_ne hq, Ne.symm hq]
  cases m with
  | fill q =>
    refine (hupdate q 1).trans ?_
    by_cases hq : q = p <;> simp [signsAt, Move.bin, Move.sign, hq]
  | free q =>
    have hcount : (b.move cap (.free q)).count = Function.update b.count q (b.count q + -1) := by
      by_cases hcap : b.count q = cap <;> simp [move, hcap, sub_eq_add_neg]
    rw [hcount, hupdate q (-1)]
    by_cases hq : q = p <;> simp [signsAt, Move.bin, Move.sign, hq]

theorem signsAt_append (p : P) (ms ms' : List (Move P)) :
    signsAt p (ms ++ ms') = signsAt p ms ++ signsAt p ms' := by
  rw [signsAt, List.filter_append, List.map_append, signsAt, signsAt]

theorem signsAt_cons (p : P) (m : Move P) (ms : List (Move P)) :
    signsAt p (m :: ms) = signsAt p [m] ++ signsAt p ms :=
  signsAt_append p [m] ms

theorem sum_signsAt_flatMap {α : Type*} (p : P) (as : List α) (moves : α → List (Move P)) :
    (signsAt p (as.flatMap moves)).sum = (as.map fun a => (signsAt p (moves a)).sum).sum := by
  induction as with
  | nil => rfl
  | cons a as ih =>
    rw [List.flatMap_cons, signsAt_append, List.sum_append, ih, List.map_cons, List.sum_cons]

/-- The counter after a run of moves. -/
theorem count_foldl (p : P) (ms : List (Move P)) :
    (ms.foldl (move cap) b).count p = b.count p + (signsAt p ms).sum := by
  induction ms generalizing b with
  | nil => simp [signsAt]
  | cons m ms ih =>
    rw [List.foldl_cons, ih, count_move, signsAt_cons p m ms, List.sum_append]
    ring

/-- How often a run of moves puts a bin into the list. -/
theorem count_pushes (p : P) (ms : List (Move P)) :
    (b.pushes cap ms).count p = refills cap (b.count p) (signsAt p ms) := by
  induction ms generalizing b with
  | nil => rfl
  | cons m ms ih =>
    rw [pushes, List.count_append, ih, count_move, signsAt_cons p m ms]
    cases m with
    | fill q =>
      by_cases hq : q = p <;> simp [pushed, signsAt, Move.bin, Move.sign, hq, refills]
    | free q =>
      by_cases hq : q = p
      · subst hq
        by_cases hcap : b.count q = cap <;>
          simp [pushed, signsAt, Move.bin, Move.sign, hcap, refills, Nat.add_comm]
      · by_cases hcap : b.count q = cap <;> simp [pushed, signsAt, Move.bin, hq, hcap]

/-! ## The list after a run -/

/-- A bin put in front of the list leaves a list exactly when it was not in it. -/
theorem exact_push {count : P → ℤ} (hp : p ≠ nil) :
    Exact nil ⟨count, Function.update b.next p b.first, p⟩ l' ↔
      ∃ l, l' = p :: l ∧ Exact nil b l ∧ l'.Nodup := by
  constructor
  · rintro ⟨hnodup, hnil, hleads⟩
    cases l' with
    | nil => exact absurd hleads hp
    | cons q l =>
      obtain ⟨hq, hleads⟩ := hleads
      obtain rfl : p = q := hq
      obtain ⟨hout, hnodup'⟩ := List.nodup_cons.1 hnodup
      change Leads nil (Function.update b.next p b.first)
        (Function.update b.next p b.first p) l at hleads
      rw [Function.update_self] at hleads
      refine ⟨l, rfl, ⟨hnodup', fun hm => hnil (List.mem_cons_of_mem _ hm), ?_⟩, hnodup⟩
      refine hleads.congr fun q hq => (Function.update_of_ne ?_ _ _).symm
      rintro rfl
      exact hout hq
  · rintro ⟨l, rfl, ⟨-, hnil, hleads⟩, hnodup⟩
    obtain ⟨hout, -⟩ := List.nodup_cons.1 hnodup
    refine ⟨hnodup, ?_, rfl, ?_⟩
    · rintro (_ | ⟨_, hm⟩)
      · exact hp rfl
      · exact hnil hm
    · change Leads nil (Function.update b.next p b.first) (Function.update b.next p b.first p) l
      rw [Function.update_self]
      refine hleads.congr fun q hq => Function.update_of_ne ?_ _ _
      rintro rfl
      exact hout hq

theorem exact_move (hm : m.bin ≠ nil) : Exact nil (b.move cap m) l' ↔
    ∃ l, l' = b.pushed cap m ++ l ∧ Exact nil b l ∧ l'.Nodup := by
  have hkeep {count : P → ℤ} : Exact nil { b with count := count } l' ↔
      ∃ l, l' = [] ++ l ∧ Exact nil b l ∧ l'.Nodup :=
    ⟨fun h => ⟨l', rfl, ⟨h.nodup, h.nil_notMem, h.leads⟩, h.nodup⟩, by
      rintro ⟨l, rfl, h, -⟩
      exact ⟨h.nodup, h.nil_notMem, h.leads⟩⟩
  cases m with
  | fill p => exact hkeep
  | free p =>
    by_cases hcap : b.count p = cap
    · simp only [move, pushed, if_pos hcap]
      exact exact_push hm
    · simp only [move, pushed, if_neg hcap]
      exact hkeep

/-- The lists after a run of moves are those before it with the bins that were put in. -/
theorem exact_foldl (hms : ∀ m ∈ ms, m.bin ≠ nil) : Exact nil (ms.foldl (move cap) b) l' ↔
    ∃ l, l' = b.pushes cap ms ++ l ∧ Exact nil b l ∧ l'.Nodup := by
  induction ms generalizing b with
  | nil =>
    exact ⟨fun h => ⟨l', rfl, h, h.nodup⟩, by rintro ⟨l, rfl, h, -⟩; exact h⟩
  | cons m ms ih =>
    rw [List.foldl_cons, ih fun m' hm' => hms m' (List.mem_cons_of_mem _ hm')]
    constructor
    · rintro ⟨l₁, rfl, h₁, hnodup⟩
      obtain ⟨l, rfl, hl, -⟩ := (exact_move (hms m List.mem_cons_self)).1 h₁
      exact ⟨l, by rw [pushes, List.append_assoc], hl, hnodup⟩
    · rintro ⟨l, rfl, hl, hnodup⟩
      rw [pushes, List.append_assoc] at hnodup ⊢
      refine ⟨_, rfl, (exact_move (hms m List.mem_cons_self)).2 ⟨l, rfl, hl, ?_⟩, hnodup⟩
      exact (List.nodup_append.1 hnodup).2.1

/-- After a run of moves the list holds the bins that satisfy `R` exactly when each of them was in
it or has been put in, and only once. -/
theorem exact_iff {R : P → Prop} [DecidablePred R] (hb : Exact nil b l)
    (hms : ∀ m ∈ ms, m.bin ≠ nil) :
    (∃ l', Exact nil (ms.foldl (move cap) b) l' ∧ ∀ p, p ∈ l' ↔ R p) ↔
      ∀ p, refills cap (b.count p) (signsAt p ms) + (if p ∈ l then 1 else 0) =
      if R p then 1 else 0 := by
  have hcount (p : P) : (b.pushes cap ms ++ l).count p =
      refills cap (b.count p) (signsAt p ms) + if p ∈ l then 1 else 0 := by
    rw [List.count_append, count_pushes, List.Nodup.count hb.nodup]
  simp only [← hcount]
  constructor
  · rintro ⟨l', h', hmem⟩ p
    obtain ⟨l₁, rfl, hl₁, hnodup⟩ := (exact_foldl hms).1 h'
    have heq := hl₁.leads.unique hb.leads hl₁.nil_notMem hb.nil_notMem
    subst heq
    rw [List.Nodup.count hnodup]
    simp only [hmem p]
  · intro h
    have hnodup : (b.pushes cap ms ++ l).Nodup := by
      refine List.nodup_iff_count_le_one.2 fun p => ?_
      rw [h p]
      split <;> omega
    refine ⟨_, (exact_foldl hms).2 ⟨l, rfl, hb, hnodup⟩, fun p => ?_⟩
    rw [← List.count_pos_iff, h p]
    split <;> simp_all

end Book

end Rmdb
