import Mathlib.Order.Lattice

/-!
# Sorting by a comparison

What a sorting routine promises: on elements among which its comparison is a strict weak order, it
gives a permutation in which no element is less than an earlier one.  A comparison that is the order
of some key is a strict weak order. `mergeSorted` is such a routine.
-/

namespace Rmdb

variable {α κ : Type} {lt : α → α → Bool} {xs : List α}

/-- The comparison is a strict weak order on the elements of a list. -/
structure StrictWeakOn (lt : α → α → Bool) (xs : List α) : Prop where
  irrefl : ∀ a ∈ xs, lt a a = false
  trans : ∀ a ∈ xs, ∀ b ∈ xs, ∀ c ∈ xs, lt a b = true → lt b c = true → lt a c = true
  incomparable : ∀ a ∈ xs, ∀ b ∈ xs, ∀ c ∈ xs, lt a b = false → lt b a = false → lt b c = false →
    lt c b = false → lt a c = false ∧ lt c a = false

/-- The promise of a sorting routine. -/
def Sorts (sort : (α → α → Bool) → List α → List α) : Prop :=
  ∀ lt xs, StrictWeakOn lt xs → (sort lt xs).Perm xs ∧ (sort lt xs).Pairwise fun a b =>
    lt b a = false

namespace StrictWeakOn

theorem not_lt_trans (h : StrictWeakOn lt xs) {a b c : α} (ha : a ∈ xs) (hb : b ∈ xs) (hc : c ∈ xs)
    (hab : lt b a = false) (hbc : lt c b = false) : lt c a = false := by
  by_contra hca
  rw [Bool.not_eq_false] at hca
  have hab' : lt a b = false := by
    by_contra hlt
    rw [Bool.not_eq_false] at hlt
    exact absurd (h.trans c hc a ha b hb hca hlt) (by rw [hbc]; decide)
  have hbc' : lt b c = false := by
    by_contra hlt
    rw [Bool.not_eq_false] at hlt
    exact absurd (h.trans b hb c hc a ha hlt hca) (by rw [hab]; decide)
  exact absurd hca (by rw [(h.incomparable a ha b hb c hc hab' hab hbc' hbc).2]; decide)

theorem not_lt_total (h : StrictWeakOn lt xs) {a b : α} (ha : a ∈ xs) (hb : b ∈ xs) :
    lt b a = false ∨ lt a b = false := by
  by_contra hboth
  rw [not_or, Bool.not_eq_false, Bool.not_eq_false] at hboth
  exact absurd (h.trans a ha b hb a ha hboth.2 hboth.1) (by rw [h.irrefl a ha]; decide)

end StrictWeakOn

/-! ## Keys -/

section
variable [LinearOrder κ] {key : α → κ}

theorem strictWeakOn_of_key (h : ∀ a ∈ xs, ∀ b ∈ xs, (lt a b = true ↔ key a < key b)) :
    StrictWeakOn lt xs := by
  have hfalse : ∀ a ∈ xs, ∀ b ∈ xs, (lt a b = false ↔ key b ≤ key a) := fun a ha b hb => by
    rw [← not_lt, ← h a ha b hb, Bool.not_eq_true]
  refine ⟨fun a ha => (hfalse a ha a ha).2 le_rfl, fun a ha b hb c hc hab hbc => ?_,
    fun a ha b hb c hc hab hba hbc hcb => ⟨?_, ?_⟩⟩
  · exact (h a ha c hc).2 (((h a ha b hb).1 hab).trans ((h b hb c hc).1 hbc))
  · exact (hfalse a ha c hc).2 (((hfalse b hb c hc).1 hbc).trans ((hfalse a ha b hb).1 hab))
  · exact (hfalse c hc a ha).2 (((hfalse b hb a ha).1 hba).trans ((hfalse c hc b hb).1 hcb))

/-- Sorting by a comparison that is the order of a key. -/
theorem Sorts.sorted_by_key {sort : (α → α → Bool) → List α → List α} (hsort : Sorts sort)
    (h : ∀ a ∈ xs, ∀ b ∈ xs, (lt a b = true ↔ key a < key b)) :
    (sort lt xs).Perm xs ∧ (sort lt xs).Pairwise fun a b => key a ≤ key b := by
  obtain ⟨hperm, hpair⟩ := hsort lt xs (strictWeakOn_of_key h)
  refine ⟨hperm, hpair.imp_of_mem fun {a b} ha hb hba => ?_⟩
  rw [← not_lt, ← h b (hperm.mem_iff.1 hb) a (hperm.mem_iff.1 ha), hba]
  decide

end

/-! ## A sorting routine -/

/-- Merge sort. -/
def mergeSorted (lt : α → α → Bool) (xs : List α) : List α :=
  (xs.attach.mergeSort fun a b => !lt b.1 a.1).map Subtype.val

theorem sorts_mergeSorted : Sorts (@mergeSorted α) := by
  intro lt xs h
  constructor
  · have hperm := (List.mergeSort_perm xs.attach fun a b => !lt b.1 a.1).map Subtype.val
    rwa [List.attach_map_subtype_val] at hperm
  · rw [mergeSorted, List.pairwise_map]
    refine (List.pairwise_mergeSort (fun a b c hab hbc => ?_) (fun a b => ?_) xs.attach).imp
      fun hab => ?_
    · rw [Bool.not_eq_true'] at hab hbc ⊢
      exact h.not_lt_trans a.2 b.2 c.2 hab hbc
    · rw [Bool.or_eq_true, Bool.not_eq_true', Bool.not_eq_true']
      exact h.not_lt_total a.2 b.2
    · rwa [Bool.not_eq_true'] at hab

end Rmdb
