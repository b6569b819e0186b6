import Mathlib.Data.List.Basic
import Mathlib.Data.List.Infix
import Mathlib.Data.List.TakeWhile
import Mathlib.Data.Nat.Notation
import Rmdb.Lib.Bisect

/-!
# Positions in a chain of blocks

Items lie in blocks, and the blocks form a chain.  A position is a block and a number in it; behind
the last item of a block comes the first of the next one, and only the last block has a position
behind its last item.  `At l n x` says that `x` is the position of the `n`-th item of the chain `l`.
Positions and numbers determine each other, so two positions can be compared for equality.

A predicate that holds of the items up to some point is bounded by the position of the first item
without it: `at_bound` says how a walk over the blocks finds it.
-/

namespace Rmdb

namespace Blocks

variable {N α : Type} (P : N → List α)

/-- The position of the `n`-th item, or the one behind the last item. -/
def At (l : List N) (n : ℕ) (x : N × ℕ) : Prop :=
  ∃ A B, l = A ++ x.1 :: B ∧ n = (A.flatMap P).length + x.2 ∧
    (x.2 < (P x.1).length ∨ x.2 = (P x.1).length ∧ B = [])

/-- The predicate holds of the items up to some point. -/
def Downward (q : α → Bool) (l : List α) : Prop := l.Pairwise fun a b => q b = true → q a = true

variable {P} {l A B : List N} {n m : ℕ} {x y : N × ℕ} {p : N} {q r : α → Bool} {s : List α}

theorem At.le (h : At P l n x) : n ≤ (l.flatMap P).length := by
  obtain ⟨A, B, rfl, rfl, hx⟩ := h
  simp only [List.flatMap_append, List.flatMap_cons, List.length_append]
  omega

/-- A position before the end is that of an item. -/
theorem At.item (h : At P l n x) (hn : n < (l.flatMap P).length) :
    x.2 < (P x.1).length ∧ (P x.1)[x.2]? = (l.flatMap P)[n]? := by
  obtain ⟨A, B, rfl, rfl, hx⟩ := h
  simp only [List.flatMap_append, List.flatMap_cons, List.length_append] at hn ⊢
  have hlt : x.2 < (P x.1).length := by
    rcases hx with hx | ⟨hx, rfl⟩
    · exact hx
    · simp only [List.flatMap_nil, List.length_nil] at hn
      omega
  refine ⟨hlt, ?_⟩
  rw [List.getElem?_append_right (by omega), Nat.add_sub_cancel_left, List.getElem?_append_left hlt]

/-- A position has one number. -/
theorem At.number_unique (hl : l.Nodup) (h : At P l n x) (h' : At P l m x) : n = m := by
  obtain ⟨A, B, rfl, rfl, -⟩ := h
  obtain ⟨A', B', heq, rfl, -⟩ := h'
  have hmem : x.1 ∉ A := fun hA => (List.nodup_append.mp hl).2.2 x.1 hA x.1 List.mem_cons_self rfl
  have hmem' : x.1 ∉ A' := by
    rw [heq] at hl
    exact fun hA => (List.nodup_append.mp hl).2.2 x.1 hA x.1 List.mem_cons_self rfl
  rcases List.append_eq_append_iff.mp heq with ⟨C, hC, hC'⟩ | ⟨C, hC, hC'⟩
  · cases C with
    | nil => rw [hC, List.append_nil]
    | cons c C => exact absurd (by simp [hC, (List.cons.inj hC').1]) hmem'
  · cases C with
    | nil => rw [hC, List.append_nil]
    | cons c C => exact absurd (by simp [hC, (List.cons.inj hC').1]) hmem

/-- A later block has higher numbers. -/
theorem lt_of_append (A : List N) {C : List N}
    (hx : x.2 < (P x.1).length ∨ x.2 = (P x.1).length ∧ C ++ y.1 :: B = []) :
    (A.flatMap P).length + x.2 < ((A ++ x.1 :: C).flatMap P).length + y.2 := by
  have hlt : x.2 < (P x.1).length := by
    rcases hx with hx | ⟨-, hx⟩
    · exact hx
    · simp at hx
  simp only [List.flatMap_append, List.flatMap_cons, List.length_append]
  omega

/-- A number has one position. -/
theorem At.unique (h : At P l n x) (h' : At P l n y) : x = y := by
  obtain ⟨A, B, rfl, hn, hx⟩ := h
  obtain ⟨A', B', heq, hn', hy⟩ := h'
  rcases List.append_eq_append_iff.mp heq with ⟨C, hC, hC'⟩ | ⟨C, hC, hC'⟩
  · cases C with
    | nil =>
      rw [hC, List.append_nil] at hn'
      exact Prod.ext (List.cons.inj hC').1 (by omega)
    | cons c C =>
      obtain ⟨rfl, rfl⟩ := List.cons.inj hC'
      have hlt := lt_of_append A hx
      rw [← hC] at hlt
      omega
  · cases C with
    | nil =>
      rw [hC, List.append_nil] at hn
      exact Prod.ext (List.cons.inj hC').1.symm (by omega)
    | cons c C =>
      obtain ⟨rfl, rfl⟩ := List.cons.inj hC'
      have hlt := lt_of_append A' hy
      rw [← hC] at hlt
      omega

/-! ## Steps -/

theorem at_start (hp : P p ≠ [] ∨ B = []) : At P (p :: B) 0 (p, 0) := by
  refine ⟨[], B, rfl, rfl, ?_⟩
  rcases hp with hp | rfl
  · exact .inl (List.length_pos_iff.mpr hp)
  · cases hlen : (P p).length with
    | zero => exact .inr ⟨rfl, rfl⟩
    | succ k => exact .inl (Nat.succ_pos k)

theorem at_end : At P (A ++ [p]) ((A ++ [p]).flatMap P).length (p, (P p).length) :=
  ⟨A, [], rfl, by simp, .inr ⟨rfl, rfl⟩⟩

/-- The next position is in the same block, or the first of the next one. -/
theorem At.succ (h : At P l n x) (hn : n < (l.flatMap P).length) :
    ∃ A B, l = A ++ x.1 :: B ∧ (x.2 + 1 < (P x.1).length ∨ B = [] → At P l (n + 1) (x.1, x.2 + 1)) ∧
      ∀ p C, B = p :: C → x.2 + 1 = (P x.1).length → P p ≠ [] → At P l (n + 1) (p, 0) := by
  have hlt := (h.item hn).1
  obtain ⟨A, B, rfl, rfl, hx⟩ := h
  refine ⟨A, B, rfl, fun hlast => ⟨A, B, rfl, rfl, ?_⟩, ?_⟩
  · show x.2 + 1 < (P x.1).length ∨ x.2 + 1 = (P x.1).length ∧ B = []
    rcases hlast with hlast | rfl
    · exact .inl hlast
    · rcases Nat.lt_or_eq_of_le (Nat.succ_le_of_lt hlt) with hlt | heq
      · exact .inl hlt
      · exact .inr ⟨heq, rfl⟩
  · rintro p C rfl hsize hp
    refine ⟨A ++ [x.1], C, by simp, ?_, .inl (List.length_pos_iff.mpr hp)⟩
    simp only [List.flatMap_append, List.flatMap_cons, List.flatMap_nil, List.append_nil,
      List.length_append]
    omega

/-! ## Bounds -/

theorem Downward.of_dropWhile (h : Downward q s) : ∀ a ∈ s.dropWhile q, q a = false := by
  induction s with
  | nil => simp
  | cons b s ih =>
    obtain ⟨hb, hs⟩ := List.pairwise_cons.mp h
    cases hqb : q b with
    | true =>
      rw [List.dropWhile_cons_of_pos hqb]
      exact ih hs
    | false =>
      rw [List.dropWhile_cons_of_neg (by simp [hqb])]
      intro a ha
      rcases List.mem_cons.mp ha with rfl | ha
      · exact hqb
      · by_contra hqa
        have hqb' := hb a ha (by simpa using hqa)
        rw [hqb] at hqb'
        cases hqb'

/-- The predicate fails from the bound on. -/
theorem Downward.of_drop (h : Downward q s) : ∀ a ∈ s.drop (s.takeWhile q).length, q a = false := by
  have hdrop := @List.drop_left _ (s.takeWhile q) (s.dropWhile q)
  rw [List.takeWhile_append_dropWhile] at hdrop
  rw [hdrop]
  exact h.of_dropWhile

/-- The binary search for the bound. -/
theorem bisect_eq (h : Downward q s) : bisect q s = (s.takeWhile q).length := by
  conv_lhs => rw [← List.takeWhile_append_dropWhile (p := q) (l := s)]
  exact bisect_append (fun a ha => List.mem_takeWhile_imp ha) h.of_dropWhile

theorem Downward.length_takeWhile (h : Downward q s) : (s.takeWhile q).length = s.countP q := by
  have hleft : (s.takeWhile q).countP q = (s.takeWhile q).length :=
    List.countP_eq_length.mpr fun a ha => List.mem_takeWhile_imp ha
  have hright : (s.dropWhile q).countP q = 0 :=
    List.countP_eq_zero.mpr fun a ha => by rw [h.of_dropWhile a ha]; exact Bool.false_ne_true
  calc (s.takeWhile q).length = (s.takeWhile q).countP q + (s.dropWhile q).countP q := by omega
    _ = s.countP q := by rw [← List.countP_append, List.takeWhile_append_dropWhile]

/-- The search counts the items with the predicate. -/
theorem bisect_eq_countP (h : Downward q s) : bisect q s = s.countP q := by
  rw [bisect_eq h, h.length_takeWhile]

theorem Downward.block (h : Downward q ((A ++ p :: B).flatMap P)) : Downward q (P p) := by
  refine h.sublist ?_
  rw [List.flatMap_append, List.flatMap_cons]
  exact (List.sublist_append_left _ _).trans (List.sublist_append_right _ _)

/-- The bound is in a block whose items do not all have the predicate, or in the last one. -/
theorem at_bound (h : Downward q ((A ++ p :: B).flatMap P)) (hA : ∀ a ∈ A.flatMap P, q a = true)
    (hp : ((P p).takeWhile q).length < (P p).length ∨ B = []) :
    At P (A ++ p :: B) (((A ++ p :: B).flatMap P).takeWhile q).length
    (p, ((P p).takeWhile q).length) := by
  have hle : ((P p).takeWhile q).length ≤ (P p).length := (List.takeWhile_prefix q).length_le
  refine ⟨A, B, rfl, ?_, ?_⟩
  · rw [List.flatMap_append, List.takeWhile_append_of_pos hA, List.length_append, List.flatMap_cons,
      Nat.add_left_cancel_iff]
    by_cases hall : ((P p).takeWhile q).length = (P p).length
    · obtain rfl : B = [] := hp.resolve_left (by omega)
      rw [List.flatMap_nil, List.append_nil]
    · rw [List.takeWhile_append, if_neg hall]
  · show ((P p).takeWhile q).length < (P p).length ∨ ((P p).takeWhile q).length =
      (P p).length ∧ B = []
    rcases Nat.lt_or_eq_of_le hle with hlt | heq
    · exact .inl hlt
    · exact .inr ⟨heq, hp.resolve_left (by omega)⟩

/-- Otherwise it is further on. -/
theorem all_of_full (hA : ∀ a ∈ A.flatMap P, q a = true)
    (hp : ((P p).takeWhile q).length = (P p).length) : ∀ a ∈ (A ++ [p]).flatMap P, q a = true := by
  have hall : (P p).takeWhile q = P p := (List.takeWhile_prefix q).eq_of_length hp
  intro a ha
  rw [List.flatMap_append, List.mem_append, List.flatMap_singleton] at ha
  rcases ha with ha | ha
  · exact hA a ha
  · rw [← hall] at ha
    exact List.mem_takeWhile_imp ha

theorem takeWhile_length_le (hqr : ∀ a ∈ s, q a = true → r a = true) :
    (s.takeWhile q).length ≤ (s.takeWhile r).length := by
  induction s with
  | nil => exact Nat.le_refl _
  | cons a s ih =>
    obtain ⟨ha, hs⟩ := List.forall_mem_cons.mp hqr
    cases hqa : q a with
    | true =>
      rw [List.takeWhile_cons_of_pos hqa, List.takeWhile_cons_of_pos (ha hqa)]
      exact Nat.succ_le_succ (ih hs)
    | false =>
      rw [List.takeWhile_cons_of_neg (by simp [hqa])]
      exact Nat.zero_le _

/-- An item up to one bound and behind another one. -/
theorem takeWhile_length_lt {a : α} (hq : Downward q s) (ha : a ∈ s) (hqa : q a = true)
    (hra : r a = false) : (s.takeWhile r).length < (s.takeWhile q).length := by
  obtain ⟨A, B, rfl⟩ := List.append_of_mem ha
  have hA : ∀ b ∈ A, q b = true :=
    fun b hb => (List.pairwise_append.mp hq).2.2 b hb a List.mem_cons_self hqa
  have hle : ((A ++ a :: B).takeWhile r).length ≤ A.length := by
    rw [List.takeWhile_append]
    split
    · rw [List.takeWhile_cons_of_neg (by simp [hra]), List.append_nil]
    · exact (List.takeWhile_prefix r).length_le
  rw [List.takeWhile_append_of_pos hA, List.takeWhile_cons_of_pos hqa, List.length_append,
    List.length_cons]
  omega

/-- The items between two bounds. -/
theorem drop_take_eq_filter (hq : Downward q s) (hr : Downward r s)
    (hqr : ∀ a ∈ s, q a = true → r a = true) :
    (s.drop (s.takeWhile q).length).take ((s.takeWhile r).length - (s.takeWhile q).length) =
      s.filter fun a => !q a && r a := by
  induction s with
  | nil => rfl
  | cons a s ih =>
    obtain ⟨-, hqs⟩ := List.pairwise_cons.mp hq
    obtain ⟨har, hrs⟩ := List.pairwise_cons.mp hr
    obtain ⟨hqra, hqrs⟩ := List.forall_mem_cons.mp hqr
    cases hqa : q a with
    | true =>
      rw [List.takeWhile_cons_of_pos hqa, List.takeWhile_cons_of_pos (hqra hqa), List.length_cons,
        List.length_cons,
        List.drop_succ_cons, Nat.add_sub_add_right, ih hqs hrs hqrs,
          List.filter_cons_of_neg (by simp [hqa])]
    | false =>
      have hqall : ∀ b ∈ a :: s, q b = false := by
        have hdrop := hq.of_dropWhile
        rwa [List.dropWhile_cons_of_neg (by simp [hqa])] at hdrop
      have hnil : (a :: s).takeWhile q = [] := List.takeWhile_cons_of_neg (by simp [hqa])
      rw [hnil, List.length_nil, List.drop_zero, Nat.sub_zero,
        ← List.prefix_iff_eq_take.mp (List.takeWhile_prefix r)]
      have hfilter : (a :: s).filter (fun b => !q b && r b) = (a :: s).filter r :=
        List.filter_congr fun b hb => by rw [hqall b hb, Bool.not_false, Bool.true_and]
      have hsplit : (a :: s).takeWhile r ++ (a :: s).dropWhile r = a :: s :=
        List.takeWhile_append_dropWhile
      rw [hfilter]
      conv_rhs => rw [← hsplit, List.filter_append]
      rw [List.filter_eq_self.mpr fun b hb => List.mem_takeWhile_imp hb,
        List.filter_eq_nil_iff.mpr fun b hb => by simp [hr.of_dropWhile b hb], List.append_nil]

end Blocks

end Rmdb
