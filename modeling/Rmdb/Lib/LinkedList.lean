import Mathlib.Data.List.Chain
import Mathlib.Logic.Function.Basic

/-!
# Doubly linked lists

Nodes that know the one after them and the one before.
-/

namespace Rmdb

variable {N : Type*}

/-- Every node of the list knows the next one, which knows it. -/
def DoublyLinked (next prev : N → N) (l : List N) : Prop :=
  l.IsChain fun p q => next p = q ∧ prev q = p

namespace DoublyLinked

variable {next prev next' prev' : N → N} {l A B : List N} {p n x : N}

theorem congr (h : DoublyLinked next prev l) (hnext : ∀ p ∈ l, next' p = next p)
    (hprev : ∀ p ∈ l, prev' p = prev p) : DoublyLinked next' prev' l := by
  refine List.IsChain.imp_of_mem_imp (fun a b ha hb hlink => ?_) h
  rw [hnext a ha, hprev b hb]
  exact hlink

variable [DecidableEq N]

/-- The node `n` comes between `p` and `x`.  The list may begin with the node `x`, as a ring
does. -/
theorem insert (h : DoublyLinked next prev (A ++ p :: x :: B)) (hn : n ∉ A ++ p :: x :: B)
    (hx : x ∉ (A ++ [p]).tail) (hx' : x ∉ B) :
    DoublyLinked (Function.update (Function.update next n x) p n)
    (Function.update (Function.update prev n p) x n) (A ++ p :: n :: x :: B) := by
  obtain ⟨hA, ⟨hnext, -⟩, hB⟩ := List.isChain_append_cons_cons.mp h
  simp only [List.mem_append, List.mem_cons, not_or] at hn
  obtain ⟨hnA, hnp, hnx, hnB⟩ := hn
  -- a link to another node than `x` does not start at `p`
  have hkeep (a b : N) (ha : a ≠ n) (hb : b ≠ n) (hbx : b ≠ x) (hlink : next a = b ∧ prev b = a) :
      Function.update (Function.update next n x) p n a = b ∧
        Function.update (Function.update prev n p) x n b = a := by
    have hap : a ≠ p := by
      rintro rfl
      exact hbx (hlink.1.symm.trans hnext)
    rw [Function.update_of_ne hap, Function.update_of_ne ha, Function.update_of_ne hbx,
      Function.update_of_ne hb]
    exact hlink
  refine List.isChain_append_cons_cons.mpr ⟨?_, ⟨?_, ?_⟩, List.isChain_cons_cons.mpr ⟨⟨?_, ?_⟩, ?_⟩⟩
  · refine List.IsChain.imp_of_mem_tail_imp (fun a b ha hb hlink => ?_) hA
    have hne (c : N) (hc : c ∈ A ++ [p]) : c ≠ n := by
      rintro rfl
      rcases List.mem_append.mp hc with hc | hc
      · exact hnA hc
      · exact hnp (List.mem_singleton.mp hc)
    exact hkeep a b (hne a ha) (hne b (List.mem_of_mem_tail hb)) (fun heq => hx (heq ▸ hb)) hlink
  · rw [Function.update_self]
  · rw [Function.update_of_ne hnx, Function.update_self]
  · rw [Function.update_of_ne hnp, Function.update_self]
  · rw [Function.update_self]
  · refine List.IsChain.imp_of_mem_tail_imp (fun a b ha hb hlink => ?_) hB
    have hne (c : N) (hc : c ∈ x :: B) : c ≠ n := by
      rintro rfl
      rcases List.mem_cons.mp hc with hc | hc
      · exact hnx hc
      · exact hnB hc
    exact hkeep a b (hne a ha) (hne b (List.mem_of_mem_tail hb)) (fun heq => hx' (heq ▸ hb)) hlink

/-- The node `n` between `p` and `x` is left out. -/
theorem remove (h : DoublyLinked next prev (A ++ p :: n :: x :: B)) (hn : n ∉ (A ++ [p]).tail)
    (hn' : n ∉ x :: B) (hx : x ∉ (A ++ [p]).tail) (hx' : x ∉ B) :
    DoublyLinked (Function.update next p x) (Function.update prev x p) (A ++ p :: x :: B) := by
  obtain ⟨hA, ⟨hnext, -⟩, hB⟩ := List.isChain_append_cons_cons.mp h
  obtain ⟨-, hB⟩ := List.isChain_cons_cons.mp hB
  -- only the link to `n` starts at `p`
  have hkeep (a b : N) (hbn : b ≠ n) (hbx : b ≠ x) (hlink : next a = b ∧ prev b = a) :
      Function.update next p x a = b ∧ Function.update prev x p b = a := by
    have hap : a ≠ p := by
      rintro rfl
      exact hbn (hlink.1.symm.trans hnext)
    rw [Function.update_of_ne hap, Function.update_of_ne hbx]
    exact hlink
  refine List.isChain_append_cons_cons.mpr
    ⟨?_, ⟨Function.update_self .., Function.update_self ..⟩, ?_⟩
  · refine List.IsChain.imp_of_mem_tail_imp (fun a b _ hb hlink => ?_) hA
    exact hkeep a b (fun heq => hn (heq ▸ hb)) (fun heq => hx (heq ▸ hb)) hlink
  · refine List.IsChain.imp_of_mem_tail_imp (fun a b _ hb hlink => ?_) hB
    exact hkeep a b (fun heq => hn' (heq ▸ List.mem_cons_of_mem _ hb))
      (fun heq => hx' (heq ▸ hb)) hlink

end DoublyLinked

end Rmdb
