import Mathlib.Data.List.Basic

/-!
# Binary search

The loop that halves `[l, r)` until it is empty, on a list whose elements with `p` come first.
-/

namespace Rmdb

variable {α : Type*} {p : α → Bool} {u v : List α}

/-- The loop, with a bound for the number of its turns. -/
def bisectLoop (p : α → Bool) (a : List α) : ℕ → ℕ → ℕ → ℕ
  | 0, l, _ => l
  | fuel + 1, l, r =>
    if l < r then
      let mid := (l + r) / 2
      if a[mid]?.any p then bisectLoop p a fuel (mid + 1) r else bisectLoop p a fuel l mid
    else l

/-- The number of elements that come before the first one without `p`. -/
def bisect (p : α → Bool) (a : List α) : ℕ := bisectLoop p a a.length 0 a.length

theorem bisectLoop_append (hu : ∀ x ∈ u, p x = true) (hv : ∀ x ∈ v, p x = false) {fuel l r : ℕ}
    (hl : l ≤ u.length) (hr : u.length ≤ r) (hbound : r ≤ (u ++ v).length) (hfuel : r - l ≤ fuel) :
    bisectLoop p (u ++ v) fuel l r = u.length := by
  induction fuel generalizing l r with
  | zero =>
    unfold bisectLoop
    omega
  | succ fuel ih =>
    unfold bisectLoop
    split
    · rename_i hlt
      have hmid : (l + r) / 2 < (u ++ v).length := by omega
      simp only [List.getElem?_eq_getElem hmid, Option.any_some]
      by_cases hleft : (l + r) / 2 < u.length
      · rw [List.getElem_append_left hleft, if_pos (hu _ (List.getElem_mem hleft))]
        exact ih (by omega) hr hbound (by omega)
      · have hright : u.length ≤ (l + r) / 2 := by omega
        rw [List.getElem_append_right hright, hv _ (List.getElem_mem _), if_neg Bool.false_ne_true]
        exact ih hl hright (by omega) (by omega)
    · omega

theorem bisect_map {β : Type*} (f : β → α) (p : α → Bool) (a : List β) :
    bisect p (a.map f) = bisect (fun x => p (f x)) a := by
  have hloop (fuel l r : ℕ) : bisectLoop p (a.map f) fuel l r = bisectLoop
      (fun x => p (f x)) a fuel l r := by
    induction fuel generalizing l r with
    | zero => rfl
    | succ fuel ih =>
      rw [bisectLoop, bisectLoop]
      simp only [List.getElem?_map, Option.any_map, ih]
  rw [bisect, bisect, List.length_map, hloop]

theorem bisectLoop_le (a : List α) {fuel l r : ℕ} (hl : l ≤ a.length) (hr : r ≤ a.length) :
    bisectLoop p a fuel l r ≤ a.length := by
  induction fuel generalizing l r with
  | zero => exact hl
  | succ fuel ih =>
    unfold bisectLoop
    split
    · dsimp only
      split
      · exact ih (by omega) hr
      · exact ih hl (by omega)
    · exact hl

/-- The search stays in the list, whatever `p` is. -/
theorem bisect_le (p : α → Bool) (a : List α) : bisect p a ≤ a.length :=
  bisectLoop_le a (Nat.zero_le _) (Nat.le_refl _)

/-- The search ends where `p` does. -/
theorem bisect_append (hu : ∀ x ∈ u, p x = true) (hv : ∀ x ∈ v, p x = false) :
    bisect p (u ++ v) = u.length := by
  apply bisectLoop_append hu hv
  · exact Nat.zero_le _
  · rw [List.length_append]
    omega
  · exact Nat.le_refl _
  · omega

end Rmdb
