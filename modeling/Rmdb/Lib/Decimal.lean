import Mathlib.Data.List.Induction
import Mathlib.Data.Nat.Log
import Mathlib.Order.Compare
import Mathlib.Tactic.Ring

/-!
# Decimal numbers in bytes

`decVal` reads a row of decimal digits and `decDigits w` writes the last `w` digits of a number,
both with the highest digit first.  They are inverse to each other on rows of digits, and rows of
one length are ordered like their numbers.
-/

namespace Rmdb

/-- `isdigit`. -/
def isDigit (b : UInt8) : Bool := 48 ≤ b.toNat && b.toNat ≤ 57

/-- The number that a row of digits stands for. -/
def decVal (bs : List UInt8) : ℕ := bs.foldl (fun n b => 10 * n + (b.toNat - 48)) 0

/-- The last `w` digits of a number. -/
def decDigits : ℕ → ℕ → List UInt8
  | 0, _ => []
  | w + 1, n => decDigits w (n / 10) ++ [UInt8.ofNat (48 + n % 10)]

/-- A number with at least `w` digits: `%0wd`. -/
def decPadded (w n : ℕ) : List UInt8 := decDigits (max w (Nat.log 10 n + 1)) n

/-- Only digits. -/
def Digits (bs : List UInt8) : Prop := ∀ b ∈ bs, isDigit b = true

/-- The upper part decides first. -/
theorem compare_mul_add {a b p r s : ℕ} (hr : r < p) (hs : s < p) :
    compare (a * p + r) (b * p + s) = (compare a b).then (compare r s) := by
  rcases Nat.lt_trichotomy a b with hlt | rfl | hgt
  · have hmul : (a + 1) * p ≤ b * p := Nat.mul_le_mul_right _ hlt
    rw [Nat.add_mul, Nat.one_mul] at hmul
    rw [compare_lt_iff_lt.2 hlt, compare_lt_iff_lt.2 (show a * p + r < b * p + s by omega)]
    rfl
  · rw [compare_eq_iff_eq.2 (rfl : a = a), Ordering.then]
    rcases Nat.lt_trichotomy r s with hlt | rfl | hgt
    · rw [compare_lt_iff_lt.2 hlt, compare_lt_iff_lt.2 (Nat.add_lt_add_left hlt _)]
    · rw [compare_eq_iff_eq.2 (rfl : r = r), compare_eq_iff_eq.2 rfl]
    · rw [compare_gt_iff_gt.2 hgt, compare_gt_iff_gt.2 (Nat.add_lt_add_left hgt _)]
  · have hmul : (b + 1) * p ≤ a * p := Nat.mul_le_mul_right _ hgt
    rw [Nat.add_mul, Nat.one_mul] at hmul
    rw [compare_gt_iff_gt.2 hgt, compare_gt_iff_gt.2 (show b * p + s < a * p + r by omega)]
    rfl

theorem compare_mul {p : ℕ} (hp : 0 < p) (a b : ℕ) : compare (a * p) (b * p) = compare a b := by
  have h := compare_mul_add (a := a) (b := b) hp hp
  rwa [Nat.add_zero, Nat.add_zero, compare_eq_iff_eq.2 (rfl : 0 = 0), Ordering.then_eq] at h

section
variable {bs cs : List UInt8} {b c : UInt8} {w n : ℕ}

theorem toNat_digit (n : ℕ) : (UInt8.ofNat (48 + n % 10)).toNat = 48 + n % 10 := by
  rw [UInt8.toNat_ofNat']
  omega

theorem isDigit_digit (n : ℕ) : isDigit (UInt8.ofNat (48 + n % 10)) = true := by
  have := toNat_digit n
  simp only [isDigit, Bool.and_eq_true, decide_eq_true_eq]
  omega

theorem isDigit_bounds (h : isDigit b = true) : 48 ≤ b.toNat ∧ b.toNat ≤ 57 := by
  simpa [isDigit] using h

theorem decVal_concat (bs : List UInt8) (b : UInt8) :
    decVal (bs ++ [b]) = 10 * decVal bs + (b.toNat - 48) := by
  rw [decVal, List.foldl_append]
  rfl

theorem decVal_append (bs cs : List UInt8) :
    decVal (bs ++ cs) = decVal bs * 10 ^ cs.length + decVal cs := by
  induction cs using List.reverseRecOn with
  | nil => simp [decVal]
  | append_singleton cs c ih =>
    rw [← List.append_assoc, decVal_concat, decVal_concat, ih, List.length_append,
      List.length_singleton, pow_succ]
    ring

theorem decVal_cons (b : UInt8) (bs : List UInt8) :
    decVal (b :: bs) = (b.toNat - 48) * 10 ^ bs.length + decVal bs := by
  rw [← List.singleton_append, decVal_append]
  simp [decVal]

theorem Digits.of_append (h : Digits (bs ++ cs)) : Digits bs ∧ Digits cs :=
  ⟨fun b hb => h b (List.mem_append_left _ hb), fun c hc => h c (List.mem_append_right _ hc)⟩

theorem decVal_lt (h : Digits bs) : decVal bs < 10 ^ bs.length := by
  induction bs using List.reverseRecOn with
  | nil => simp [decVal]
  | append_singleton bs b ih =>
    obtain ⟨hbs, hb⟩ := h.of_append
    have hlt := ih hbs
    have hdigit := isDigit_bounds (hb b (List.mem_singleton_self b))
    rw [decVal_concat, List.length_append, List.length_singleton, pow_succ]
    omega

@[simp] theorem length_decDigits (w n : ℕ) : (decDigits w n).length = w := by
  induction w generalizing n with
  | zero => rfl
  | succ w ih => simp [decDigits, ih]

theorem digits_decDigits (w n : ℕ) : Digits (decDigits w n) := by
  induction w generalizing n with
  | zero => simp [decDigits, Digits]
  | succ w ih =>
    intro b hb
    rcases List.mem_append.mp hb with hb | hb
    · exact ih _ b hb
    · rw [List.mem_singleton.mp hb]
      exact isDigit_digit n

theorem decVal_decDigits (h : n < 10 ^ w) : decVal (decDigits w n) = n := by
  induction w generalizing n with
  | zero =>
    rw [Nat.pow_zero] at h
    simp [decDigits, decVal]
    omega
  | succ w ih =>
    rw [pow_succ] at h
    rw [decDigits, decVal_concat, ih (by omega), toNat_digit]
    omega

theorem decDigits_decVal (h : Digits bs) : decDigits bs.length (decVal bs) = bs := by
  induction bs using List.reverseRecOn with
  | nil => rfl
  | append_singleton bs b ih =>
    obtain ⟨hbs, hb⟩ := h.of_append
    have hdigit := isDigit_bounds (hb b (List.mem_singleton_self b))
    rw [decVal_concat, List.length_append, List.length_singleton, decDigits,
      show (10 * decVal bs + (b.toNat - 48)) / 10 = decVal bs by omega,
      show (10 * decVal bs + (b.toNat - 48)) % 10 = b.toNat - 48 by omega, ih hbs,
      show 48 + (b.toNat - 48) = b.toNat by omega, UInt8.ofNat_toNat]

theorem decPadded_eq (h : n < 10 ^ w) (hw : 0 < w) : decPadded w n = decDigits w n := by
  have hlog : Nat.log 10 n < w := by
    by_cases hn : n = 0
    · simpa [hn] using hw
    · exact (Nat.log_lt_iff_lt_pow (by decide) hn).mpr h
  rw [decPadded, max_eq_left hlog]

end

end Rmdb
