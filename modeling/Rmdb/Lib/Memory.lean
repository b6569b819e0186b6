import Mathlib.Data.Int.Notation
import Mathlib.Data.Nat.Notation
import Mathlib.Data.List.Basic
import Mathlib.Tactic.Ring

/-!
# Bytes in memory

A memory gives the byte at each position, relative to some place in it.  `read` takes bytes out of
it, `store` puts bytes into it and `Holds` says that given bytes stand at a position; numbers are
stored with the least significant byte first.
-/

namespace Rmdb

/-! ## Numbers -/

/-- The last `w` bytes of a number, the least significant one first. -/
def leBytes : ℕ → ℕ → List UInt8
  | 0, _ => []
  | w + 1, n => UInt8.ofNat n :: leBytes w (n / 256)

/-- The number that bytes stand for. -/
def leNat : List UInt8 → ℕ
  | [] => 0
  | b :: bs => b.toNat + 256 * leNat bs

@[simp] theorem length_leBytes (w n : ℕ) : (leBytes w n).length = w := by
  induction w generalizing n with
  | zero => rfl
  | succ w ih => simp [leBytes, ih]

theorem leNat_leBytes {w n : ℕ} (h : n < 256 ^ w) : leNat (leBytes w n) = n := by
  induction w generalizing n with
  | zero =>
    rw [Nat.pow_zero] at h
    simp [leBytes, leNat]
    omega
  | succ w ih =>
    rw [Nat.pow_succ] at h
    have hrest : leNat (leBytes w (n / 256)) = n / 256 := ih (by omega)
    have hbyte : (UInt8.ofNat n).toNat = n % 256 := UInt8.toNat_ofNat'
    rw [leBytes, leNat, hrest, hbyte]
    omega

/-! ## Positions -/

/-- The bytes at all positions. -/
abbrev Memory := ℤ → UInt8

namespace Memory

def read (m : Memory) : ℤ → ℕ → List UInt8
  | _, 0 => []
  | p, n + 1 => m p :: read m (p + 1) n

def store (m : Memory) (p : ℤ) (bs : List UInt8) : Memory := fun i =>
  if p ≤ i ∧ i < p + bs.length then bs.getD (i - p).toNat 0 else m i

/-- The bytes stand at the position. -/
def Holds (m : Memory) (p : ℤ) (bs : List UInt8) : Prop := m.read p bs.length = bs

variable {m m' : Memory} {p : ℤ}

@[simp] theorem length_read (m : Memory) (p : ℤ) (n : ℕ) : (m.read p n).length = n := by
  induction n generalizing p with
  | zero => rfl
  | succ n ih => simp [read, ih]

theorem read_add (m : Memory) (p : ℤ) (a b : ℕ) :
    m.read p (a + b) = m.read p a ++ m.read (p + a) b := by
  induction a generalizing p with
  | zero => simp [read]
  | succ a ih =>
    rw [Nat.add_right_comm, read, ih, read, List.cons_append]
    congr 3
    omega

theorem read_congr {n : ℕ} (h : ∀ i, p ≤ i → i < p + n → m i = m' i) :
    m.read p n = m'.read p n := by
  induction n generalizing p with
  | zero => rfl
  | succ n ih =>
    rw [read, read, h p (by omega) (by omega), ih fun i hi hn => h i (by omega) (by omega)]

theorem holds_append {a b : List UInt8} :
    m.Holds p (a ++ b) ↔ m.Holds p a ∧ m.Holds (p + a.length) b := by
  unfold Holds
  rw [List.length_append, read_add]
  constructor
  · exact fun h => List.append_inj h (length_read ..)
  · rintro ⟨ha, hb⟩
    rw [ha, hb]

theorem getElem_read {n i : ℕ} (h : i < (m.read p n).length) : (m.read p n)[i] = m (p + i) := by
  induction n generalizing p i with
  | zero => cases h
  | succ n ih =>
    cases i with
    | zero => simp [read]
    | succ i =>
      simp only [read, List.getElem_cons_succ]
      rw [ih]
      congr 1
      omega

theorem holds_store (m : Memory) (p : ℤ) (bs : List UInt8) : (m.store p bs).Holds p bs := by
  unfold Holds
  refine List.ext_getElem (length_read ..) fun i hi hi' => ?_
  rw [getElem_read, store, if_pos (by omega), show (p + i - p).toNat = i by omega]
  rw [List.getD_eq_getElem?_getD, List.getElem?_eq_getElem hi', Option.getD_some]

theorem store_of_le {bs : List UInt8} {i : ℤ} (h : p + bs.length ≤ i) : m.store p bs i = m i := by
  rw [store, if_neg]
  omega

/-- Storing one row of bytes behind another. -/
theorem store_append (m : Memory) (p : ℤ) (as bs : List UInt8) :
    (m.store p as).store (p + as.length) bs = m.store p (as ++ bs) := by
  funext i
  have hlen : (as ++ bs).length = as.length + bs.length := List.length_append
  by_cases hlow : p ≤ i ∧ i < p + as.length
  · have hleft : (as ++ bs).getD (i - p).toNat 0 = as.getD (i - p).toNat 0 := by
      rw [List.getD_eq_getElem?_getD, List.getElem?_append_left (by omega),
        List.getD_eq_getElem?_getD]
    rw [store, if_neg (by omega), store, if_pos hlow, store, if_pos (by omega), hleft]
  · by_cases hhigh : p + as.length ≤ i ∧ i < p + as.length + bs.length
    · have hright : (as ++ bs).getD (i - p).toNat 0 = bs.getD ((i - p).toNat - as.length) 0 := by
        rw [List.getD_eq_getElem?_getD, List.getElem?_append_right (by omega),
          List.getD_eq_getElem?_getD]
      have hindex : (i - (p + as.length)).toNat = (i - p).toNat - as.length := by omega
      rw [store, if_pos hhigh, store, if_pos (by omega), hright, hindex]
    · rw [store, if_neg hhigh, store, if_neg hlow, store, if_neg (by omega)]

/-- Storing what stands there already. -/
theorem store_of_holds {bs : List UInt8} (h : m.Holds p bs) : m.store p bs = m := by
  funext i
  unfold store
  split
  · rename_i hi
    have hlt : (i - p).toNat < bs.length := by omega
    have hread : bs.getD (i - p).toNat 0 = (m.read p bs.length).getD (i - p).toNat 0 := by
      rw [h]
    rw [hread, List.getD_eq_getElem?_getD,
      List.getElem?_eq_getElem (by rw [length_read]; exact hlt), Option.getD_some, getElem_read]
    congr 1
    omega
  · rfl

end Memory

end Rmdb
