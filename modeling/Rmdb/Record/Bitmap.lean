import Mathlib.Data.Finset.Card
import Mathlib.Data.Finset.Range
import Rmdb.Defs

/-!
# Bitmaps

A model of `record/bitmap.h`.  A bitmap is the sequence of bytes from its first address on, and the
bits of a byte are numbered from the highest one.
-/

namespace Rmdb

namespace Bitmap

variable {bm : ℕ → UInt8} {pos q n : ℕ}

def getBucket (pos : ℕ) : ℕ := pos / 8

def getBit (pos : ℕ) : UInt8 := 0x80 >>> UInt8.ofNat (pos % 8)

/-- `init`: the first `size` bytes become zero. -/
def init (bm : ℕ → UInt8) (size : ℕ) : ℕ → UInt8 := fun i => if i < size then 0 else bm i

def set (bm : ℕ → UInt8) (pos : ℕ) : ℕ → UInt8 :=
  Function.update bm (getBucket pos) (bm (getBucket pos) ||| getBit pos)

def reset (bm : ℕ → UInt8) (pos : ℕ) : ℕ → UInt8 :=
  Function.update bm (getBucket pos) (bm (getBucket pos) &&& ~~~getBit pos)

def isSet (bm : ℕ → UInt8) (pos : ℕ) : Bool := bm (getBucket pos) &&& getBit pos != 0

/-- `next_bit`: the first position in `[curr + 1, maxN)` whose bit is `bit`, or `maxN`. -/
def nextBit (bit : Bool) (bm : ℕ → UInt8) (maxN : ℕ) (curr : ℤ) : ℕ :=
  ((List.range' (curr + 1).toNat (maxN - (curr + 1).toNat)).find? fun i =>
    isSet bm i == bit).getD maxN

def firstBit (bit : Bool) (bm : ℕ → UInt8) (maxN : ℕ) : ℕ := nextBit bit bm maxN (-1)

/-! ## Single bits -/

theorem getBit_ne_zero (pos : ℕ) : getBit pos ≠ 0 := by
  have h : ∀ i < 8, (0x80 : UInt8) >>> UInt8.ofNat i ≠ 0 := by decide
  exact h _ (Nat.mod_lt _ (by decide))

theorem getBit_and_of_ne (h : pos % 8 ≠ q % 8) : getBit pos &&& getBit q = 0 := by
  have hall : ∀ i < 8, ∀ j < 8, i ≠ j →
      ((0x80 : UInt8) >>> UInt8.ofNat i) &&& ((0x80 : UInt8) >>> UInt8.ofNat j) = 0 := by decide
  exact hall _ (Nat.mod_lt _ (by decide)) _ (Nat.mod_lt _ (by decide)) h

theorem not_getBit_and_of_ne (h : pos % 8 ≠ q % 8) : ~~~getBit pos &&& getBit q = getBit q := by
  have hall : ∀ i < 8, ∀ j < 8, i ≠ j → ~~~((0x80 : UInt8) >>> UInt8.ofNat i) &&&
      ((0x80 : UInt8) >>> UInt8.ofNat j) = (0x80 : UInt8) >>> UInt8.ofNat j := by decide
  exact hall _ (Nat.mod_lt _ (by decide)) _ (Nat.mod_lt _ (by decide)) h

theorem or_and_distrib (x b c : UInt8) : (x ||| b) &&& c = x &&& c ||| b &&& c := by
  refine UInt8.toBitVec_inj.1 ?_
  rw [UInt8.toBitVec_and, UInt8.toBitVec_or, UInt8.toBitVec_or, UInt8.toBitVec_and,
    UInt8.toBitVec_and, BitVec.and_comm, BitVec.and_or_distrib_left, BitVec.and_comm,
    BitVec.and_comm c.toBitVec b.toBitVec]

/-- Positions in one byte with one bit are equal. -/
theorem eq_of_bucket (hb : getBucket q = getBucket pos) (hm : q % 8 = pos % 8) : q = pos := by
  unfold getBucket at hb
  omega

@[simp]
theorem isSet_set (bm : ℕ → UInt8) (pos q : ℕ) :
    isSet (set bm pos) q = (decide (q = pos) || isSet bm q) := by
  by_cases hb : getBucket q = getBucket pos
  · by_cases hm : q % 8 = pos % 8
    · have hq := eq_of_bucket hb hm
      subst hq
      have hne : bm (getBucket q) &&& getBit q ||| getBit q ≠ 0 := by
        intro h
        exact getBit_ne_zero q (UInt8.or_eq_zero_iff.1 h).2
      simp [isSet, set, or_and_distrib, hne]
    · have hq : q ≠ pos := fun h => hm (h ▸ rfl)
      simp [isSet, set, hb, or_and_distrib, getBit_and_of_ne (Ne.symm hm), hq]
  · have hq : q ≠ pos := fun h => hb (h ▸ rfl)
    simp [isSet, set, hb, hq]

@[simp]
theorem isSet_reset (bm : ℕ → UInt8) (pos q : ℕ) :
    isSet (reset bm pos) q = (!decide (q = pos) && isSet bm q) := by
  by_cases hb : getBucket q = getBucket pos
  · by_cases hm : q % 8 = pos % 8
    · have hq := eq_of_bucket hb hm
      subst hq
      simp [isSet, reset, UInt8.and_assoc]
    · have hq : q ≠ pos := fun h => hm (h ▸ rfl)
      simp [isSet, reset, hb, UInt8.and_assoc, not_getBit_and_of_ne (Ne.symm hm), hq]
  · have hq : q ≠ pos := fun h => hb (h ▸ rfl)
    simp [isSet, reset, hb, hq]

/-- Setting a bit leaves the bytes beyond the bitmap alone. -/
theorem set_of_ne {i : ℕ} (h : i ≠ getBucket pos) : set bm pos i = bm i :=
  Function.update_of_ne h _ _

theorem reset_of_ne {i : ℕ} (h : i ≠ getBucket pos) : reset bm pos i = bm i :=
  Function.update_of_ne h _ _

/-- A bit of a bitmap only depends on its byte. -/
theorem isSet_congr {bm' : ℕ → UInt8} (h : bm' (getBucket q) = bm (getBucket q)) :
    isSet bm' q = isSet bm q := by
  rw [isSet, isSet, h]

/-! ## Counting and searching -/

/-- The positions below `n` whose bit is set. -/
def setBits (bm : ℕ → UInt8) (n : ℕ) : Finset ℕ := (Finset.range n).filter fun i => isSet bm i

theorem mem_setBits : pos ∈ setBits bm n ↔ pos < n ∧ isSet bm pos := by
  rw [setBits, Finset.mem_filter, Finset.mem_range]

theorem setBits_congr {bm' : ℕ → UInt8} (h : ∀ i < n, isSet bm' i = isSet bm i) :
    setBits bm' n = setBits bm n := by
  refine Finset.filter_congr fun i hi => ?_
  rw [h i (Finset.mem_range.1 hi)]

theorem card_setBits_set (hpos : pos < n) (h : isSet bm pos = false) :
    (setBits (set bm pos) n).card = (setBits bm n).card + 1 := by
  have hnot : pos ∉ setBits bm n := by simp [mem_setBits, h]
  rw [← Finset.card_insert_of_notMem hnot]
  congr 1
  ext i
  simp only [Finset.mem_insert, mem_setBits, isSet_set, Bool.or_eq_true, decide_eq_true_eq]
  constructor
  · rintro ⟨hi, rfl | h⟩
    · exact .inl rfl
    · exact .inr ⟨hi, h⟩
  · rintro (rfl | ⟨hi, h⟩)
    · exact ⟨hpos, .inl rfl⟩
    · exact ⟨hi, .inr h⟩

theorem card_setBits_reset (hpos : pos < n) (h : isSet bm pos) :
    (setBits (reset bm pos) n).card + 1 = (setBits bm n).card := by
  have hmem : pos ∈ setBits bm n := mem_setBits.2 ⟨hpos, h⟩
  rw [← Finset.card_erase_add_one hmem]
  congr 2
  ext i
  simp [mem_setBits]
  tauto

/-- All bits are set exactly when the count says so. -/
theorem card_setBits_eq_iff : (setBits bm n).card = n ↔ ∀ i < n, isSet bm i := by
  constructor
  · intro h i hi
    have heq : setBits bm n = Finset.range n := by
      refine Finset.eq_of_subset_of_card_le (Finset.filter_subset _ _) ?_
      rw [h, Finset.card_range]
    exact (mem_setBits.1 (heq ▸ Finset.mem_range.2 hi)).2
  · intro h
    have heq : setBits bm n = Finset.range n := Finset.filter_true_of_mem fun i hi =>
      h i (Finset.mem_range.1 hi)
    rw [heq, Finset.card_range]

/-- `first_bit(false, …)` finds a clear bit when there is one. -/
theorem firstBit_false (h : ∃ i < n, isSet bm i = false) :
    firstBit false bm n < n ∧ isSet bm (firstBit false bm n) = false := by
  obtain ⟨i, hi, hclear⟩ := h
  unfold firstBit nextBit
  cases hfind : (List.range' ((-1 : ℤ) + 1).toNat (n - ((-1 : ℤ) + 1).toNat)).find?
      (fun i => isSet bm i == false) with
  | none =>
    have hnone := List.find?_eq_none.1 hfind i (by simpa using hi)
    simp [hclear] at hnone
  | some j =>
    have hmem := List.mem_of_find?_eq_some hfind
    have hj := List.find?_some hfind
    exact ⟨by simpa using hmem, by simpa using hj⟩

end Bitmap

end Rmdb
