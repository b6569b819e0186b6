import Rmdb.Defs
import Rmdb.Lib.Decimal
import Rmdb.Lib.Memory

/-!
# Comparing keys

`ix_compare` (`index/ix_index_handle.h`) on one column and on a composite key.  Only the sign of its
result is used by its callers, so it is an `Ordering` here.  Each column is compared by an integer
that its bytes stand for: `colVal`.  `ixKey` is the list of these integers, and `ix_compare` is the
lexicographic order of them.
-/

namespace Rmdb

/-- `ColType`. -/
inductive ColType
  | int
  | float
  | bigint
  | string
  | datetime
deriving DecidableEq, Repr

/-- The number that bytes stand for, the highest byte first. -/
def beNat (bs : Bytes) : ℕ := bs.foldl (fun n b => 256 * n + b.toNat) 0

/-- A word of `w` bits read as a signed integer. -/
def signed (w n : ℕ) : ℤ := if n < 2 ^ (w - 1) then n else n - 2 ^ w

/-- The bits of a `float` are those of a NaN. -/
def isNaN (n : ℕ) : Bool := decide (n % 2 ^ 31 > 0x7f800000)

/-- The place of a `float` in the order of the numbers, from its sign and its magnitude. -/
def floatRank (n : ℕ) : ℤ := if n < 2 ^ 31 then n else -((n % 2 ^ 31 : ℕ) : ℤ)

/-- `memcmp` on buffers of one length. -/
def memcmp : Bytes → Bytes → Ordering
  | a :: as, b :: bs => (compare a.toNat b.toNat).then (memcmp as bs)
  | _, _ => .eq

/-- `ix_compare` on one column. -/
def ixCompareCol (a b : Bytes) (type : ColType) (len : ℕ) : Ordering :=
  match type with
  | .int => compare (signed 32 (leNat (a.take 4))) (signed 32 (leNat (b.take 4)))
  | .bigint => compare (signed 64 (leNat (a.take 8))) (signed 64 (leNat (b.take 8)))
  | .float =>
    -- neither `<` nor `>` holds of a NaN
    if isNaN (leNat (a.take 4)) || isNaN (leNat (b.take 4)) then .eq
    else compare (floatRank (leNat (a.take 4))) (floatRank (leNat (b.take 4)))
  | .string => memcmp (a.take len) (b.take len)
  | .datetime => compare (signed 64 (leNat (a.take 8))) (signed 64 (leNat (b.take 8)))

/-- `ix_compare` on a composite key. -/
def ixCompare : List (ColType × ℕ) → Bytes → Bytes → Ordering
  | [], _, _ => .eq
  | (type, len) :: cols, a, b =>
    (ixCompareCol a b type len).then (ixCompare cols (a.drop len) (b.drop len))

/-- The integer by which a column is compared. -/
def colVal (a : Bytes) (type : ColType) (len : ℕ) : ℤ :=
  match type with
  | .int => signed 32 (leNat (a.take 4))
  | .bigint => signed 64 (leNat (a.take 8))
  | .float => floatRank (leNat (a.take 4))
  | .string => beNat (a.take len)
  | .datetime => signed 64 (leNat (a.take 8))

/-- A composite key up to the equality of `ix_compare`. -/
abbrev IxKey := List ℤ

def ixKey : List (ColType × ℕ) → Bytes → IxKey
  | [], _ => []
  | (type, len) :: cols, a => colVal a type len :: ixKey cols (a.drop len)

/-! ## Strings -/

theorem beNat_cons (b : UInt8) (bs : Bytes) :
    beNat (b :: bs) = b.toNat * 256 ^ bs.length + beNat bs := by
  have h (n : ℕ) : bs.foldl (fun n b => 256 * n + b.toNat) n = n * 256 ^ bs.length + beNat bs := by
    induction bs generalizing n with
    | nil => simp [beNat]
    | cons c bs ih =>
      have h₁ := ih (256 * n + c.toNat)
      have h₂ := ih (256 * 0 + c.toNat)
      simp only [beNat, List.foldl_cons, List.length_cons, pow_succ] at h₁ h₂ ⊢
      rw [h₁, h₂]
      ring
  rw [beNat, List.foldl_cons, h, Nat.mul_zero, Nat.zero_add]

theorem beNat_lt (bs : Bytes) : beNat bs < 256 ^ bs.length := by
  induction bs with
  | nil => simp [beNat]
  | cons b bs ih =>
    have hb : b.toNat < 256 := b.toNat_lt
    rw [beNat_cons, List.length_cons, pow_succ]
    calc b.toNat * 256 ^ bs.length + beNat bs
        < b.toNat * 256 ^ bs.length + 256 ^ bs.length := by omega
      _ = (b.toNat + 1) * 256 ^ bs.length := by ring
      _ ≤ 256 * 256 ^ bs.length := Nat.mul_le_mul_right _ hb
      _ = 256 ^ bs.length * 256 := by ring

/-- `memcmp` is the order of the numbers that the buffers stand for. -/
theorem memcmp_eq_compare {as bs : Bytes} (h : as.length = bs.length) :
    memcmp as bs = compare (beNat as) (beNat bs) := by
  induction as generalizing bs with
  | nil =>
    obtain rfl : bs = [] := List.length_eq_zero_iff.1 h.symm
    rfl
  | cons a as ih =>
    obtain ⟨b, bs, rfl⟩ : ∃ b bs', bs = b :: bs' := by
      cases bs with
      | nil => cases h
      | cons b bs => exact ⟨b, bs, rfl⟩
    have hlen : as.length = bs.length := Nat.succ.inj h
    have ha := beNat_lt as
    rw [hlen] at ha
    rw [memcmp, ih hlen, beNat_cons, beNat_cons, hlen, compare_mul_add ha (beNat_lt bs)]

/-- `memcmp` on rows of decimal digits is the order of their numbers. -/
theorem memcmp_digits {as bs : Bytes} (h : as.length = bs.length) (ha : Digits as)
    (hb : Digits bs) : memcmp as bs = compare (decVal as) (decVal bs) := by
  induction as generalizing bs with
  | nil =>
    obtain rfl : bs = [] := List.length_eq_zero_iff.1 h.symm
    rfl
  | cons a as ih =>
    obtain ⟨b, bs, rfl⟩ : ∃ b bs', bs = b :: bs' := List.exists_cons_of_length_eq_add_one h.symm
    have hlen : as.length = bs.length := Nat.succ.inj h
    obtain ⟨ha₀, ha⟩ := List.forall_mem_cons.1 ha
    obtain ⟨hb₀, hb⟩ := List.forall_mem_cons.1 hb
    have ha₀ := isDigit_bounds ha₀
    have hb₀ := isDigit_bounds hb₀
    have hlt := decVal_lt ha
    rw [hlen] at hlt
    have hdigit : compare a.toNat b.toNat = compare (a.toNat - 48) (b.toNat - 48) := by
      rcases Nat.lt_trichotomy a.toNat b.toNat with hab | hab | hab
      · rw [compare_lt_iff_lt.2 hab,
          compare_lt_iff_lt.2 (show a.toNat - 48 < b.toNat - 48 by omega)]
      · rw [hab, compare_eq_iff_eq.2 rfl, compare_eq_iff_eq.2 rfl]
      · rw [compare_gt_iff_gt.2 hab,
          compare_gt_iff_gt.2 (show b.toNat - 48 < a.toNat - 48 by omega)]
    rw [memcmp, ih hlen ha hb, decVal_cons, decVal_cons, hlen,
      compare_mul_add hlt (decVal_lt hb), hdigit]

theorem memcmp_append {as bs cs ds : Bytes} (h : as.length = bs.length) :
    memcmp (as ++ cs) (bs ++ ds) = (memcmp as bs).then (memcmp cs ds) := by
  induction as generalizing bs with
  | nil =>
    obtain rfl : bs = [] := List.length_eq_zero_iff.1 h.symm
    rfl
  | cons a as ih =>
    obtain ⟨b, bs, rfl⟩ : ∃ b bs', bs = b :: bs' := List.exists_cons_of_length_eq_add_one h.symm
    rw [List.cons_append, List.cons_append, memcmp, memcmp, ih (Nat.succ.inj h),
      Ordering.then_assoc]

/-! ## Columns and composite keys -/

section Keys

variable {a b : Bytes} {type : ColType} {len : ℕ} {cols : List (ColType × ℕ)}

/-- A column that is compared like a number: no literal is a NaN. -/
def Comparable (a : Bytes) : ColType → Prop
  | .float => isNaN (leNat (a.take 4)) = false
  | _ => True

theorem ixCompareCol_eq_compare (hlen : a.length = b.length) (ha : Comparable a type)
    (hb : Comparable b type) :
    ixCompareCol a b type len = compare (colVal a type len) (colVal b type len) := by
  cases type with
  | float =>
    have ha : isNaN (leNat (a.take 4)) = false := ha
    have hb : isNaN (leNat (b.take 4)) = false := hb
    simp [ixCompareCol, colVal, ha, hb]
  | string =>
    have htake : (a.take len).length = (b.take len).length := by
      rw [List.length_take, List.length_take, hlen]
    rw [ixCompareCol, memcmp_eq_compare htake, colVal, colVal]
    rcases Nat.lt_trichotomy (beNat (a.take len)) (beNat (b.take len)) with hlt | heq | hgt
    · rw [compare_lt_iff_lt.2 hlt, compare_lt_iff_lt.2 (Int.ofNat_lt.2 hlt)]
    · rw [heq, compare_eq_iff_eq.2 rfl, compare_eq_iff_eq.2 rfl]
    · rw [compare_gt_iff_gt.2 hgt, compare_gt_iff_gt.2 (Int.ofNat_lt.2 hgt)]
  | int => rfl
  | bigint => rfl
  | datetime => rfl

/-- Each column of a key is compared like a number. -/
def ComparableKey : List (ColType × ℕ) → Bytes → Prop
  | [], _ => True
  | (type, len) :: cols, a => Comparable a type ∧ ComparableKey cols (a.drop len)

/-- Two keys are equal for `ix_compare` when their columns stand for the same integers. -/
theorem ixCompare_eq_iff (hlen : a.length = b.length) (ha : ComparableKey cols a)
    (hb : ComparableKey cols b) : ixCompare cols a b = .eq ↔ ixKey cols a = ixKey cols b := by
  induction cols generalizing a b with
  | nil => simp [ixCompare, ixKey]
  | cons col cols ih =>
    obtain ⟨type, len⟩ := col
    have hdrop : (a.drop len).length = (b.drop len).length := by
      rw [List.length_drop, List.length_drop, hlen]
    rw [ixCompare, ixKey, ixKey, ixCompareCol_eq_compare hlen ha.1 hb.1, Ordering.then_eq_eq,
      compare_eq_iff_eq, ih hdrop ha.2 hb.2, List.cons.injEq]

end Keys

end Rmdb
