import Mathlib.Order.Std
import Rmdb.Execution.ColumnValues
import Rmdb.Index.IxScan

/-!
# The order of keys

Keys of `INT`, `BIGINT`, `DATETIME` and `CHAR` columns, compared by `ix_compare`
(`index/ix_index_handle.h`) column by column.  `keyValues` says what a key stands for: numbers are
one signed integer, strings a list of unsigned bytes. `ix_compare` is the lexicographic order of
these values, so the keys of an index are in a linear order, and the results on B+ trees over a
linear order are about keys as they are stored.
-/

namespace Rmdb

/-- A column of a key. -/
inductive KeyCol
  | int
  | bigint
  | datetime
  | char (len : ℕ)
deriving DecidableEq, Repr

namespace KeyCol

def type : KeyCol → ColType
  | int => .int
  | bigint => .bigint
  | datetime => .datetime
  | char _ => .string

/-- The length that the grammar gives to the column. -/
def len : KeyCol → ℕ
  | int => 4
  | bigint => 8
  | datetime => 8
  | char len => len

/-- What the bytes of a column stand for. -/
def value (col : KeyCol) (bs : Bytes) : List ℤ :=
  match col with
  | int => [signed 32 (leNat bs)]
  | bigint => [signed 64 (leNat bs)]
  | datetime => [signed 64 (leNat bs)]
  | char _ => bs.map fun b => (b.toNat : ℤ)

end KeyCol

/-- `col_types_` and `col_lens_` of an index. -/
def keyCols (cols : List KeyCol) : List (ColType × ℕ) := cols.map fun col => (col.type, col.len)

/-- The bytes of a key of an index. -/
structure Key (cols : List KeyCol) where
  bytes : Bytes
  length : bytes.length = (cols.map KeyCol.len).sum
deriving DecidableEq

/-- What the columns of a key stand for. -/
def keyValues : List KeyCol → Bytes → List (List ℤ)
  | [], _ => []
  | col :: cols, bs => col.value (bs.take col.len) :: keyValues cols (bs.drop col.len)

/-- The lexicographic order of the columns' values. -/
def compareKeyValues : List (List ℤ) → List (List ℤ) → Ordering :=
  List.compareLex (List.compareLex compare)

namespace Key

variable {cols : List KeyCol}

instance : Ord (Key cols) := ⟨fun a b => ixCompare (keyCols cols) a.bytes b.bytes⟩

def values (key : Key cols) : List (List ℤ) := keyValues cols key.bytes

end Key

/-! ## Columns -/

theorem compare_natCast (m n : ℕ) : compare (m : ℤ) (n : ℤ) = compare m n := by
  rcases Nat.lt_trichotomy m n with hlt | heq | hgt
  · rw [compare_lt_iff_lt.mpr hlt, compare_lt_iff_lt.mpr (Int.ofNat_lt.mpr hlt)]
  · rw [heq, compare_eq_iff_eq.mpr rfl, compare_eq_iff_eq.mpr rfl]
  · rw [compare_gt_iff_gt.mpr hgt, compare_gt_iff_gt.mpr (Int.ofNat_lt.mpr hgt)]

theorem memcmp_eq_compareLex {as bs : Bytes} (h : as.length = bs.length) :
    memcmp as bs =
      List.compareLex compare (as.map fun b => (b.toNat : ℤ)) (bs.map fun b => (b.toNat : ℤ)) := by
  induction as generalizing bs with
  | nil =>
    obtain rfl : bs = [] := List.length_eq_zero_iff.mp h.symm
    rfl
  | cons a as ih =>
    obtain ⟨b, bs, rfl⟩ : ∃ b bs', bs = b :: bs' := List.exists_cons_of_length_eq_add_one h.symm
    rw [memcmp, List.map_cons, List.map_cons, List.compareLex_cons_cons, ih (Nat.succ.inj h),
      compare_natCast]

theorem compareLex_singleton (x y : ℤ) : List.compareLex compare [x] [y] = compare x y := by
  rw [List.compareLex_cons_cons, List.compareLex_nil_nil, Ordering.then_eq]

theorem KeyCol.ixCompareCol_eq (col : KeyCol) {a b : Bytes} (h : a.length = b.length) :
    ixCompareCol a b col.type col.len =
      List.compareLex compare (col.value (a.take col.len)) (col.value (b.take col.len)) := by
  cases col with
  | int => exact (compareLex_singleton _ _).symm
  | bigint => exact (compareLex_singleton _ _).symm
  | datetime => exact (compareLex_singleton _ _).symm
  | char len =>
    apply memcmp_eq_compareLex
    rw [List.length_take, List.length_take, h]

/-- The value of a column tells its bytes. -/
theorem KeyCol.value_injective (col : KeyCol) {a b : Bytes} (ha : a.length = col.len)
    (hb : b.length = col.len) (h : col.value a = col.value b) : a = b := by
  have hlen : a.length = b.length := by omega
  have ha' := leNat_lt a
  have hb' := leNat_lt b
  rw [ha] at ha'
  rw [hb] at hb'
  cases col with
  | int => exact leNat_inj hlen (signed_inj ha' hb' (List.singleton_injective h))
  | bigint => exact leNat_inj hlen (signed_inj ha' hb' (List.singleton_injective h))
  | datetime => exact leNat_inj hlen (signed_inj ha' hb' (List.singleton_injective h))
  | char len =>
    refine List.map_injective_iff.mpr (fun x y hxy => ?_) h
    exact UInt8.toNat_inj.mp (Int.ofNat_inj.mp hxy)

/-! ## Keys -/

namespace Key

variable {cols : List KeyCol}

/-- `ix_compare` is the lexicographic order of the columns' values. -/
theorem ixCompare_eq_compareKeyValues {a b : Bytes} (h : a.length = b.length) :
    ixCompare (keyCols cols) a b = compareKeyValues (keyValues cols a) (keyValues cols b) := by
  induction cols generalizing a b with
  | nil => rfl
  | cons col cols ih =>
    have hdrop : (a.drop col.len).length = (b.drop col.len).length := by
      rw [List.length_drop, List.length_drop, h]
    have hrest := ih hdrop
    rw [compareKeyValues] at hrest ⊢
    rw [keyValues, keyValues, List.compareLex_cons_cons, ← hrest, ← col.ixCompareCol_eq h]
    rfl

theorem keyValues_injective {a b : Bytes} (ha : a.length = (cols.map KeyCol.len).sum)
    (hb : b.length = (cols.map KeyCol.len).sum) (h : keyValues cols a = keyValues cols b) :
    a = b := by
  induction cols generalizing a b with
  | nil => rw [List.length_eq_zero_iff.mp ha, List.length_eq_zero_iff.mp hb]
  | cons col cols ih =>
    rw [List.map_cons, List.sum_cons] at ha hb
    obtain ⟨hcol, hcols⟩ := List.cons.inj h
    have htake : a.take col.len = b.take col.len := by
      apply col.value_injective _ _ hcol
      · rw [List.length_take]
        omega
      · rw [List.length_take]
        omega
    have hdrop : a.drop col.len = b.drop col.len := by
      apply ih _ _ hcols
      · rw [List.length_drop]
        omega
      · rw [List.length_drop]
        omega
    rw [← List.take_append_drop col.len a, htake, hdrop, List.take_append_drop]

theorem compare_eq_values (a b : Key cols) : compare a b = compareKeyValues a.values b.values :=
  ixCompare_eq_compareKeyValues (a.length.trans b.length.symm)

theorem values_injective {a b : Key cols} (h : a.values = b.values) : a = b := by
  cases a with
  | mk a ha =>
    cases b with
    | mk b hb =>
      obtain rfl : a = b := keyValues_injective ha hb h
      rfl

instance : Std.TransCmp compareKeyValues :=
  inferInstanceAs (Std.TransCmp (List.compareLex (List.compareLex compare)))

instance : Std.LawfulEqCmp compareKeyValues :=
  inferInstanceAs (Std.LawfulEqCmp (List.compareLex (List.compareLex compare)))

instance : Std.TransOrd (Key cols) where
  eq_swap {a b} := by
    rw [compare_eq_values, compare_eq_values b a]
    exact Std.OrientedCmp.eq_swap
  isLE_trans {a b c} := by
    rw [compare_eq_values, compare_eq_values b c, compare_eq_values a c]
    exact Std.TransCmp.isLE_trans

instance : Std.LawfulEqOrd (Key cols) where
  eq_of_compare {a b} h := by
    rw [compare_eq_values] at h
    exact values_injective (Std.LawfulEqCmp.eq_of_compare h)

/-- Keys in the order of `ix_compare`. -/
instance : LinearOrder (Key cols) := .ofStd (Key cols)

end Key

/-! ## Search in a node -/

section
variable {K : Type} [LinearOrder K] {n : IxNode K}

/-- `lower_bound` counts the keys below the target. -/
theorem IxNode.lowerBound_eq (h : n.pairs.Pairwise fun e e' => e.1 < e'.1) (target : K) :
    n.lowerBound target = n.pairs.countP fun e => (compare e.1 target).isLT :=
  Blocks.bisect_eq_countP (downward_lt h)

/-- `upper_bound` counts the keys that are not above the target. -/
theorem IxNode.upperBound_eq (h : n.pairs.Pairwise fun e e' => e.1 < e'.1) (target : K) :
    n.upperBound target = n.pairs.countP fun e => (compare e.1 target).isLE :=
  Blocks.bisect_eq_countP (downward_le h)

end

/-- `ix_compare` on the keys of an index is a total order, and the searches of a node count by
it. -/
structure KeyOrder (cols : List KeyCol) : Prop where
  lexicographic : ∀ a b : Key cols, ixCompare (keyCols cols) a.bytes b.bytes =
    compareKeyValues (keyValues cols a.bytes) (keyValues cols b.bytes)
  equal : ∀ a b : Key cols, ixCompare (keyCols cols) a.bytes b.bytes = .eq ↔ a.bytes = b.bytes
  antisymmetric : ∀ a b : Key cols,
    ixCompare (keyCols cols) b.bytes a.bytes = (ixCompare (keyCols cols) a.bytes b.bytes).swap
  transitive : ∀ a b c : Key cols, (ixCompare (keyCols cols) a.bytes b.bytes).isLE = true →
    (ixCompare (keyCols cols) b.bytes c.bytes).isLE = true →
      (ixCompare (keyCols cols) a.bytes c.bytes).isLE = true
  total : ∀ a b : Key cols, (ixCompare (keyCols cols) a.bytes b.bytes).isLE = true ∨
    (ixCompare (keyCols cols) b.bytes a.bytes).isLE = true
  lowerBound : ∀ (n : IxNode (Key cols)) (target : Key cols),
    n.pairs.Pairwise (fun e e' => ixCompare (keyCols cols) e.1.bytes e'.1.bytes = .lt) →
      n.lowerBound target = n.pairs.countP fun e =>
        ixCompare (keyCols cols) e.1.bytes target.bytes = .lt
  upperBound : ∀ (n : IxNode (Key cols)) (target : Key cols),
    n.pairs.Pairwise (fun e e' => ixCompare (keyCols cols) e.1.bytes e'.1.bytes = .lt) →
      n.upperBound target = n.pairs.countP fun e =>
        (ixCompare (keyCols cols) e.1.bytes target.bytes).isLE

theorem key_order (cols : List KeyCol) : KeyOrder cols where
  lexicographic a b := Key.compare_eq_values a b
  equal a b := by
    constructor
    · intro h
      have hab : a = b := compare_eq_iff_eq.mp (show compare a b = .eq from h)
      rw [hab]
    · intro h
      have hab : a = b := Key.values_injective (congrArg (keyValues cols) h)
      exact compare_eq_iff_eq.mpr hab
  antisymmetric a b := Std.OrientedOrd.eq_swap (a := b) (b := a)
  transitive a b c hab hbc := by
    have hab : a ≤ b := isLE_compare_iff.mp hab
    have hbc : b ≤ c := isLE_compare_iff.mp hbc
    exact isLE_compare_iff.mpr (hab.trans hbc)
  total a b := by
    rcases le_total a b with hab | hba
    · exact .inl (isLE_compare_iff.mpr hab)
    · exact .inr (isLE_compare_iff.mpr hba)
  lowerBound n target h := by
    have hsorted : n.pairs.Pairwise fun e e' => e.1 < e'.1 :=
      h.imp fun hlt => compare_lt_iff_lt.mp hlt
    rw [n.lowerBound_eq hsorted]
    exact List.countP_congr fun e _ => by rw [Ordering.isLT_iff_eq_lt, decide_eq_true_eq]; rfl
  upperBound n target h :=
    n.upperBound_eq (h.imp fun hlt => compare_lt_iff_lt.mp hlt) target

/-- The bytes of `-1` are above those of `1`, the number is below it. -/
example : ixCompare (keyCols [.int, .char 1]) [255, 255, 255, 255, 97]
    [1, 0, 0, 0, 97] = .lt := by decide

end Rmdb
