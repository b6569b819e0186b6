import Rmdb.Execution.Meta

/-!
# The values of columns

What a condition says about a tuple: numbers are compared by their value, and strings after the
shorter one is filled up with zeros, as `init_raw` fills up a constant.  The evaluators of the
source read both columns of a condition over one length; `Condition.holds` takes the two lengths as
a parameter, so that what they compute and what the condition means are two instances of it.
-/

namespace Rmdb

/-- The bytes that `ix_compare` reads of a column. -/
def compareWidth : ColType → ℕ → ℕ
  | .int, _ => 4
  | .float, _ => 4
  | .bigint, _ => 8
  | .datetime, _ => 8
  | .string, len => len

/-- A column that is no FLOAT and has the length of its type. -/
structure ColMeta.Plain (col : ColMeta) : Prop where
  not_float : col.type ≠ .float
  width : compareWidth col.type col.len = col.len

/-- A string filled up with zeros. -/
def padTo (n : ℕ) (a : Bytes) : Bytes := a ++ List.replicate (n - a.length) 0

/-- The comparison of two values of a type; a string is filled up with zeros to the length of the
other. -/
def compareValues (type : ColType) (a b : Bytes) : Ordering :=
  match type with
  | .string => memcmp (padTo b.length a) (padTo a.length b)
  | _ => compare (colVal a type a.length) (colVal b type b.length)

/-- The lengths over which the two columns of a condition are read. -/
abbrev ReadLens := ColMeta → ColMeta → ℕ × ℕ

/-- Each column is read over its own length. -/
def declaredLens : ReadLens := fun lhs rhs => (lhs.len, rhs.len)

/-- Both columns are read over the length of the left one. -/
def lhsLens : ReadLens := fun lhs _ => (lhs.len, lhs.len)

/-- Both columns are read over the length of the right one. -/
def rhsLens : ReadLens := fun _ rhs => (rhs.len, rhs.len)

/-- A condition on two columns of a tuple, read over the given lengths. -/
def ColMeta.compares (lhs rhs : ColMeta) (op : CompOp) (lens : ReadLens) (tuple : Bytes) : Bool :=
  evalCompare (compareValues lhs.type (slice tuple lhs.offset (lens lhs rhs).1)
    (slice tuple rhs.offset (lens lhs rhs).2)) op

/-- A condition holds of a tuple, its columns read over the given lengths. -/
def Condition.holds (cond : Condition) (lens : ReadLens) (cols : List ColMeta)
    (tuple : Bytes) : Bool :=
  match findCol cols cond.lhsCol, cond.rhs with
  | .ok lhs, .val raw =>
    evalCompare (compareValues lhs.type (slice tuple lhs.offset lhs.len) raw) cond.op
  | .ok lhs, .col col =>
    match findCol cols col with
    | .ok rhs => lhs.compares rhs cond.op lens tuple
    | .error _ => false
  | .error _, _ => false

/-- The two columns of a condition on strings have one declared length. -/
def Condition.EqualLens (cond : Condition) (cols : List ColMeta) : Prop :=
  ∀ c lhs rhs, cond.rhs = .col c → findCol cols cond.lhsCol = .ok lhs → findCol cols c = .ok rhs →
    lhs.type = .string → lhs.len = rhs.len

/-! ## Parts of a tuple -/

section
variable {rec l r a b : Bytes} {off len : ℕ} {type : ColType}

@[simp] theorem length_slice : (slice rec off len).length = len := by simp [slice]

theorem slice_eq (h : off + len ≤ rec.length) : slice rec off len = (rec.drop off).take len := by
  refine List.ext_getElem? fun i => ?_
  by_cases hi : i < len
  · have hlt : off + i < rec.length := by omega
    simp [slice, hi, List.getElem?_take_of_lt hi, hlt]
  · rw [List.getElem?_eq_none (by simpa using hi), List.getElem?_eq_none (by simp; omega)]

theorem slice_append_left (h : off + len ≤ l.length) :
    slice (l ++ r) off len = slice l off len := by
  rw [slice_eq h, slice_eq (by simp; omega), List.drop_append_of_le_length (by omega),
    List.take_append_of_le_length (by simp; omega)]

theorem slice_append_right (h : l.length ≤ off) :
    slice (l ++ r) off len = slice r (off - l.length) len := by
  refine List.map_congr_left fun i _ => ?_
  have hsub : off + i - l.length = off - l.length + i := by omega
  rw [List.getD_eq_getElem?_getD, List.getElem?_append_right (by omega), hsub,
    List.getD_eq_getElem?_getD]

@[simp] theorem length_patch (rec : Bytes) (offset : ℕ) (src : Bytes) (len : ℕ) :
    (patch rec offset src len).length = rec.length := by
  simp [patch]

theorem getD_patch_of_not_mem {i : ℕ} {src : Bytes} (h : i < off ∨ off + len ≤ i) :
    (patch rec off src len).getD i 0 = rec.getD i 0 := by
  rw [patch, List.getD_eq_getElem?_getD, List.getD_eq_getElem?_getD, List.getElem?_mapIdx]
  cases rec[i]? with
  | none => rfl
  | some b => simp only [Option.map_some, if_neg (show ¬ (off ≤ i ∧ i < off + len) by omega)]

/-- What was copied into a record stands there. -/
theorem slice_patch {src : Bytes} (h : off + src.length ≤ rec.length) :
    slice (patch rec off src src.length) off src.length = src := by
  rw [slice_eq (by rw [length_patch]; exact h)]
  refine List.ext_getElem? fun i => ?_
  by_cases hi : i < src.length
  · rw [List.getElem?_take_of_lt hi, List.getElem?_drop, patch, List.getElem?_mapIdx,
      List.getElem?_eq_getElem (show off + i < rec.length by omega), Option.map_some,
      if_pos (by omega), Nat.add_sub_cancel_left, List.getD_eq_getElem?_getD,
        List.getElem?_eq_getElem hi,
      Option.getD_some]
  · rw [List.getElem?_eq_none (by simp; omega), List.getElem?_eq_none (by omega)]

theorem slice_congr {rec' : Bytes}
    (h : ∀ i, off ≤ i → i < off + len → rec.getD i 0 = rec'.getD i 0) :
    slice rec off len = slice rec' off len := by
  refine List.map_congr_left fun i hi => h (off + i) (by omega) ?_
  have := List.mem_range.mp hi
  omega

/-! ## Comparing values -/

/-- What is read of a number does not depend on a declared length. -/
theorem compareWidth_of_ne (h : type ≠ .string) (len len' : ℕ) :
    compareWidth type len = compareWidth type len' := by
  cases type with
  | string => exact absurd rfl h
  | int => rfl
  | float => rfl
  | bigint => rfl
  | datetime => rfl

theorem padTo_of_le {n : ℕ} (h : n ≤ a.length) : padTo n a = a := by
  simp [padTo, Nat.sub_eq_zero_of_le h]

theorem compareValues_string (h : a.length = b.length) :
    compareValues .string a b = memcmp a b := by
  rw [compareValues, padTo_of_le h.ge, padTo_of_le h.le]

/-- `ix_compare` compares the values in the bytes that it reads. -/
theorem ixCompareCol_eq_compareValues (hfloat : type ≠ .float)
    (hwidth : compareWidth type len = len) (ha : len ≤ a.length) (hb : len ≤ b.length) :
    ixCompareCol a b type len = compareValues type (a.take len) (b.take len) := by
  have hla : (a.take len).length = len := by simpa using ha
  have hlb : (b.take len).length = len := by simpa using hb
  cases type with
  | float => exact absurd rfl hfloat
  | string => rw [compareValues_string (hla.trans hlb.symm)]; rfl
  | int =>
    obtain rfl : 4 = len := hwidth
    simp only [ixCompareCol, compareValues, colVal, List.take_take, Nat.min_self]
  | bigint =>
    obtain rfl : 8 = len := hwidth
    simp only [ixCompareCol, compareValues, colVal, List.take_take, Nat.min_self]
  | datetime =>
    obtain rfl : 8 = len := hwidth
    simp only [ixCompareCol, compareValues, colVal, List.take_take, Nat.min_self]

theorem leNat_lt (a : Bytes) : leNat a < 256 ^ a.length := by
  induction a with
  | nil => simp [leNat]
  | cons x a ih =>
    have hx : x.toNat < 256 := x.toNat_lt
    rw [leNat, List.length_cons, pow_succ]
    omega

theorem leNat_inj (hlen : a.length = b.length) (h : leNat a = leNat b) : a = b := by
  induction a generalizing b with
  | nil => exact (List.length_eq_zero_iff.mp hlen.symm).symm
  | cons x a ih =>
    cases b with
    | nil => cases hlen
    | cons y b =>
      have hx : x.toNat < 256 := x.toNat_lt
      have hy : y.toNat < 256 := y.toNat_lt
      rw [leNat, leNat] at h
      have hxy : x = y := UInt8.toNat_inj.mp (by omega)
      rw [hxy, ih (Nat.succ.inj hlen) (by omega)]

theorem signed_inj {w m n : ℕ} (hm : m < 2 ^ w) (hn : n < 2 ^ w)
    (h : signed w m = signed w n) : m = n := by
  have hm' : (m : ℤ) < 2 ^ w := by exact_mod_cast hm
  have hn' : (n : ℤ) < 2 ^ w := by exact_mod_cast hn
  unfold signed at h
  split at h <;> split at h <;> omega

theorem memcmp_eq_eq (h : a.length = b.length) : memcmp a b = .eq ↔ a = b := by
  induction a generalizing b with
  | nil => simp [memcmp, (List.length_eq_zero_iff.mp h.symm)]
  | cons x a ih =>
    cases b with
    | nil => cases h
    | cons y b =>
      rw [memcmp, Ordering.then_eq_eq, compare_eq_iff_eq, ih (Nat.succ.inj h), List.cons.injEq,
        UInt8.toNat_inj]

/-- Values of one length are equal when their bytes are. -/
theorem compareValues_eq_eq (hfloat : type ≠ .float) (hwidth : compareWidth type len = len)
    (ha : a.length = len) (hb : b.length = len) : compareValues type a b = .eq ↔ a = b := by
  have hnum {w : ℕ} (hw : 256 ^ len = 2 ^ w)
      (h : signed w (leNat a) = signed w (leNat b)) : a = b :=
    leNat_inj (ha.trans hb.symm) (signed_inj (hw ▸ ha ▸ leNat_lt a) (hw ▸ hb ▸ leNat_lt b) h)
  have htake {x : Bytes} (hx : x.length = len) : x.take len = x := List.take_of_length_le hx.le
  cases type with
  | float => exact absurd rfl hfloat
  | string => rw [compareValues_string (ha.trans hb.symm), memcmp_eq_eq (ha.trans hb.symm)]
  | int =>
    obtain rfl : 4 = len := hwidth
    simp only [compareValues, colVal, htake ha, htake hb, compare_eq_iff_eq]
    exact ⟨hnum (by norm_num), fun h => h ▸ rfl⟩
  | bigint =>
    obtain rfl : 8 = len := hwidth
    simp only [compareValues, colVal, htake ha, htake hb, compare_eq_iff_eq]
    exact ⟨hnum (by norm_num), fun h => h ▸ rfl⟩
  | datetime =>
    obtain rfl : 8 = len := hwidth
    simp only [compareValues, colVal, htake ha, htake hb, compare_eq_iff_eq]
    exact ⟨hnum (by norm_num), fun h => h ▸ rfl⟩

end

end Rmdb
