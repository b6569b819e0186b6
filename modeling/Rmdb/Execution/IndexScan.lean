import Mathlib.Data.List.Perm.Basic
import Rmdb.Execution.Evaluators
import Rmdb.Index.RangeScan
import Rmdb.System.IndexFill

/-!
# Reading a table through an index

`IndexScanExecutor` (`execution/executor_index_scan.h`) makes the two ends of its scan from the
conditions on the columns of the index, column by column up to the first one without an equality,
and evaluates all the conditions on the records that it comes to.  It gives the records that a
sequential scan gives, in the order of their keys, unless a record is below the lower end and behind
the upper one: then the upper end of the scan comes before its lower end, and `beginTuple` throws at
the end of the last leaf.
-/

namespace Rmdb

open IxIndexHandle (before)

/-! ## The ends of the scan -/

/-- `fill_min`. -/
def fillMin (col : ColMeta) : Bytes :=
  match col.type with
  | .int => leBytes 4 0x80000000
  | .float => leBytes 4 0xff7fffff
  | .bigint => leBytes 8 0x8000000000000000
  | .datetime => leBytes 8 0x8000000000000000
  | .string => List.replicate col.len 0

/-- `fill_max`. -/
def fillMax (col : ColMeta) : Bytes :=
  match col.type with
  | .int => leBytes 4 0x7fffffff
  | .float => leBytes 4 0x7f7fffff
  | .bigint => leBytes 8 0x7fffffffffffffff
  | .datetime => leBytes 8 0x7fffffffffffffff
  | .string => List.replicate col.len 0xff

/-- `eq`, `lower_cond` and `upper_cond` of a column: the operators and the constants. -/
structure ColBounds where
  eq : Option Bytes
  lower : Option (CompOp × Bytes)
  upper : Option (CompOp × Bytes)

/-- The loop over the conditions for one column; the last condition of a kind counts. -/
def colBounds (tabName : String) (col : ColMeta) (conds : List Condition) : ColBounds :=
  conds.foldl (fun b cond =>
    match cond.rhs with
    | .col _ => b
    | .val raw =>
      if cond.lhsCol.colName ≠ col.name ∨ cond.lhsCol.tabName ≠ tabName then b
      else
        match cond.op with
        | .eq => { b with eq := some raw }
        | .ne => b
        | .gt => { b with lower := some (.gt, raw) }
        | .ge => { b with lower := some (.ge, raw) }
        | .lt => { b with upper := some (.lt, raw) }
        | .le => { b with upper := some (.le, raw) }) ⟨none, none, none⟩

/-- The local variables of `beginTuple`. -/
structure ScanBounds where
  lower : Bytes
  upper : Bytes
  stopPrefix : Bool
  lowerOpen : Bool
  upperOpen : Bool

/-- One round of the loop over the columns of the index. -/
def ScanBounds.addCol (tabName : String) (conds : List Condition) (b : ScanBounds) (col : ColMeta) :
    ScanBounds :=
  if b.stopPrefix then { b with lower := b.lower ++ fillMin col, upper := b.upper ++ fillMax col }
  else
    let found := colBounds tabName col conds
    match found.eq with
    | some raw =>
      { b with lower := b.lower ++ slice raw 0 col.len, upper := b.upper ++ slice raw 0 col.len }
    | none =>
      { lower := b.lower ++ found.lower.elim (fillMin col) fun l => slice l.2 0 col.len
        upper := b.upper ++ found.upper.elim (fillMax col) fun u => slice u.2 0 col.len
        stopPrefix := true
        lowerOpen := found.lower.elim b.lowerOpen fun l => l.1 = .gt
        upperOpen := found.upper.elim b.upperOpen fun u => u.1 = .lt }

/-- The two ends that `beginTuple` looks up. -/
def scanBounds (tabName : String) (conds : List Condition) (cols : List ColMeta) : ScanBounds :=
  cols.foldl (ScanBounds.addCol tabName conds) ⟨[], [], false, false, false⟩

/-! ## The executor -/

/-- `scan_` with the ends that `beginTuple` makes, before its conditions are evaluated; `none` is no
scan yet. -/
def ixPositions (index : IndexMeta) (ih : IxIndexHandle Bytes) (b : ScanBounds) :
    Cursor (Option (Iid × Iid)) Rid :=
  letI : Ord Bytes := ⟨ixCompare (indexColMeta index)⟩
  { rewind _ := do
      let lower ← ih.lowerIid b.lowerOpen b.lower
      let upper ← ih.upperIid b.upperOpen b.upper
      return some (lower, upper)
    advance s := do
      let (iid, upper) ← s
      return some (← ih.scanNext upper iid, upper)
    atEnd s := s.all fun (iid, upper) => iid = upper
    get s := do
      let (iid, _) ← s
      ih.getRid iid }

/-- `get_record`, with the record id. -/
def recordAt (rows : List (Rid × Bytes)) (rid : Rid) : Option (Rid × Bytes) :=
  rows.find? (·.1 = rid)

/-- `IndexScanExecutor` on a table with the given records: `rid()` and `Next()` after `beginTuple`
and each `nextTuple`.  The loops over records that fail a condition have at most `n` rounds. -/
def indexScanOn (tabName : String) (tab : TabMeta) (index : IndexMeta) (ih : IxIndexHandle Bytes)
    (rows : List (Rid × Bytes)) (conds : List Condition) (n : ℕ) :
    Cursor (Option (Iid × Iid)) (Rid × Bytes) :=
  ((ixPositions index ih (scanBounds tabName conds index.cols)).through (recordAt rows)).kept
    (fun r => (evalConditions tab r.2 conds).toOption) n

/-! ## The least and the greatest values -/

section
variable {col : ColMeta} {cols : List ColMeta} {a b x y : Bytes}

theorem length_fillMin (h : col.Plain) : (fillMin col).length = col.len := by
  have hwidth := h.width
  have hfloat := h.not_float
  unfold fillMin
  cases htype : col.type with
  | float => exact absurd htype hfloat
  | string => exact List.length_replicate
  | int => rw [← hwidth, htype]; exact length_leBytes _ _
  | bigint => rw [← hwidth, htype]; exact length_leBytes _ _
  | datetime => rw [← hwidth, htype]; exact length_leBytes _ _

theorem length_fillMax (h : col.Plain) : (fillMax col).length = col.len := by
  have hwidth := h.width
  have hfloat := h.not_float
  unfold fillMax
  cases htype : col.type with
  | float => exact absurd htype hfloat
  | string => exact List.length_replicate
  | int => rw [← hwidth, htype]; exact length_leBytes _ _
  | bigint => rw [← hwidth, htype]; exact length_leBytes _ _
  | datetime => rw [← hwidth, htype]; exact length_leBytes _ _

theorem memcmp_zeros_ne_lt (a : Bytes) : memcmp a (List.replicate a.length 0) ≠ .lt := by
  induction a with
  | nil => exact Ordering.noConfusion
  | cons x a ih =>
    rw [List.length_cons, List.replicate_succ, memcmp, Ne, Ordering.then_eq_lt, not_or, not_and]
    exact ⟨fun hlt => Nat.not_lt_zero _ (compare_lt_iff_lt.mp hlt), fun _ => ih⟩

theorem memcmp_ones_ne_gt (a : Bytes) : memcmp a (List.replicate a.length 0xff) ≠ .gt := by
  induction a with
  | nil => exact Ordering.noConfusion
  | cons x a ih =>
    rw [List.length_cons, List.replicate_succ, memcmp, Ne, Ordering.then_eq_gt, not_or, not_and]
    exact ⟨fun hgt => Nat.not_lt.mpr (Nat.le_of_lt_succ x.toNat_lt) (compare_gt_iff_gt.mp hgt),
      fun _ => ih⟩

theorem signed_bounds {w n : ℕ} (hn : n < 2 ^ (w + 1)) :
    -2 ^ w ≤ signed (w + 1) n ∧ signed (w + 1) n ≤ 2 ^ w - 1 := by
  have hn : (n : ℤ) < 2 ^ (w + 1) := by exact_mod_cast hn
  rw [pow_succ] at hn
  unfold signed
  rw [Nat.add_sub_cancel]
  split
  · next h =>
    have h : (n : ℤ) < 2 ^ w := by exact_mod_cast h
    omega
  · next h =>
    have h : (2 : ℤ) ^ w ≤ n := by exact_mod_cast Nat.not_lt.mp h
    rw [pow_succ]
    omega

theorem leNat_take_lt (a : Bytes) (k : ℕ) : leNat (a.take k) < 256 ^ k :=
  (leNat_lt _).trans_le (Nat.pow_le_pow_right (by decide) (List.length_take_le k a))

/-- The number of a column is between those of `fill_min` and `fill_max`. -/
theorem colVal_bounds (h : col.Plain) (hstr : col.type ≠ .string) (a : Bytes) (n m k : ℕ) :
    colVal (fillMin col) col.type n ≤ colVal a col.type m ∧ colVal a col.type m ≤ colVal
    (fillMax col) col.type k := by
  have hint := signed_bounds (w := 31) (leNat_take_lt a 4)
  have hbig := signed_bounds (w := 63) (leNat_take_lt a 8)
  have hfloat := h.not_float
  unfold fillMin fillMax
  cases htype : col.type with
  | float => exact absurd htype hfloat
  | string => exact absurd htype hstr
  | int => exact hint
  | bigint => exact hbig
  | datetime => exact hbig

/-- No value is below the one of `fill_min`. -/
theorem compareValues_fillMin (h : col.Plain) (ha : a.length = col.len) :
    compareValues col.type a (fillMin col) ≠ .lt := by
  by_cases hstr : col.type = .string
  · have hfill : fillMin col = List.replicate a.length 0 := by rw [fillMin, hstr, ha]
    rw [hstr, hfill, compareValues_string List.length_replicate.symm]
    exact memcmp_zeros_ne_lt a
  · have hnum : compareValues col.type a (fillMin col) =
        compare (colVal a col.type a.length)
          (colVal (fillMin col) col.type (fillMin col).length) := by
      unfold compareValues
      split
      · next hs => exact absurd hs hstr
      · rfl
    rw [hnum, Ne, compare_lt_iff_lt]
    exact not_lt.mpr (colVal_bounds h hstr a _ _ 0).1

/-- No value is above the one of `fill_max`. -/
theorem compareValues_fillMax (h : col.Plain) (ha : a.length = col.len) :
    compareValues col.type a (fillMax col) ≠ .gt := by
  by_cases hstr : col.type = .string
  · have hfill : fillMax col = List.replicate a.length 0xff := by rw [fillMax, hstr, ha]
    rw [hstr, hfill, compareValues_string List.length_replicate.symm]
    exact memcmp_ones_ne_gt a
  · have hnum : compareValues col.type a (fillMax col) =
        compare (colVal a col.type a.length)
          (colVal (fillMax col) col.type (fillMax col).length) := by
      unfold compareValues
      split
      · next hs => exact absurd hs hstr
      · rfl
    rw [hnum, Ne, compare_gt_iff_gt]
    exact not_lt.mpr (colVal_bounds h hstr a 0 _ _).2

/-- `ix_compare` goes by the first column, and then by the others. -/
theorem ixCompare_append (h : col.Plain) (ha : a.length = col.len) (hb : b.length = col.len)
    (types : List (ColType × ℕ)) : ixCompare ((col.type, col.len) :: types) (a ++ x) (b ++ y) =
      (compareValues col.type a b).then (ixCompare types x y) := by
  rw [ixCompare, ixCompareCol_eq_compareValues h.not_float h.width
    (by rw [List.length_append]; omega)
    (by rw [List.length_append]; omega), List.take_left' ha, List.take_left' hb, List.drop_left' ha,
    List.drop_left' hb]

end

/-! ## What the ends mean -/

/-- The part of a key that the columns have. -/
def keyPart (cols : List ColMeta) (row : Bytes) : Bytes :=
  cols.flatMap fun col => slice row col.offset col.len

/-- `ix_compare` on these columns. -/
def comparePart (cols : List ColMeta) : Bytes → Bytes → Ordering :=
  ixCompare (cols.map fun col => (col.type, col.len))

/-- The row has the values of `fill` in the columns. -/
def hasValues (fill : ColMeta → Bytes) (cols : List ColMeta) (row : Bytes) : Bool :=
  cols.all fun col => slice row col.offset col.len = fill col

/-- The row is below what a `>` or `>=` on a column leaves: below its constant, or at a constant
that is excluded with the least values in the columns that follow. -/
def belowLower (row : Bytes) (col : ColMeta) (cols : List ColMeta)
    (lower : Option (CompOp × Bytes)) : Bool :=
  lower.any fun (op, raw) =>
    let cmp := compareValues col.type (slice row col.offset col.len) raw
    cmp == .lt || cmp == .eq && op == .gt && hasValues fillMin cols row

/-- The row is above what a `<` or `<=` on a column leaves. -/
def aboveUpper (row : Bytes) (col : ColMeta) (cols : List ColMeta)
    (upper : Option (CompOp × Bytes)) : Bool :=
  upper.any fun (op, raw) =>
    let cmp := compareValues col.type (slice row col.offset col.len) raw
    cmp == .gt || cmp == .eq && op == .lt && hasValues fillMax cols row

/-- The row is below the lower end of the scan and behind the upper one: it meets the last equality
on each of the first columns, and on the first column without an equality it is below the last lower
condition and above the last upper one. -/
def pinched (tabName : String) (conds : List Condition) (row : Bytes) : List ColMeta → Bool
  | [] => false
  | col :: cols =>
    let found := colBounds tabName col conds
    match found.eq with
    | some raw =>
      compareValues col.type (slice row col.offset col.len) raw == .eq &&
        pinched tabName conds row cols
    | none => belowLower row col cols found.lower && aboveUpper row col cols found.upper

section
variable {tabName : String} {conds : List Condition} {col : ColMeta} {cols : List ColMeta}
  {b : ScanBounds} {row : Bytes}

theorem comparePart_cons (h : col.Plain) {a b x y : Bytes} (ha : a.length = col.len)
    (hb : b.length = col.len) :
    comparePart (col :: cols) (a ++ x) (b ++ y) = (compareValues col.type a b).then
    (comparePart cols x y) :=
  ixCompare_append h ha hb _

/-- A key against the least or the greatest one. -/
theorem comparePart_fill {fill : ColMeta → Bytes} {o : Ordering} (ho : o ≠ .eq)
    (hlen : ∀ col : ColMeta, col.Plain → (fill col).length = col.len)
    (hfill : ∀ (col : ColMeta) (a : Bytes), col.Plain → a.length = col.len →
      compareValues col.type a (fill col) ≠ o)
    (hcols : ∀ col ∈ cols, col.Plain) (row : Bytes) :
    comparePart cols (keyPart cols row) (cols.flatMap fill) ≠ o ∧
      (comparePart cols (keyPart cols row) (cols.flatMap fill) = .eq ↔
        hasValues fill cols row = true) := by
  induction cols with
  | nil => exact ⟨ho.symm, iff_of_true rfl rfl⟩
  | cons col cols ih =>
    obtain ⟨hcol, hcols⟩ := List.forall_mem_cons.mp hcols
    obtain ⟨hne, heq⟩ := ih hcols
    have hcons : comparePart (col :: cols) (keyPart (col :: cols) row)
      ((col :: cols).flatMap fill) =
        (compareValues col.type (slice row col.offset col.len) (fill col)).then
          (comparePart cols (keyPart cols row) (cols.flatMap fill)) :=
      comparePart_cons hcol length_slice (hlen col hcol)
    have hfirst := hfill col (slice row col.offset col.len) hcol length_slice
    rw [hcons]
    constructor
    · cases hc : compareValues col.type (slice row col.offset col.len) (fill col) with
      | lt => rwa [hc] at hfirst
      | eq => exact hne
      | gt => rwa [hc] at hfirst
    · rw [Ordering.then_eq_eq, heq, compareValues_eq_eq hcol.not_float hcol.width length_slice
        (hlen col hcol), hasValues, hasValues, List.all_cons, Bool.and_eq_true, decide_eq_true_eq]

theorem length_flatMap_fill {fill : ColMeta → Bytes}
    (hlen : ∀ col : ColMeta, col.Plain → (fill col).length = col.len)
    (hcols : ∀ col ∈ cols, col.Plain) :
    (cols.flatMap fill).length = (cols.map ColMeta.len).sum := by
  rw [List.length_flatMap]
  exact congrArg List.sum (List.map_congr_left fun col hcol => hlen col (hcols col hcol))

/-- What `beginTuple` finds for a column are conditions on it. -/
structure ColBounds.Found (tabName : String) (conds : List Condition) (col : ColMeta)
    (b : ColBounds) : Prop where
  eq : ∀ raw, b.eq = some raw → ⟨⟨tabName, col.name⟩, .eq, .val raw⟩ ∈ conds
  lower : ∀ op raw, b.lower = some (op, raw) → (op = .gt ∨ op = .ge) ∧
    ⟨⟨tabName, col.name⟩, op, .val raw⟩ ∈ conds
  upper : ∀ op raw, b.upper = some (op, raw) → (op = .lt ∨ op = .le) ∧
    ⟨⟨tabName, col.name⟩, op, .val raw⟩ ∈ conds

theorem found_colBounds (tabName : String) (conds : List Condition) (col : ColMeta) :
    (colBounds tabName col conds).Found tabName conds col := by
  refine List.foldlRecOn conds _ ⟨fun _ h => ?_, fun _ _ h => ?_, fun _ _ h => ?_⟩
    fun b hb cond hcond => ?_
  · cases h
  · cases h
  · cases h
  · obtain ⟨⟨t, name⟩, op, rhs⟩ := cond
    cases rhs with
    | col c => exact hb
    | val raw =>
      dsimp only
      split
      · exact hb
      · next hnames =>
        obtain ⟨hname, htab⟩ := not_or.mp hnames
        obtain rfl := not_not.mp hname
        obtain rfl := not_not.mp htab
        cases op with
        | eq => exact ⟨fun _ h => by cases h; exact hcond, hb.lower, hb.upper⟩
        | ne => exact hb
        | gt => exact ⟨hb.eq, fun _ _ h => by cases h; exact ⟨.inl rfl, hcond⟩, hb.upper⟩
        | ge => exact ⟨hb.eq, fun _ _ h => by cases h; exact ⟨.inr rfl, hcond⟩, hb.upper⟩
        | lt => exact ⟨hb.eq, hb.lower, fun _ _ h => by cases h; exact ⟨.inl rfl, hcond⟩⟩
        | le => exact ⟨hb.eq, hb.lower, fun _ _ h => by cases h; exact ⟨.inr rfl, hcond⟩⟩

/-- The constants of the conditions have the lengths of their columns. -/
def ConstantsFit (tabName : String) (conds : List Condition) (cols : List ColMeta) : Prop :=
  ∀ col ∈ cols, ∀ op raw, ⟨⟨tabName, col.name⟩, op, .val raw⟩ ∈ conds → raw.length = col.len

/-- The conditions that compare the columns with constants hold. -/
def MeetsConstants (tabName : String) (conds : List Condition) (cols : List ColMeta)
    (row : Bytes) : Prop :=
  ∀ col ∈ cols, ∀ op raw, ⟨⟨tabName, col.name⟩, op, .val raw⟩ ∈ conds →
    evalCompare (compareValues col.type (slice row col.offset col.len) raw) op = true

/-- The two ends of a scan: where a row is pinched, and that the rows to be found are between
them. -/
structure ScanBounds.Sound (tabName : String) (conds : List Condition) (cols : List ColMeta)
    (b : ScanBounds) (lower upper : Bytes) : Prop where
  lower_length : lower.length = (cols.map ColMeta.len).sum
  upper_length : upper.length = (cols.map ColMeta.len).sum
  pinched : ∀ row, (before b.lowerOpen (comparePart cols (keyPart cols row) lower) &&
    !before (!b.upperOpen) (comparePart cols (keyPart cols row) upper)) =
      pinched tabName conds row cols
  inside : ∀ row, MeetsConstants tabName conds cols row →
    before b.lowerOpen (comparePart cols (keyPart cols row) lower) = false ∧
      before (!b.upperOpen) (comparePart cols (keyPart cols row) upper) = true

theorem foldl_addCol_stop (hb : b.stopPrefix = true) :
    cols.foldl (ScanBounds.addCol tabName conds) b =
    { b with
      lower := b.lower ++ cols.flatMap fillMin, upper := b.upper ++ cols.flatMap fillMax } := by
  induction cols generalizing b with
  | nil => simp
  | cons col cols ih =>
    rw [List.foldl_cons, ScanBounds.addCol, if_pos hb]
    refine (ih (b := { b with lower := b.lower ++ fillMin col, upper := b.upper ++ fillMax col })
      hb).trans ?_
    simp only [List.append_assoc, List.flatMap_cons]

/-- The lower end from the first column without an equality on. -/
theorem before_lower (hcol : col.Plain) (hcols : ∀ col ∈ cols, col.Plain)
    {lower : Option (CompOp × Bytes)}
    (hfit : ∀ l ∈ lower, l.2.length = col.len) (row : Bytes) :
    before (lower.elim false fun l => l.1 = .gt)
    (comparePart (col :: cols) (keyPart (col :: cols) row)
      ((lower.elim (fillMin col) fun l => slice l.2 0 col.len) ++ cols.flatMap fillMin)) =
        belowLower row col cols lower := by
  have hfill (cols : List ColMeta) (hcols : ∀ col ∈ cols, col.Plain) :=
    comparePart_fill (o := .lt) Ordering.noConfusion (fun _ => length_fillMin)
      (fun _ _ => compareValues_fillMin) hcols row
  cases lower with
  | none =>
    have hne := (hfill (col :: cols) (List.forall_mem_cons.mpr ⟨hcol, hcols⟩)).1
    rw [List.flatMap_cons] at hne
    exact Bool.eq_false_iff.mpr fun hlt => hne (Ordering.isLT_iff_eq_lt.mp hlt)
  | some l =>
    obtain ⟨op, raw⟩ := l
    have hraw : raw.length = col.len := hfit _ rfl
    have hslice : slice raw 0 col.len = raw := by
      rw [slice_eq (by omega), List.drop_zero, List.take_of_length_le hraw.le]
    obtain ⟨hne, heq⟩ := hfill cols hcols
    simp only [Option.elim_some, hslice, belowLower, Option.any_some]
    rw [keyPart, List.flatMap_cons, comparePart_cons hcol length_slice hraw]
    cases hc : compareValues col.type (slice row col.offset col.len) raw with
    | lt => cases op <;> rfl
    | gt => cases op <;> rfl
    | eq =>
      rw [keyPart] at hne heq
      cases hrest : comparePart cols (cols.flatMap fun col => slice row col.offset col.len)
        (cols.flatMap fillMin) with
      | lt => exact absurd hrest hne
      | eq =>
        rw [heq.mp hrest]
        cases op <;> rfl
      | gt =>
        have hno : hasValues fillMin cols row = false :=
          Bool.eq_false_iff.mpr fun h => Ordering.noConfusion (hrest.symm.trans (heq.mpr h))
        rw [hno]
        cases op <;> rfl

/-- The upper end from the first column without an equality on. -/
theorem before_upper (hcol : col.Plain) (hcols : ∀ col ∈ cols, col.Plain)
    {upper : Option (CompOp × Bytes)}
    (hfit : ∀ u ∈ upper, u.2.length = col.len) (row : Bytes) :
    before (!upper.elim false fun u => u.1 = .lt)
    (comparePart (col :: cols) (keyPart (col :: cols) row)
      ((upper.elim (fillMax col) fun u => slice u.2 0 col.len) ++ cols.flatMap fillMax)) =
        !aboveUpper row col cols upper := by
  have hfill (cols : List ColMeta) (hcols : ∀ col ∈ cols, col.Plain) :=
    comparePart_fill (o := .gt) Ordering.noConfusion (fun _ => length_fillMax)
      (fun _ _ => compareValues_fillMax) hcols row
  cases upper with
  | none =>
    have hne := (hfill (col :: cols) (List.forall_mem_cons.mpr ⟨hcol, hcols⟩)).1
    rw [List.flatMap_cons] at hne
    exact Ordering.isLE_iff_ne_gt.mpr hne
  | some u =>
    obtain ⟨op, raw⟩ := u
    have hraw : raw.length = col.len := hfit _ rfl
    have hslice : slice raw 0 col.len = raw := by
      rw [slice_eq (by omega), List.drop_zero, List.take_of_length_le hraw.le]
    obtain ⟨hne, heq⟩ := hfill cols hcols
    simp only [Option.elim_some, hslice, aboveUpper, Option.any_some]
    rw [keyPart, List.flatMap_cons, comparePart_cons hcol length_slice hraw]
    cases hc : compareValues col.type (slice row col.offset col.len) raw with
    | lt => cases op <;> rfl
    | gt => cases op <;> rfl
    | eq =>
      rw [keyPart] at hne heq
      cases hrest : comparePart cols (cols.flatMap fun col => slice row col.offset col.len)
        (cols.flatMap fillMax) with
      | gt => exact absurd hrest hne
      | eq =>
        rw [heq.mp hrest]
        cases op <;> rfl
      | lt =>
        have hno : hasValues fillMax cols row = false :=
          Bool.eq_false_iff.mpr fun h => Ordering.noConfusion (hrest.symm.trans (heq.mpr h))
        rw [hno]
        cases op <;> rfl

/-- A row that meets a lower condition is not below it. -/
theorem belowLower_of_meets {lower : Option (CompOp × Bytes)}
    (h : ∀ op raw, lower = some (op, raw) →
    (op = .gt ∨ op = .ge) ∧ evalCompare
    (compareValues col.type (slice row col.offset col.len) raw) op = true) :
    belowLower row col cols lower = false := by
  cases lower with
  | none => rfl
  | some l =>
    obtain ⟨op, raw⟩ := l
    obtain ⟨hop, hmeets⟩ := h op raw rfl
    simp only [belowLower, Option.any_some]
    cases hc : compareValues col.type (slice row col.offset col.len) raw with
    | gt => rfl
    | lt =>
      rw [hc] at hmeets
      rcases hop with rfl | rfl
      · cases hmeets
      · cases hmeets
    | eq =>
      rw [hc] at hmeets
      rcases hop with rfl | rfl
      · cases hmeets
      · rfl

/-- A row that meets an upper condition is not above it. -/
theorem aboveUpper_of_meets {upper : Option (CompOp × Bytes)}
    (h : ∀ op raw, upper = some (op, raw) →
    (op = .lt ∨ op = .le) ∧ evalCompare
    (compareValues col.type (slice row col.offset col.len) raw) op = true) :
    aboveUpper row col cols upper = false := by
  cases upper with
  | none => rfl
  | some u =>
    obtain ⟨op, raw⟩ := u
    obtain ⟨hop, hmeets⟩ := h op raw rfl
    simp only [aboveUpper, Option.any_some]
    cases hc : compareValues col.type (slice row col.offset col.len) raw with
    | lt => rfl
    | gt =>
      rw [hc] at hmeets
      rcases hop with rfl | rfl
      · cases hmeets
      · cases hmeets
    | eq =>
      rw [hc] at hmeets
      rcases hop with rfl | rfl
      · cases hmeets
      · rfl

/-- The loop over the columns, before it has come to one without an equality. -/
theorem sound_foldl (hcols : ∀ col ∈ cols, col.Plain) (hfit : ConstantsFit tabName conds cols)
    (hstop : b.stopPrefix = false) (hlower : b.lowerOpen = false) (hupper : b.upperOpen = false) :
    ∃ lower upper, (cols.foldl (ScanBounds.addCol tabName conds) b).lower = b.lower ++ lower ∧
      (cols.foldl (ScanBounds.addCol tabName conds) b).upper = b.upper ++ upper ∧
      (cols.foldl (ScanBounds.addCol tabName conds) b).Sound tabName conds cols lower upper := by
  induction cols generalizing b with
  | nil =>
    refine ⟨[], [], (List.append_nil _).symm, (List.append_nil _).symm, rfl, rfl, fun row => ?_,
      fun row _ => ?_⟩
    · rw [List.foldl_nil, hlower]
      rfl
    · rw [List.foldl_nil, hlower, hupper]
      exact ⟨rfl, rfl⟩
  | cons col cols ih =>
    obtain ⟨hcol, hcols⟩ := List.forall_mem_cons.mp hcols
    obtain ⟨hfitCol, hfit⟩ := List.forall_mem_cons.mp hfit
    have hfound := found_colBounds tabName conds col
    rw [List.foldl_cons, ScanBounds.addCol, if_neg (by rw [hstop]; exact Bool.false_ne_true)]
    cases heq : (colBounds tabName col conds).eq with
    | some raw =>
      have hraw : raw.length = col.len := hfitCol _ _ (hfound.eq raw heq)
      have hslice : slice raw 0 col.len = raw := by
        rw [slice_eq (by omega), List.drop_zero, List.take_of_length_le hraw.le]
      simp only [heq, hslice]
      obtain ⟨lower, upper, hlo, hup, hsound⟩ :=
        ih (b := { b with lower := b.lower ++ raw, upper := b.upper ++ raw })
        hcols hfit hstop hlower hupper
      have hcons (row x : Bytes) : comparePart (col :: cols) (keyPart (col :: cols) row)
        (raw ++ x) =
          (compareValues col.type (slice row col.offset col.len) raw).then
            (comparePart cols (keyPart cols row) x) := by
        rw [keyPart, List.flatMap_cons]
        exact comparePart_cons hcol length_slice hraw
      refine ⟨raw ++ lower, raw ++ upper, hlo.trans (List.append_assoc _ _ _),
        hup.trans (List.append_assoc _ _ _), ?_, ?_,
        fun row => ?_, fun row hmeets => ?_⟩
      · rw [List.length_append, hsound.lower_length, hraw, List.map_cons, List.sum_cons]
      · rw [List.length_append, hsound.upper_length, hraw, List.map_cons, List.sum_cons]
      · have hrest := hsound.pinched row
        rw [hcons, hcons, pinched]
        simp only [heq]
        -- a row with another value in this column is outside of both ends
        cases compareValues col.type (slice row col.offset col.len) raw with
        | eq => exact hrest
        | lt =>
          cases (cols.foldl (ScanBounds.addCol tabName conds)
            { b with lower := b.lower ++ raw, upper := b.upper ++ raw }).upperOpen
          · exact Bool.and_false _
          · exact Bool.and_false _
        | gt =>
          cases (cols.foldl (ScanBounds.addCol tabName conds)
            { b with lower := b.lower ++ raw, upper := b.upper ++ raw }).lowerOpen
          · exact Bool.false_and _
          · exact Bool.false_and _
      · obtain ⟨hmeetsCol, hmeets⟩ := List.forall_mem_cons.mp hmeets
        have hvalue : compareValues col.type (slice row col.offset col.len) raw = .eq :=
          beq_iff_eq.mp (hmeetsCol _ _ (hfound.eq raw heq))
        rw [hcons, hcons, hvalue]
        exact hsound.inside row hmeets
    | none =>
      have hfitLower (l : CompOp × Bytes) (hl : l ∈ (colBounds tabName col conds).lower) :
        l.2.length = col.len :=
        hfitCol _ _ (hfound.lower l.1 l.2 hl).2
      have hfitUpper (u : CompOp × Bytes) (hu : u ∈ (colBounds tabName col conds).upper) :
        u.2.length = col.len :=
        hfitCol _ _ (hfound.upper u.1 u.2 hu).2
      simp only [heq, hlower, hupper]
      rw [foldl_addCol_stop rfl]
      refine ⟨_, _, List.append_assoc _ _ _, List.append_assoc _ _ _, ?_, ?_, fun row => ?_,
        fun row hmeets => ?_⟩
      · rw [List.length_append, length_flatMap_fill (fun _ => length_fillMin) hcols, List.map_cons,
          List.sum_cons]
        congr 1
        cases (colBounds tabName col conds).lower with
        | none => exact length_fillMin hcol
        | some l => exact length_slice
      · rw [List.length_append, length_flatMap_fill (fun _ => length_fillMax) hcols, List.map_cons,
          List.sum_cons]
        congr 1
        cases (colBounds tabName col conds).upper with
        | none => exact length_fillMax hcol
        | some u => exact length_slice
      · rw [before_lower hcol hcols hfitLower, before_upper hcol hcols hfitUpper,
          Bool.not_not, pinched]
        simp only [heq]
      · have hmeets := hmeets col List.mem_cons_self
        rw [before_lower hcol hcols hfitLower, before_upper hcol hcols hfitUpper]
        refine ⟨belowLower_of_meets fun op raw hl => ?_, Bool.not_eq_true' _ ▸ aboveUpper_of_meets
          fun op raw hu => ?_⟩
        · obtain ⟨hop, hmem⟩ := hfound.lower op raw hl
          exact ⟨hop, hmeets op raw hmem⟩
        · obtain ⟨hop, hmem⟩ := hfound.upper op raw hu
          exact ⟨hop, hmeets op raw hmem⟩

theorem sound_scanBounds (hcols : ∀ col ∈ cols, col.Plain)
    (hfit : ConstantsFit tabName conds cols) :
    (scanBounds tabName conds cols).Sound tabName conds cols (scanBounds tabName conds cols).lower
      (scanBounds tabName conds cols).upper := by
  obtain ⟨lower, upper, hlower, hupper, hsound⟩ :=
    sound_foldl (b := ⟨[], [], false, false, false⟩) hcols hfit rfl rfl rfl
  rw [scanBounds, hlower, hupper]
  exact hsound

end

/-! ## The positions -/

namespace IxIndexHandle

section
variable {K K' : Type} [Ord K] [Ord K'] {g : K → K'} (hg : KeyEmbedding g) (f : IxIndexHandle K)
  (key : K) (isOpen : Bool)

omit [Ord K] [Ord K'] in
theorem boundLoop_mapKeys {bound : IxNode K → ℕ} {bound' : IxNode K' → ℕ}
    (h : ∀ n, bound' (n.mapKeys g) = bound n)
    (fuel : ℕ) (leaf : ℤ) : (f.mapKeys g).boundLoop bound' fuel leaf =
    f.boundLoop bound fuel leaf := by
  induction fuel generalizing leaf with
  | zero => rfl
  | succ fuel ih =>
    simp only [boundLoop, pages_mapKeys, h, IxNode.size_mapKeys, lastLeaf_mapKeys,
      IxNode.nextLeaf_mapKeys, ih]

include hg in
theorem seek_mapKeys {bound : IxNode K → ℕ} {bound' : IxNode K' → ℕ}
    (h : ∀ n, bound' (n.mapKeys g) = bound n) :
    (f.mapKeys g).seek bound' (g key) = f.seek bound key := by
  have hend : (f.mapKeys g).leafEnd = f.leafEnd := by
    simp only [leafEnd, lastLeaf_mapKeys, pages_mapKeys, IxNode.size_mapKeys]
  simp only [seek, findLeafPage_mapKeys hg, hend, fuel_mapKeys, boundLoop_mapKeys f h]

include hg in
theorem lowerIid_mapKeys : (f.mapKeys g).lowerIid isOpen (g key) = f.lowerIid isOpen key := by
  rw [lowerIid, lowerIid]
  split
  · exact seek_mapKeys hg f key fun n => n.upperBound_mapKeys key hg
  · exact seek_mapKeys hg f key fun n => n.lowerBound_mapKeys key hg

include hg in
theorem upperIid_mapKeys : (f.mapKeys g).upperIid isOpen (g key) = f.upperIid isOpen key := by
  rw [upperIid, upperIid]
  split
  · exact seek_mapKeys hg f key fun n => n.lowerBound_mapKeys key hg
  · exact seek_mapKeys hg f key fun n => n.upperBound_mapKeys key hg

omit [Ord K] [Ord K'] in
theorem getRid_mapKeys (iid : Iid) : (f.mapKeys g).getRid iid = f.getRid iid := by
  simp only [getRid, pages_mapKeys, IxNode.size_mapKeys, IxNode.pairs_mapKeys, getElem?_mapPairs,
    Option.map_map, Function.comp_def]

omit [Ord K] [Ord K'] in
theorem scanNext_mapKeys (upper iid : Iid) :
    (f.mapKeys g).scanNext upper iid = f.scanNext upper iid := by
  simp only [scanNext, pages_mapKeys, IxNode.size_mapKeys, IxNode.isLeaf_mapKeys, lastLeaf_mapKeys,
    IxNode.nextLeaf_mapKeys]

end

/-- The index is an ordered tree with linked leaves that has the keys of the records and nothing
else. -/
def HoldsRows (ih : IxIndexHandle Bytes) (index : IndexMeta) (rows : List (Rid × Bytes)) : Prop :=
  ∃ (kcols : List KeyCol) (f : IxIndexHandle (Key kcols)) (chain : List ℤ), indexColMeta index =
    keyCols kcols ∧ ih = f.mapKeys Key.bytes ∧ f.OrderedIndex chain ∧
    (mapPairs Key.bytes (chain.flatMap f.pairs)).Perm (indexEntries index rows)

end IxIndexHandle

/-- The row is below the lower end of the scan. -/
def ScanBounds.below (b : ScanBounds) (index : IndexMeta) (row : Bytes) : Bool :=
  before b.lowerOpen (ixCompare (indexColMeta index) (buildIndexKey index row) b.lower)

/-- The row is not behind the upper end of the scan. -/
def ScanBounds.within (b : ScanBounds) (index : IndexMeta) (row : Bytes) : Bool :=
  before (!b.upperOpen) (ixCompare (indexColMeta index) (buildIndexKey index row) b.upper)

/-- The records of a table in the order of their keys. -/
def InKeyOrder (index : IndexMeta) (rows : List (Rid × Bytes)) : Prop := rows.Pairwise fun r r' =>
  ixCompare (indexColMeta index) (buildIndexKey index r.2) (buildIndexKey index r'.2) = .lt

section
variable {index : IndexMeta} {ih : IxIndexHandle Bytes} {rows : List (Rid × Bytes)} {b : ScanBounds}

theorem exists_perm_map {α β : Type} {f : α → β} {l : List β} {r : List α} (h : l.Perm (r.map f)) :
    ∃ r' : List α, r'.Perm r ∧ l = r'.map f := by
  obtain ⟨r', hr', hperm⟩ := List.perm_comp_forall₂ (r := fun y x => y = f x) h
    (List.forall₂_map_left_iff.mpr (List.forall₂_same.mpr fun _ _ => rfl))
  have heq : List.Forall₂ (· = ·) l (r'.map f) := List.forall₂_map_right_iff.mpr hr'
  rw [List.forall₂_eq_eq_eq] at heq
  exact ⟨r', hperm, heq⟩

theorem recordAt_of_mem (hnodup : (rows.map Prod.fst).Nodup) {r : Rid × Bytes} (hr : r ∈ rows) :
    recordAt rows r.1 = some r := by
  induction rows with
  | nil => cases hr
  | cons r' rows ih =>
    obtain ⟨hnot, hnodup⟩ := List.nodup_cons.mp hnodup
    rw [recordAt, List.find?_cons]
    rcases List.mem_cons.mp hr with rfl | hr
    · rw [decide_eq_true rfl]
    · have hne : r'.1 ≠ r.1 := fun heq => hnot (heq ▸ List.mem_map_of_mem hr)
      rw [decide_eq_false hne]
      exact ih hnodup hr

end

section
variable {index : IndexMeta} {kcols : List KeyCol} {f : IxIndexHandle (Key kcols)} {chain : List ℤ}
  {rows sorted : List (Rid × Bytes)} {b : ScanBounds} {lo hi : Key kcols} {lower upper iid : Iid}

theorem ixPositions_rewind (hcols : indexColMeta index = keyCols kcols) (hlo : lo.bytes = b.lower)
    (hhi : hi.bytes = b.upper) (hlower : f.lowerIid b.lowerOpen lo = some lower)
    (hupper : f.upperIid b.upperOpen hi = some upper) (s : Option (Iid × Iid)) :
    (ixPositions index (f.mapKeys Key.bytes) b).rewind s = some (some (lower, upper)) := by
  have hl : @IxIndexHandle.lowerIid Bytes ⟨ixCompare (indexColMeta index)⟩
    (f.mapKeys Key.bytes) b.lowerOpen b.lower = some lower := by
    rw [hcols, ← hlo, ← hlower]
    exact @IxIndexHandle.lowerIid_mapKeys _ _ _ ⟨ixCompare (keyCols kcols)⟩ _
      (keyEmbedding_bytes kcols) f lo _
  have hu : @IxIndexHandle.upperIid Bytes ⟨ixCompare (indexColMeta index)⟩
    (f.mapKeys Key.bytes) b.upperOpen b.upper = some upper := by
    rw [hcols, ← hhi, ← hupper]
    exact @IxIndexHandle.upperIid_mapKeys _ _ _ ⟨ixCompare (keyCols kcols)⟩ _
      (keyEmbedding_bytes kcols) f hi _
  simp only [ixPositions, hl, hu, Option.bind_eq_bind, Option.bind_some]
  rfl

theorem ixPositions_get :
    (ixPositions index (f.mapKeys Key.bytes) b).get (some (iid, upper)) = f.getRid iid := by
  simp only [ixPositions, IxIndexHandle.getRid_mapKeys, Option.bind_eq_bind, Option.bind_some]

theorem ixPositions_advance : (ixPositions index (f.mapKeys Key.bytes) b).advance
    (some (iid, upper)) = (f.scanNext upper iid).map fun iid => some (iid, upper) := by
  simp only [ixPositions, IxIndexHandle.scanNext_mapKeys, Option.bind_eq_bind, Option.bind_some]
  cases f.scanNext upper iid with
  | none => rfl
  | some iid' => rfl

/-- An entry of the tree is below the lower end just when its record is. -/
theorem below_eq (hcols : indexColMeta index = keyCols kcols) (hlo : lo.bytes = b.lower)
    {e : Key kcols × Rid} {row : Bytes}
    (hkey : e.1.bytes = buildIndexKey index row) :
    IxIndexHandle.beforeLower b.lowerOpen lo e.1 = b.below index row := by
  rw [ScanBounds.below, hcols, ← hlo, ← hkey]
  rfl

theorem within_eq (hcols : indexColMeta index = keyCols kcols) (hhi : hi.bytes = b.upper)
    {e : Key kcols × Rid}
    {row : Bytes} (hkey : e.1.bytes = buildIndexKey index row) :
    IxIndexHandle.beforeUpper b.upperOpen hi e.1 = b.within index row := by
  rw [ScanBounds.within, hcols, ← hhi, ← hkey]
  rfl

variable (hentries : mapPairs Key.bytes (chain.flatMap f.pairs) = indexEntries index sorted)

include hentries

theorem exists_row {e : Key kcols × Rid} (he : e ∈ chain.flatMap f.pairs) :
    ∃ r ∈ sorted, e.1.bytes = buildIndexKey index r.2 ∧ e.2 = r.1 := by
  have hmem : (e.1.bytes, e.2) ∈ indexEntries index sorted :=
    hentries ▸ List.mem_map_of_mem (f := fun e : Key kcols × Rid => (e.1.bytes, e.2)) he
  obtain ⟨r, hr, heq⟩ := List.mem_map.mp hmem
  obtain ⟨hkey, hrid⟩ := Prod.mk.inj heq
  exact ⟨r, hr, hkey.symm, hrid.symm⟩

theorem exists_entry {r : Rid × Bytes} (hr : r ∈ sorted) :
    ∃ e ∈ chain.flatMap f.pairs, e.1.bytes = buildIndexKey index r.2 ∧ e.2 = r.1 := by
  have hmem : (buildIndexKey index r.2, r.1) ∈ mapPairs Key.bytes (chain.flatMap f.pairs) :=
    hentries ▸ List.mem_map_of_mem (f := fun r : Rid × Bytes => (buildIndexKey index r.2, r.1)) hr
  obtain ⟨e, he, heq⟩ := List.mem_map.mp hmem
  obtain ⟨hkey, hrid⟩ := Prod.mk.inj heq
  exact ⟨e, he, hkey, hrid⟩

theorem inKeyOrder_of_entries (h : f.OrderedIndex chain)
    (hcols : indexColMeta index = keyCols kcols) : InKeyOrder index sorted := by
  have hincreasing : (mapPairs Key.bytes (chain.flatMap f.pairs)).Pairwise fun e e' =>
      ixCompare (indexColMeta index) e.1 e'.1 = .lt := by
    rw [hcols, mapPairs, List.pairwise_map]
    exact h.increasing.imp fun hlt => compare_lt_iff_lt.mpr hlt
  rw [hentries, indexEntries, List.pairwise_map] at hincreasing
  exact hincreasing

/-- The entries between the two ends are those of the records between them. -/
theorem filter_entries (hcols : indexColMeta index = keyCols kcols) (hlo : lo.bytes = b.lower)
    (hhi : hi.bytes = b.upper) :
    ((chain.flatMap f.pairs).filter fun e => !IxIndexHandle.beforeLower b.lowerOpen lo e.1 &&
      IxIndexHandle.beforeUpper b.upperOpen hi e.1).map Prod.snd =
      (sorted.filter fun r => !b.below index r.2 && b.within index r.2).map Prod.fst := by
  have hmap := congrArg (fun l => (l.filter fun e : Bytes × Rid =>
    !before b.lowerOpen (ixCompare (indexColMeta index) e.1 b.lower) &&
      before (!b.upperOpen) (ixCompare (indexColMeta index) e.1 b.upper)).map Prod.snd) hentries
  simp only [mapPairs, indexEntries, List.filter_map, List.map_map, Function.comp_def] at hmap
  rw [hcols, ← hlo, ← hhi] at hmap
  simp only [ScanBounds.below, ScanBounds.within, hcols, ← hlo, ← hhi]
  exact hmap

/-- Between its ends the scan comes to the records in the order of their keys. -/
theorem positions_enumerate (h : f.OrderedIndex chain) (hcols : indexColMeta index = keyCols kcols)
    (hnodup : (rows.map Prod.fst).Nodup) (hsorted : sorted.Perm rows) (hlo : lo.bytes = b.lower)
    (hhi : hi.bytes = b.upper)
    (hsub : ∀ r ∈ rows, b.below index r.2 = true → b.within index r.2 = true) :
    ((ixPositions index (f.mapKeys Key.bytes) b).through (recordAt rows)).Enumerates (fun _ => True)
      (sorted.filter fun r => !b.below index r.2 && b.within index r.2) := by
  obtain ⟨lower, hlower, hatLower⟩ := h.exists_lowerIid b.lowerOpen lo
  obtain ⟨upper, hupper, hatUpper⟩ := h.exists_upperIid b.upperOpen hi
  refine fun s _ => ⟨_, ixPositions_rewind hcols hlo hhi hlower hupper s, ?_⟩
  have hsub' (e : Key kcols × Rid) (he : e ∈ chain.flatMap f.pairs)
      (hb : IxIndexHandle.beforeLower b.lowerOpen lo e.1 = true) :
        IxIndexHandle.beforeUpper b.upperOpen hi e.1 = true := by
    obtain ⟨r, hr, hkey, -⟩ := exists_row hentries he
    rw [below_eq hcols hlo hkey] at hb
    rw [within_eq hcols hhi hkey]
    exact hsub r (hsorted.mem_iff.mp hr) hb
  have hemits := h.emits lower hatUpper hatLower (Blocks.takeWhile_length_le hsub')
  rw [Blocks.drop_take_eq_filter (IxIndexHandle.downward_beforeLower h.increasing)
    (IxIndexHandle.downward_beforeUpper h.increasing) hsub',
    filter_entries hentries hcols hlo hhi] at hemits
  refine Cursor.Emits.through (hemits.map (D := ixPositions index (f.mapKeys Key.bytes) b)
    (fun iid => some (iid, upper)) (fun _ => rfl) (fun _ => ixPositions_get)
      (fun _ => ixPositions_advance)) ?_
  rw [List.forall₂_map_left_iff, List.forall₂_same]
  exact fun r hr => recordAt_of_mem hnodup (hsorted.mem_iff.mp (List.mem_filter.mp hr).1)

/-- If a record is below the lower end and behind the upper one, the loop of `beginTuple` does not
come to an end. -/
theorem positions_stuck (h : f.OrderedIndex chain) (hcols : indexColMeta index = keyCols kcols)
    (hnodup : (rows.map Prod.fst).Nodup) (hsorted : sorted.Perm rows) (hlo : lo.bytes = b.lower)
    (hhi : hi.bytes = b.upper)
    {keeps : Rid × Bytes → Option Bool}
    (hkeeps : ∀ r ∈ rows, b.within index r.2 = false → keeps r = some false)
    {r : Rid × Bytes} (hr : r ∈ rows) (hbelow : b.below index r.2 = true)
    (hbehind : b.within index r.2 = false) (n : ℕ) (s : Option (Iid × Iid)) :
    (((ixPositions index (f.mapKeys Key.bytes) b).through (recordAt rows)).kept keeps n).rewind s =
    none := by
  obtain ⟨lower, hlower, hatLower⟩ := h.exists_lowerIid b.lowerOpen lo
  obtain ⟨upper, hupper, hatUpper⟩ := h.exists_upperIid b.upperOpen hi
  obtain ⟨e, he, hkey, -⟩ := exists_entry hentries (hsorted.mem_iff.mpr hr)
  have hlt :=
    Blocks.takeWhile_length_lt (r := fun e => IxIndexHandle.beforeUpper b.upperOpen hi e.1)
    (IxIndexHandle.downward_beforeLower h.increasing) he ((below_eq hcols hlo hkey).trans hbelow)
    ((within_eq hcols hhi hkey).trans hbehind)
  have hskip : ((ixPositions index (f.mapKeys Key.bytes) b).through (recordAt rows)).skip keeps n
      (some (lower, upper)) = none := Cursor.skip_eq_none
        (P := fun s => ∃ iid, s = some (iid, upper) ∧ IxIndexHandle.OrderedIndex.Behind f chain
      ((chain.flatMap f.pairs).takeWhile fun e =>
        IxIndexHandle.beforeUpper b.upperOpen hi e.1).length iid)
    ?_ ?_ ?_ ⟨lower, rfl, _, hlt, hatLower⟩ n
  · simp only [Cursor.kept, Cursor.through, ixPositions_rewind hcols hlo hhi hlower hupper s,
      Option.bind_eq_bind, Option.bind_some]
    exact hskip
  · rintro _ ⟨iid, rfl, hb⟩
    exact decide_eq_false (hb.ne h hatUpper)
  · rintro _ x ⟨iid, rfl, hb⟩ hget
    obtain ⟨rid, hget, hx⟩ := Option.bind_eq_some_iff.mp hget
    rw [ixPositions_get] at hget
    obtain ⟨e, he, rfl⟩ := hb.getRid hget
    obtain ⟨r, hr, hkey, hrid⟩ := exists_row hentries ((List.drop_sublist _ _).subset he)
    have hr := hsorted.mem_iff.mp hr
    rw [hrid, recordAt_of_mem hnodup hr] at hx
    cases hx
    refine hkeeps _ hr ?_
    rw [← within_eq hcols hhi hkey]
    exact (IxIndexHandle.downward_beforeUpper h.increasing).of_drop e he
  · rintro _ s' ⟨iid, rfl, hb⟩ hadv
    have hadv : (ixPositions index (f.mapKeys Key.bytes) b).advance (some (iid, upper)) =
      some s' := hadv
    rw [ixPositions_advance, Option.map_eq_some_iff] at hadv
    obtain ⟨iid', hnext, rfl⟩ := hadv
    exact ⟨iid', rfl, hb.next h hatUpper hnext⟩

end

/-! ## Indexes that hold the records -/

section
variable {index : IndexMeta} {kcols : List KeyCol} {rows : List (Rid × Bytes)} {btreeOrder : ℕ}

/-- The index that is built from records with distinct keys holds them. -/
theorem holdsRows_fillIndex (hcols : indexColMeta index = keyCols kcols)
    (horder : 4 ≤ btreeOrder + 1)
    (hkeys : (rows.map fun r => buildIndexKey index r.2).Nodup) :
    ∃ ih, fillIndex index btreeOrder rows = some (some ih) ∧
      rebuildIndex index btreeOrder rows = some ih ∧ ih.HoldsRows index rows := by
  obtain ⟨es, f, hes, ⟨L, hgrown, hperm⟩, hfill, hrebuild⟩ := fillIndex_holds hcols horder hkeys
  refine ⟨_, hfill, hrebuild, kcols, f, L.level 0, hcols, rfl,
    hgrown.laid.orderedIndex hgrown.chain, ?_⟩
  rw [← hes]
  exact hperm.map _

/-- So does the index that a run of `insert_entry` and `delete_entry` leaves, if it binds the keys
of the records. -/
theorem holdsRows_calls (hcols : indexColMeta index = keyCols kcols)
    (hlen : ((kcols.map KeyCol.len).sum : ℕ) ≤ IX_MAX_COL_LEN)
    {cs : List (IxIndexHandle.TreeCall (Key kcols))}
    (hcs : (IxIndexHandle.createKeyIndex kcols).neverSplitsStale cs = true)
    (hnodup : (rows.map Prod.fst).Nodup)
    (hbinds : ∀ k rid, IxIndexHandle.refMap cs k = some rid ↔
      (k.bytes, rid) ∈ indexEntries index rows) :
    ∃ f, (IxIndexHandle.createKeyIndex kcols).calls cs = some f ∧
    (f.mapKeys Key.bytes).HoldsRows index rows := by
  have horder : 4 ≤ (btreeOrderOf (kcols.map KeyCol.len).sum).toNat + 1 := by
    have := IxIndexHandle.two_lt_btreeOrderOf hlen
    omega
  obtain ⟨f, hf, L, hl, hchain, hm⟩ :=
    (IxIndexHandle.chained_createIndex horder).calls hcs cs List.prefix_rfl
  refine ⟨f, hf, kcols, f, L.level 0, hcols, rfl, hl.orderedIndex hchain, ?_⟩
  have hpair : Function.Injective fun e : Key kcols × Rid => (e.1.bytes, e.2) := by
    let _ : Ord Bytes := ⟨ixCompare (keyCols kcols)⟩
    have hg : KeyEmbedding (Key.bytes : Key kcols → Bytes) := keyEmbedding_bytes kcols
    exact hg.injective.prodMap Function.injective_id
  have hentries : (indexEntries index rows).Nodup := by
    refine List.Nodup.of_map Prod.snd ?_
    rw [indexEntries, List.map_map]
    exact hnodup
  have hsorted : (f.entries L).Nodup :=
    hl.entries_sorted.imp fun hlt heq => hlt.ne (congrArg Prod.fst heq)
  refine (List.perm_ext_iff_of_nodup ((List.nodup_map_iff hpair).mpr hsorted) hentries).mpr fun e =>
    ⟨fun he => ?_, fun he => ?_⟩
  · obtain ⟨⟨k, rid⟩, hmem, rfl⟩ := List.mem_map.mp he
    exact (hbinds k rid).mp ((hm k rid).mp hmem)
  · obtain ⟨es, hes⟩ := exists_keys hcols rows
    have he' := he
    rw [← hes] at he'
    obtain ⟨⟨k, rid⟩, -, rfl⟩ := List.mem_map.mp he'
    exact List.mem_map_of_mem (f := fun e : Key kcols × Rid => (e.1.bytes, e.2))
      ((hm k rid).mpr ((hbinds k rid).mpr he))

end

/-! ## The two scans -/

/-- The conditions hold of a record, as `SeqScanExecutor` evaluates them. -/
def passes (tab : TabMeta) (conds : List Condition) (row : Bytes) : Bool :=
  (evalConds conds row tab.cols).toOption = some true

/-- The two executors over a table. -/
structure ScansAgree (t : String) (tab : TabMeta) (conds : List Condition) (index : IndexMeta)
    (ih : IxIndexHandle Bytes) (rows : List (Rid × Bytes)) : Prop where
  kept : indexConds t conds = some conds
  sequential : (seqScanExecutor (rows.map Prod.snd) fun rec =>
    (evalConds conds rec tab.cols).toOption).delivered.Enumerates
    (fun _ => True) ((rows.filter fun r => passes tab conds r.2).map Prod.snd)
  indexed : (∀ r ∈ rows, pinched t conds r.2 index.cols = false) →
    ∃ sorted : List (Rid × Bytes), sorted.Perm rows ∧ InKeyOrder index sorted ∧ ∀ n > rows.length,
      (indexScanOn t tab index ih rows conds n).Enumerates
        (fun _ => True) (sorted.filter fun r => passes tab conds r.2)
  stuck : ∀ r ∈ rows, pinched t conds r.2 index.cols = true →
    ∀ n s, (indexScanOn t tab index ih rows conds n).rewind s = none

section
variable {V : Type} {cat : Catalog} {conv : V → ColMeta → Except ExecError Value} {t : String}
  {tab : TabMeta} {size : ℕ}
  {conds : List Condition} {cond : Condition} {exprs : List (BinaryExpr V)} {index : IndexMeta}
  {col : ColMeta}
  {ih : IxIndexHandle Bytes} {rows : List (Rid × Bytes)} {row : Bytes}

/-- The two evaluators give one result for columns of one length. -/
theorem evalCond_eq_evalCondition (hres : cond.Resolved tab) (heq : cond.EqualLens tab.cols)
    (row : Bytes) :
    ∃ b, evalCond cond row tab.cols = .ok b ∧ evalCondition tab row cond = .ok b := by
  cases hres with
  | @const lhs raw hlhs hget hrhs hraw =>
    simp only [evalCond, evalCondition, hlhs, hget, hrhs, bind, Except.bind, pure, Except.pure]
    exact ⟨_, rfl, rfl⟩
  | @pair lhs rhs c hlhs hget hrhs hc hgetc htype =>
    have hlen (a b : Bytes) : ixCompareCol a b lhs.type lhs.len =
        ixCompareCol a b lhs.type rhs.len := by
      cases hstr : lhs.type with
      | string => rw [heq c lhs rhs hrhs hlhs hc hstr]
      | int => rfl
      | float => rfl
      | bigint => rfl
      | datetime => rfl
    simp only [evalCond, evalCondition, hlhs, hget, hrhs, hc, hgetc, hlen, bind, Except.bind, pure,
      Except.pure]
    exact ⟨_, rfl, rfl⟩

theorem evalConds_eq_evalConditions (hres : ∀ cond ∈ conds, cond.Resolved tab)
    (heq : ∀ cond ∈ conds, cond.EqualLens tab.cols) (row : Bytes) :
    ∃ b, evalConds conds row tab.cols = .ok b ∧ evalConditions tab row conds = .ok b ∧
      (b = true → ∀ cond ∈ conds, evalCond cond row tab.cols = .ok true) := by
  induction conds with
  | nil => exact ⟨true, rfl, rfl, fun _ cond hcond => absurd hcond List.not_mem_nil⟩
  | cons cond conds ih =>
    obtain ⟨hres₁, hres⟩ := List.forall_mem_cons.mp hres
    obtain ⟨heq₁, heq⟩ := List.forall_mem_cons.mp heq
    obtain ⟨b, hseq, hindex⟩ := evalCond_eq_evalCondition hres₁ heq₁ row
    obtain ⟨bs, hseqs, hindexes, hall⟩ := ih hres heq
    cases b with
    | false =>
      exact ⟨false, by rw [evalConds, hseq]; rfl, by rw [evalConditions, hindex]; rfl, fun h =>
        Bool.noConfusion h⟩
    | true =>
      refine ⟨bs, by rw [evalConds, hseq]; exact hseqs, by
        rw [evalConditions, hindex]; exact hindexes, fun hbs => ?_⟩
      exact List.forall_mem_cons.mpr ⟨hseq, hall hbs⟩

/-- The columns of a key have the lengths of their types. -/
theorem plain_of_keyCols {kcols : List KeyCol} (hcols : indexColMeta index = keyCols kcols) :
    ∀ col ∈ index.cols, col.Plain := by
  intro col hcol
  have hmem : (col.type, col.len) ∈ keyCols kcols := hcols ▸ List.mem_map_of_mem hcol
  obtain ⟨k, -, hk⟩ := List.mem_map.mp hmem
  obtain ⟨htype, hlen⟩ := Prod.mk.inj hk
  constructor
  · rw [← htype]
    cases k <;> exact ColType.noConfusion
  · rw [← htype, ← hlen]
    cases k <;> rfl

theorem length_const (htab : cat.tabs t = some tab) (hget : tab.getCol col.name = .ok col)
    {op : CompOp} {raw : Bytes}
    (hres : Condition.Resolved tab ⟨⟨t, col.name⟩, op, .val raw⟩) : raw.length = col.len := by
  cases hres with
  | pair _ _ hrhs => cases hrhs
  | const hlhs _ hrhs hraw =>
    cases hrhs
    cases ((findCol_eq_ok_iff htab).mpr hget).symm.trans hlhs
    exact hraw

/-- A condition that compares a column of the table with a constant. -/
theorem evalCond_const (htab : cat.tabs t = some tab) (hlaid : tab.LaidOut size)
    (hrow : row.length = size)
    (hget : tab.getCol col.name = .ok col) (hplain : col.Plain) {op : CompOp} {raw : Bytes}
    (hraw : raw.length = col.len) : evalCond ⟨⟨t, col.name⟩, op, .val raw⟩ row tab.cols =
      .ok (evalCompare (compareValues col.type (slice row col.offset col.len) raw) op) := by
  have hfind := (findCol_eq_ok_iff htab).mpr hget
  have hinside := hlaid.inside col (findCol_mem hfind)
  simp only [evalCond, hfind, bind, Except.bind, pure, Except.pure]
  rw [ixCompareCol_const hplain.not_float hplain.width (hrow ▸ hinside) hraw]

section
variable (hres : ∀ cond ∈ conds, cond.Resolved tab) (heq : ∀ cond ∈ conds, cond.EqualLens tab.cols)

include hres heq

theorem evalConds_passes (row : Bytes) :
    (evalConds conds row tab.cols).toOption = some (passes tab conds row) ∧
    (evalConditions tab row conds).toOption = some (passes tab conds row) := by
  obtain ⟨b, hseq, hindex, -⟩ := evalConds_eq_evalConditions hres heq row
  rw [passes, hseq, hindex]
  cases b <;> exact ⟨rfl, rfl⟩

/-- A record on which the conditions hold meets those on the columns of the index. -/
theorem meetsConstants_of_passes (htab : cat.tabs t = some tab) (hlaid : tab.LaidOut size)
    (hindex : ∀ col ∈ index.cols, tab.getCol col.name = .ok col)
    (hplain : ∀ col ∈ index.cols, col.Plain)
    (hrow : row.length = size) (hpass : passes tab conds row = true) :
    MeetsConstants t conds index.cols row := by
  intro col hcol op raw hcond
  obtain ⟨b, hb, -, hall⟩ := evalConds_eq_evalConditions hres heq row
  rw [passes, hb, decide_eq_true_eq] at hpass
  have htrue := hall (Option.some.inj hpass) _ hcond
  have hraw := length_const htab (hindex col hcol) (hres _ hcond)
  rw [evalCond_const htab hlaid hrow (hindex col hcol) (hplain col hcol) hraw] at htrue
  exact Except.ok.inj htrue

end

/-- An index that holds the records, with the two ends of the scan as its keys. -/
theorem exists_ends (hres : ∀ cond ∈ conds, cond.Resolved tab) (htab : cat.tabs t = some tab)
    (hindex : ∀ col ∈ index.cols, tab.getCol col.name = .ok col) (hih : ih.HoldsRows index rows) :
    ∃ (kcols : List KeyCol) (f : IxIndexHandle (Key kcols)) (chain : List ℤ)
    (sorted : List (Rid × Bytes))
      (lo hi : Key kcols), indexColMeta index = keyCols kcols ∧ ih = f.mapKeys Key.bytes ∧
      f.OrderedIndex chain ∧
      sorted.Perm rows ∧ mapPairs Key.bytes (chain.flatMap f.pairs) = indexEntries index sorted ∧
      lo.bytes = (scanBounds t conds index.cols).lower ∧
      hi.bytes = (scanBounds t conds index.cols).upper ∧
      (scanBounds t conds index.cols).Sound t conds index.cols (scanBounds t conds index.cols).lower
        (scanBounds t conds index.cols).upper := by
  obtain ⟨kcols, f, chain, hcols, rfl, h, hperm⟩ := hih
  obtain ⟨sorted, hsorted, hentries⟩ := exists_perm_map hperm
  have hplain := plain_of_keyCols hcols
  have hsound : (scanBounds t conds index.cols).Sound t conds index.cols
    (scanBounds t conds index.cols).lower (scanBounds t conds index.cols).upper :=
    sound_scanBounds hplain fun col hcol op raw hcond =>
      length_const htab (hindex col hcol) (hres _ hcond)
  have hsum : (index.cols.map ColMeta.len).sum = (kcols.map KeyCol.len).sum := by
    have hlens := congrArg (List.map Prod.snd) hcols
    rw [indexColMeta, keyCols, List.map_map, List.map_map] at hlens
    exact congrArg List.sum hlens
  exact ⟨kcols, f, chain, sorted, ⟨_, hsound.lower_length.trans hsum⟩,
    ⟨_, hsound.upper_length.trans hsum⟩, hcols, rfl, h, hsorted, hentries, rfl, rfl, hsound⟩

/-- The records that pass are between the two ends. -/
theorem between_of_passes (htab : cat.tabs t = some tab) (hlaid : tab.LaidOut size)
    (hres : ∀ cond ∈ conds, cond.Resolved tab) (heq : ∀ cond ∈ conds, cond.EqualLens tab.cols)
    (hindex : ∀ col ∈ index.cols, tab.getCol col.name = .ok col)
    (hrows : ∀ r ∈ rows, r.2.length = size)
    (hih : ih.HoldsRows index rows) {r : Rid × Bytes} (hr : r ∈ rows)
    (hpass : passes tab conds r.2 = true) :
    (scanBounds t conds index.cols).below index r.2 = false ∧
    (scanBounds t conds index.cols).within index r.2 = true := by
  obtain ⟨kcols, f, chain, sorted, lo, hi, hcols, -, -, -, -, -, -, hsound⟩ :=
    exists_ends hres htab hindex hih
  exact hsound.inside r.2 (meetsConstants_of_passes hres heq htab hlaid hindex
    (plain_of_keyCols hcols) (hrows r hr) hpass)

/-- When no record is pinched, the scan comes to the records between its ends. -/
theorem positions_between (htab : cat.tabs t = some tab) (hres : ∀ cond ∈ conds, cond.Resolved tab)
    (hindex : ∀ col ∈ index.cols, tab.getCol col.name = .ok col) (hih : ih.HoldsRows index rows)
    (hnodup : (rows.map Prod.fst).Nodup)
    (hno : ∀ r ∈ rows, pinched t conds r.2 index.cols = false) :
    ∃ sorted : List (Rid × Bytes), sorted.Perm rows ∧ InKeyOrder index sorted ∧
      ((ixPositions index ih (scanBounds t conds index.cols)).through (recordAt rows)).Enumerates
      (fun _ => True) (sorted.filter fun r => !(scanBounds t conds index.cols).below index r.2 &&
          (scanBounds t conds index.cols).within index r.2) := by
  obtain ⟨kcols, f, chain, sorted, lo, hi, hcols, rfl, h, hsorted, hentries, hlo, hhi, hsound⟩ :=
    exists_ends hres htab hindex hih
  refine ⟨sorted, hsorted, inKeyOrder_of_entries hentries h hcols, ?_⟩
  refine positions_enumerate hentries h hcols hnodup hsorted hlo hhi fun r hr hbelow => ?_
  have hnot : ((scanBounds t conds index.cols).below index r.2 &&
    !(scanBounds t conds index.cols).within index r.2) =
      false := (hsound.pinched r.2).trans (hno r hr)
  rw [hbelow, Bool.true_and] at hnot
  exact Bool.not_eq_false' _ ▸ hnot

/-- Both executors give the records on which the conditions hold, the index scan in the order of
their keys, unless a record is pinched between the ends of the index scan.  Then the index scan
throws. -/
theorem index_scan_agrees (htab : cat.tabs t = some tab) (hlaid : tab.LaidOut size)
    (haccepts : Accepts cat conv t exprs conds) (heq : ∀ cond ∈ conds, cond.EqualLens tab.cols)
    (hindex : ∀ col ∈ index.cols, tab.getCol col.name = .ok col)
    (hrows : ∀ r ∈ rows, r.2.length = size)
    (hnodup : (rows.map Prod.fst).Nodup) (hih : ih.HoldsRows index rows) :
    ScansAgree t tab conds index ih rows := by
  have hboth (cond : Condition) (hcond : cond ∈ conds) : cond.lhsCol.tabName = t ∧
      cond.Resolved tab := by
    obtain ⟨allCols, hall, hconds⟩ := haccepts
    obtain rfl := Except.ok.inj (hall.symm.trans (getAllCols_single htab))
    obtain ⟨expr, -, hexpr⟩ := exists_of_mem_mapM hconds cond hcond
    exact resolved_of_checkClause htab hexpr
  have hres (cond : Condition) (hcond : cond ∈ conds) : cond.Resolved tab := (hboth cond hcond).2
  have heval := evalConds_passes hres heq
  have hpasses (r : Rid × Bytes) (hr : r ∈ rows) (hpass : passes tab conds r.2 = true) :=
    between_of_passes htab hlaid hres heq hindex hrows hih hr hpass
  refine ⟨indexConds_self fun cond hcond => (hboth cond hcond).1, ?_, fun hno => ?_,
    fun r hr hyes n s => ?_⟩
  · have hseq (row : Bytes) : (evalConds conds row tab.cols).toOption.isSome = true := by
      rw [(heval row).1]
      rfl
    have hscan := seqScanExecutor_enumerates fun row (_ : row ∈ rows.map Prod.snd) => hseq row
    rw [List.filter_map] at hscan
    exact hscan
  · obtain ⟨sorted, hsorted, horder, hpos⟩ := positions_between htab hres hindex hih hnodup hno
    refine ⟨sorted, hsorted, horder, fun n hn => ?_⟩
    have hidx (r : Rid × Bytes) : (evalConditions tab r.2 conds).toOption.isSome = true := by
      rw [(heval r.2).2]
      rfl
    have hscan := hpos.kept (n := n) (fun r _ => hidx r) ?_
    · rw [List.filter_filter] at hscan
      rw [indexScanOn]
      refine (List.filter_congr fun r hr => ?_) ▸ hscan
      rw [(heval r.2).2]
      cases hpass : passes tab conds r.2 with
      | false => rfl
      | true =>
        obtain ⟨hbelow, hwithin⟩ := hpasses r (hsorted.mem_iff.mp hr) hpass
        rw [hbelow, hwithin]
        rfl
    · exact ((List.length_filter_le _ _).trans hsorted.length_eq.le).trans_lt hn
  · obtain ⟨kcols, f, chain, sorted, lo, hi, hcols, rfl, h, hsorted, hentries, hlo, hhi, hsound⟩ :=
      exists_ends hres htab hindex hih
    obtain ⟨hbelow, hbehind⟩ := Bool.and_eq_true_iff.mp ((hsound.pinched r.2).trans hyes)
    rw [indexScanOn]
    refine positions_stuck hentries h hcols hnodup hsorted hlo hhi
      (fun r' hr' hbehind' => ?_) hr hbelow (Bool.not_eq_true' _ ▸ hbehind) n s
    rw [(heval r'.2).2]
    cases hpass : passes tab conds r'.2 with
    | false => rfl
    | true => exact Bool.noConfusion ((hpasses r' hr' hpass).2.symm.trans hbehind')

/-- The index on `a` of the table `t (a CHAR(2), b CHAR(2))`. -/
def indexOnA : IndexMeta := ⟨"t", [⟨"t", "a", .string, 2, 0⟩]⟩

/-- Three records of the table. -/
def lettersRows : List (Rid × Bytes) :=
  [(⟨1, 0⟩, [99, 0, 1, 1]), (⟨1, 1⟩, [97, 0, 2, 2]), (⟨1, 2⟩, [98, 0, 3, 3])]

/-- `a > 'b' AND a < 'c'` leaves nothing to be found; for `a > 'b' AND a < 'b'` the index scan
throws. -/
theorem index_scan_agrees_letters : ∃ ih, fillIndex indexOnA 100 lettersRows = some (some ih) ∧
    ScansAgree "t" (stringTable 2)
    [⟨⟨"t", "a"⟩, .gt, .val [98, 0]⟩, ⟨⟨"t", "a"⟩, .lt, .val [99, 0]⟩] indexOnA ih lettersRows ∧
    ∀ n s, (indexScanOn "t" (stringTable 2) indexOnA ih lettersRows
      [⟨⟨"t", "a"⟩, .gt, .val [98, 0]⟩, ⟨⟨"t", "a"⟩, .lt, .val [98, 0]⟩] n).rewind s = none := by
  obtain ⟨ih, hfill, -, hih⟩ : ∃ ih, fillIndex indexOnA 100 lettersRows = some (some ih) ∧
      rebuildIndex indexOnA 100 lettersRows = some ih ∧ ih.HoldsRows indexOnA lettersRows :=
    holdsRows_fillIndex (show indexColMeta indexOnA = keyCols [.char 2] from rfl)
      (by decide) (by decide)
  have hagree (c : UInt8) : ScansAgree "t" (stringTable 2)
      [⟨⟨"t", "a"⟩, .gt, .val [98, 0]⟩, ⟨⟨"t", "a"⟩, .lt, .val [c, 0]⟩] indexOnA ih
        lettersRows := by
    have haccepts : Accepts (stringCatalog 2) (fun v _ => .ok v) "t"
        [⟨⟨"t", "a"⟩, .gt, .val (.str [98])⟩, ⟨⟨"t", "a"⟩, .lt, .val (.str [c])⟩]
        [⟨⟨"t", "a"⟩, .gt, .val [98, 0]⟩, ⟨⟨"t", "a"⟩, .lt, .val [c, 0]⟩] :=
          ⟨(stringTable 2).cols, rfl, rfl⟩
    refine index_scan_agrees rfl (laidOut_stringTable 2) haccepts ?_ ?_ (by decide) (by decide) hih
    · intro cond hcond _ _ _ hrhs
      rcases List.mem_pair.mp hcond with rfl | rfl
      · cases hrhs
      · cases hrhs
    · intro col hcol
      obtain rfl := List.mem_singleton.mp hcol
      rfl
  exact ⟨ih, hfill, hagree 99, fun n s => (hagree 98).stuck (⟨1, 2⟩, [98, 0, 3, 3]) (by decide)
    (by decide) n s⟩

end

end Rmdb
