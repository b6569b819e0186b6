import Mathlib.Algebra.Order.Ring.Int
import Mathlib.Data.List.Forall2
import Rmdb.Execution.ColumnValues
import Rmdb.Execution.Executors
import Rmdb.Optimizer.JoinPlans

/-!
# Aggregates

The aggregate items of a SELECT as `Analyze::do_analyze` checks them (`analyze/analyze.cpp`), and
`AggregateExecutor` (`execution/executor_aggregate.h`), which goes through the tuples of its child
once with one state for each item.  It counts and adds up in 64 bits and stores the results in 32.
The arithmetic of `double` is a parameter.  An operation that throws gives `none`.
-/

namespace Rmdb

/-! ## Select items -/

/-- `AggType`. -/
inductive AggType
  | count
  | sum
  | max
  | min
deriving DecidableEq, Repr

/-- `AggSpec`. -/
structure AggSpec where
  type : AggType
  col : TabCol
  isStar : Bool
deriving DecidableEq, Repr

/-- `SelItem`. -/
inductive SelItem
  | col (col : TabCol) (aliasName : String)
  | agg (agg : AggSpec) (aliasName : String)
deriving DecidableEq, Repr

/-- `ast::AggExpr`; the grammar has `*` in COUNT only. -/
structure AggExpr where
  type : AggType
  col : Option TabCol
  star : col = none → type = .count

/-- The expression of an `ast::SelectItem`. -/
inductive SelectExpr
  | col (col : TabCol)
  | agg (agg : AggExpr)

/-- `ast::SelectItem`; without `AS` the alias is empty. -/
structure SelectItem where
  expr : SelectExpr
  aliasName : String

/-- The errors of the select items; `notSummable` is `IncompatibleTypeError` with the type and
`"SUM"`. -/
inductive SelectError
  | analyze (e : AnalyzeError)
  | notSummable (type : ColType)
deriving DecidableEq, Repr

/-- `Analyze::default_agg_alias`. -/
def defaultAggAlias (agg : AggSpec) : String :=
  match agg.type with
  | .count => if agg.isStar then "COUNT(*)" else "COUNT(" ++ agg.col.colName ++ ")"
  | .sum => "SUM(" ++ agg.col.colName ++ ")"
  | .max => "MAX(" ++ agg.col.colName ++ ")"
  | .min => "MIN(" ++ agg.col.colName ++ ")"

/-- `Analyze::get_col_meta`. -/
def getColMeta (allCols : List ColMeta) (target : TabCol) : Except AnalyzeError ColMeta :=
  match allCols.find? fun col => col.tabName = target.tabName ∧ col.name = target.colName with
  | some col => .ok col
  | none => .error (.exec (.columnNotFound target.colName))

/-- The types of the columns that `do_analyze` lets an aggregate have. -/
def checkAggType (type : AggType) (colType : ColType) : Except SelectError Unit :=
  match type with
  | .count => .ok ()
  | .sum => if colType ≠ .int ∧ colType ≠ .float then .error (.notSummable colType) else .ok ()
  | .max | .min =>
    if colType ≠ .int ∧ colType ≠ .float ∧ colType ≠ .string then
      .error (.analyze (.exec (.incompatibleType colType .string)))
    else .ok ()

def liftAnalyze {α : Type} : Except AnalyzeError α → Except SelectError α
  | .ok a => .ok a
  | .error e => .error (.analyze e)

/-- The round of `do_analyze` for a select item. -/
def analyzeItem (allCols : List ColMeta) (item : SelectItem) : Except SelectError SelItem :=
  match item.expr with
  | .col target => do
    let col ← liftAnalyze (checkColumn allCols target)
    return .col col (if item.aliasName = "" then col.colName else item.aliasName)
  | .agg sv =>
    match sv.col with
    | none =>
      let agg : AggSpec := ⟨sv.type, ⟨"", ""⟩, true⟩
      .ok (.agg agg (if item.aliasName = "" then defaultAggAlias agg else item.aliasName))
    | some target => do
      let col ← liftAnalyze (checkColumn allCols target)
      let colMeta ← liftAnalyze (getColMeta allCols col)
      checkAggType sv.type colMeta.type
      let agg : AggSpec := ⟨sv.type, col, false⟩
      return .agg agg (if item.aliasName = "" then defaultAggAlias agg else item.aliasName)

/-! ## The executor -/

/-- What the executor does with `double`s: `+=` of a `float`, and the conversion to a `float`. -/
structure DoubleOps (δ : Type) where
  zero : δ
  addFloat : δ → ℕ → δ
  toFloat : δ → ℕ

/-- `*(int *)(rec + offset)`. -/
def readInt (rec : Bytes) (offset : ℕ) : ℤ := signed 32 (leNat (slice rec offset 4))

/-- The bytes of `static_cast<int>` of an integer. -/
def intBytes (i : ℤ) : Bytes := leBytes 4 (i % 2 ^ 32).toNat

/-- The output column of an item: one round of `build_output_schema`. -/
def buildOutputCol (prevCols : List ColMeta) (len : ℕ) : SelItem → Except ExecError ColMeta
  | .agg agg aliasName =>
    if agg.isStar then .ok ⟨"", aliasName, .int, 4, len⟩
    else do
      let src ← findCol prevCols agg.col
      if agg.type = .count then return ⟨"", aliasName, .int, 4, len⟩
      else return ⟨"", aliasName, src.type, src.len, len⟩
  | .col col aliasName => do
    let src ← findCol prevCols col
    return ⟨"", aliasName, src.type, src.len, len⟩

/-- `build_output_schema`: the columns and the length of the output, from `len` on. -/
def buildOutputSchema (prevCols : List ColMeta) :
    List SelItem → ℕ → Except ExecError (List ColMeta × ℕ)
  | [], len => .ok ([], len)
  | item :: items, len => do
    let col ← buildOutputCol prevCols len item
    let (cols, total) ← buildOutputSchema prevCols items (len + col.len)
    return (col :: cols, total)

/-- `update_max_min`. -/
def updateMaxMin (cur val : Bytes) (type : ColType) (len : ℕ) (isMax : Bool) : Bytes :=
  let cmp := ixCompareCol val cur type len
  if (isMax && cmp == .gt) || (!isMax && cmp == .lt) then val else cur

/-- The entries of `has_value`, `count_vals`, `sum_int_vals`, `sum_float_vals` and `extrema_bufs`
for one item. -/
structure AggState (δ : Type) where
  hasValue : Bool
  count : ℤ
  sumInt : ℤ
  sumFloat : δ
  extrema : Bytes

namespace AggState

variable {δ : Type}

/-- The state of an item before the first tuple. -/
def init (D : DoubleOps δ) (prevCols : List ColMeta) (item : SelItem) :
    Except ExecError (AggState δ) :=
  match item with
  | .agg agg _ =>
    if !agg.isStar && (agg.type = .max || agg.type = .min) then do
      let src ← findCol prevCols agg.col
      return ⟨false, 0, 0, D.zero, List.replicate src.len 0⟩
    else return ⟨false, 0, 0, D.zero, []⟩
  | .col _ _ => return ⟨false, 0, 0, D.zero, []⟩

/-- The round of the inner loop of `compute` for one item. -/
def update (D : DoubleOps δ) (prevCols : List ColMeta) (rec : Bytes) (item : SelItem)
    (s : AggState δ) : Except ExecError (AggState δ) :=
  match item with
  | .col _ _ => .ok s
  | .agg agg _ =>
    match agg.type with
    | .count => .ok { s with count := (s.count + 1).bmod (2 ^ 64), hasValue := true }
    | .sum => do
      let src ← findCol prevCols agg.col
      match src.type with
      | .int =>
        return { s with
          sumInt := (s.sumInt + readInt rec src.offset).bmod (2 ^ 64), hasValue := true }
      | .float =>
        return { s with
          sumFloat := D.addFloat s.sumFloat (leNat (slice rec src.offset 4)), hasValue := true }
      | _ => return { s with hasValue := true }
    | .max | .min => do
      let src ← findCol prevCols agg.col
      let val := slice rec src.offset src.len
      if s.hasValue then
        return { s with extrema := updateMaxMin s.extrema val src.type src.len (agg.type = .max) }
      else return { s with extrema := val, hasValue := true }

/-- The bytes that `compute` stores into the output column of an item. -/
def outBytes (D : DoubleOps δ) (col : ColMeta) (item : SelItem) (s : AggState δ) : Bytes :=
  match item with
  | .col _ _ => []
  | .agg agg _ =>
    match agg.type with
    | .count => intBytes (if s.hasValue then s.count else 0)
    | .sum => if col.type = .int then intBytes s.sumInt else leBytes 4 (D.toFloat s.sumFloat)
    | .max | .min => s.extrema.take col.len

end AggState

/-- The inner loop of `compute`. -/
def updateItems {δ : Type} (D : DoubleOps δ) (prevCols : List ColMeta) (rec : Bytes) :
    List SelItem → List (AggState δ) → Except ExecError (List (AggState δ))
  | item :: items, s :: states => do
    let s ← s.update D prevCols rec item
    return s :: (← updateItems D prevCols rec items states)
  | _, _ => .ok []

/-- The last loop of `compute`. -/
def storeItems {δ : Type} (D : DoubleOps δ) :
    List ColMeta → List SelItem → List (AggState δ) → Bytes → Bytes
  | col :: cols, item :: items, s :: states, record =>
    let out := s.outBytes D col item
    storeItems D cols items states (patch record col.offset out out.length)
  | _, _, _, record => record

/-- The fields of an `AggregateExecutor` that change. -/
structure AggregateState (σ : Type) where
  prev : σ
  cols : List ColMeta := []
  len : ℕ := 0
  record : Option Bytes := none
  isEnd : Bool := true
  computed : Bool := false

section
variable {σ δ : Type} (D : DoubleOps δ) (prevCols : List ColMeta) (items : List SelItem)
  (E : Executor σ)

/-- One round of the loop of `compute`. -/
def computeRound (s : σ × List (AggState δ)) : Option (Loop (σ × List (AggState δ))) :=
  if E.isEnd s.1 then some (.done s)
  else do
    let rec ← E.next s.1
    let states ← (updateItems D prevCols rec items s.2).toOption
    let prev ← E.nextTuple s.1
    return .next (prev, states)

/-- `compute`, whose loop has at most `n` rounds. -/
def compute (n : ℕ) (s : AggregateState σ) : Option (AggregateState σ) := do
  let (cols, len) ← (buildOutputSchema prevCols items 0).toOption
  let states ← (items.mapM (AggState.init D prevCols)).toOption
  let prev ← E.beginTuple s.prev
  let (prev, states) ← iterate (computeRound D prevCols items E) n (prev, states)
  return ⟨prev, cols, len, some (storeItems D cols items states (List.replicate len 0)),
    false, true⟩

/-- `AggregateExecutor`.  It has the `peekTuple` of its base class. -/
def aggregateExecutor (n : ℕ) : Executor (AggregateState σ) where
  beginTuple s := if s.computed then some s else compute D prevCols items E n s
  nextTuple s := some { s with isEnd := true }
  isEnd s := s.isEnd
  next s := if s.isEnd then none else s.record
  peekTuple _ := none

end

/-! ## What the output row is to hold -/

/-- The sum of an INT column. -/
def columnSum (src : ColMeta) (rows : List Bytes) : ℤ :=
  (rows.map fun row => readInt row src.offset).sum

/-- A value of a column that no other one is above, or below, for `ix_compare`. -/
structure Extreme (isMax : Bool) (src : ColMeta) (rows : List Bytes) (e : Bytes) : Prop where
  mem : ∃ row ∈ rows, slice row src.offset src.len = e
  bound : ∀ row ∈ rows,
    ixCompareCol (slice row src.offset src.len) e src.type src.len ≠ if isMax then .gt else .lt

namespace SelItem

/-- The output column of an item holds what the item stands for. -/
def Exact (prevCols : List ColMeta) (rows : List Bytes) (r : Bytes) (item : SelItem)
    (col : ColMeta) : Prop :=
  match item with
  | .col _ _ => True
  | .agg spec _ =>
    match spec.type with
    | .count => col.type = .int ∧ readInt r col.offset = rows.length
    | .sum => ∀ src, findCol prevCols spec.col = .ok src → src.type = .int →
        col.type = .int ∧ readInt r col.offset = columnSum src rows
    | .max | .min =>
      ∀ src, findCol prevCols spec.col = .ok src → src.type = .int ∨ src.type = .string →
        rows ≠ [] → col.type = src.type ∧ col.len = src.len ∧
        Extreme (spec.type = .max) src rows (slice r col.offset col.len)

/-- The number of an item fits an `int`. -/
def Fits (prevCols : List ColMeta) (rows : List Bytes) : SelItem → Prop
  | .col _ _ => True
  | .agg spec _ =>
    match spec.type with
    | .count => rows.length < 2 ^ 31
    | .sum => ∀ src, findCol prevCols spec.col = .ok src → src.type = .int →
        -2 ^ 31 ≤ columnSum src rows ∧ columnSum src rows < 2 ^ 31
    | .max | .min => True

/-- What `do_analyze` sees to: the columns are there and have a type of the aggregate. -/
def Accepted (prevCols : List ColMeta) : SelItem → Prop
  | .col target _ => ∃ src, findCol prevCols target = .ok src
  | .agg spec _ => spec.isStar = true ∧ spec.type = .count ∨
      spec.isStar = false ∧ ∃ src, findCol prevCols spec.col = .ok src ∧
        (spec.type = .sum → src.type = .int ∨ src.type = .float) ∧
        (src.type = .int ∨ src.type = .float → src.len = 4)

end SelItem

/-- The columns of the child are those that `do_analyze` looked at, with the offsets of the
child. -/
def SameColumns (prevCols allCols : List ColMeta) : Prop :=
  ∀ target src, findCol allCols target = .ok src →
    ∃ col, findCol prevCols target = .ok col ∧ col.type = src.type ∧ col.len = src.len

/-- `create_table` gives the columns of INT and FLOAT four bytes. -/
def NumbersSized (allCols : List ColMeta) : Prop :=
  ∀ col ∈ allCols, col.type = .int ∨ col.type = .float → col.len = 4

/-! ## The select items -/

section
variable {allCols prevCols : List ColMeta} {target c : TabCol} {col src : ColMeta}

theorem findCol_of_getColMeta (h : getColMeta allCols target = .ok col) :
    findCol allCols target = .ok col := by
  rw [getColMeta] at h
  rw [findCol]
  cases hfind : allCols.find? fun col => col.tabName = target.tabName ∧
    col.name = target.colName with
  | some found =>
    rw [hfind] at h
    rw [Except.ok.inj h]
  | none =>
    rw [hfind] at h
    cases h

theorem mem_of_findCol (h : findCol allCols target = .ok col) : col ∈ allCols := by
  rw [findCol] at h
  split at h
  · next hfind =>
    cases h
    exact List.mem_of_find?_eq_some hfind
  · cases h

theorem findCol_of_checkColumn (h : checkColumn allCols target = .ok c) :
    ∃ col, findCol allCols c = .ok col := by
  obtain ⟨col, hmem, hcol⟩ := checkColumn_spec h
  cases hfind : allCols.find? fun col => col.tabName = c.tabName ∧ col.name = c.colName with
  | none => exact absurd hcol (by simpa using List.find?_eq_none.mp hfind col hmem)
  | some col' => exact ⟨col', by rw [findCol, hfind]⟩

theorem ok_of_liftAnalyze {α : Type} {x : Except AnalyzeError α} {a : α}
    (h : liftAnalyze x = .ok a) : x = .ok a := by
  cases x with
  | ok b =>
    cases h
    rfl
  | error e => cases h

theorem accepted_of_analyzeItem {sv : SelectItem} {item : SelItem}
    (h : analyzeItem allCols sv = .ok item)
    (hcols : SameColumns prevCols allCols) (hlens : NumbersSized allCols) :
    item.Accepted prevCols := by
  rw [analyzeItem] at h
  split at h
  · obtain ⟨c, hcheck, h⟩ := exists_of_bind_ok h
    cases h
    obtain ⟨src, hsrc⟩ := findCol_of_checkColumn (ok_of_liftAnalyze hcheck)
    obtain ⟨col, hcol, _⟩ := hcols _ _ hsrc
    exact ⟨col, hcol⟩
  · next sv _ =>
    split at h
    · next hstar =>
      cases h
      exact Or.inl ⟨rfl, sv.star hstar⟩
    · obtain ⟨c, _, h⟩ := exists_of_bind_ok h
      obtain ⟨src, hmeta, h⟩ := exists_of_bind_ok h
      obtain ⟨_, htype, h⟩ := exists_of_bind_ok h
      cases h
      have hsrc := findCol_of_getColMeta (ok_of_liftAnalyze hmeta)
      obtain ⟨col, hcol, hct, hcl⟩ := hcols _ _ hsrc
      refine Or.inr ⟨rfl, col, hcol, fun hsum => ?_, fun hnum => ?_⟩
      · have hsum : sv.type = .sum := hsum
        rw [hsum, checkAggType] at htype
        split at htype
        · cases htype
        · rw [hct]
          tauto
      · rw [hcl]
        rw [hct] at hnum
        exact hlens src (mem_of_findCol hsrc) hnum

theorem accepted_of_analyze {svItems : List SelectItem} {items : List SelItem}
    (h : svItems.mapM (analyzeItem allCols) = .ok items) (hcols : SameColumns prevCols allCols)
    (hlens : NumbersSized allCols) : ∀ item ∈ items, item.Accepted prevCols := by
  intro item hmem
  obtain ⟨sv, _, hsv⟩ := exists_of_mem_mapM h item hmem
  exact accepted_of_analyzeItem hsv hcols hlens

end

/-! ## The output columns -/

/-- The columns stand one after the other, from `start` to `total`. -/
def LaidOut : List ColMeta → ℕ → ℕ → Prop
  | [], start, total => total = start
  | col :: cols, start, total => col.offset = start ∧ LaidOut cols (start + col.len) total

/-- The output column of an item has the type and the length of its values. -/
def SelItem.OutCol (prevCols : List ColMeta) (item : SelItem) (col : ColMeta) : Prop :=
  match item with
  | .col _ _ => True
  | .agg spec _ =>
    if spec.type = .count then col.type = .int ∧ col.len = 4
    else ∀ src, findCol prevCols spec.col = .ok src → col.type = src.type ∧ col.len = src.len

section
variable {prevCols : List ColMeta} {item : SelItem} {items : List SelItem}

theorem buildOutputCol_ok (h : item.Accepted prevCols) (len : ℕ) :
    ∃ col, buildOutputCol prevCols len item = .ok col ∧ col.offset = len ∧
    item.OutCol prevCols col := by
  cases item with
  | col target aliasName =>
    obtain ⟨src, hsrc⟩ := h
    exact ⟨⟨"", aliasName, src.type, src.len, len⟩, by rw [buildOutputCol, hsrc]; rfl, rfl, trivial⟩
  | agg spec aliasName =>
    rcases h with ⟨hstar, hcount⟩ | ⟨hstar, src, hsrc, _⟩
    · refine ⟨⟨"", aliasName, .int, 4, len⟩, by rw [buildOutputCol, if_pos hstar], rfl, ?_⟩
      rw [SelItem.OutCol, if_pos hcount]
      exact ⟨rfl, rfl⟩
    · by_cases hcount : spec.type = .count
      · refine ⟨⟨"", aliasName, .int, 4,
          len⟩, by simp [buildOutputCol, hstar, hsrc, hcount, bind, Except.bind, pure,
          Except.pure], rfl, ?_⟩
        rw [SelItem.OutCol, if_pos hcount]
        exact ⟨rfl, rfl⟩
      · refine ⟨⟨"", aliasName, src.type, src.len,
          len⟩, by simp [buildOutputCol, hstar, hsrc, hcount, bind,
          Except.bind, pure, Except.pure], rfl, ?_⟩
        rw [SelItem.OutCol, if_neg hcount]
        intro src' hsrc'
        cases hsrc.symm.trans hsrc'
        exact ⟨rfl, rfl⟩

theorem buildOutputSchema_ok (h : ∀ item ∈ items, item.Accepted prevCols) (start : ℕ) :
    ∃ cols total, buildOutputSchema prevCols items start = .ok (cols, total) ∧
    LaidOut cols start total ∧ List.Forall₂ (SelItem.OutCol prevCols) items cols := by
  induction items generalizing start with
  | nil => exact ⟨[], start, rfl, rfl, .nil⟩
  | cons item items ih =>
    obtain ⟨hitem, hitems⟩ := List.forall_mem_cons.1 h
    obtain ⟨col, hcol, hoff, hout⟩ := buildOutputCol_ok hitem start
    obtain ⟨cols, total, hcols, hlaid, houts⟩ := ih hitems (start + col.len)
    refine ⟨col :: cols, total, ?_, ⟨hoff, hlaid⟩, .cons hout houts⟩
    rw [buildOutputSchema, hcol]
    simp only [bind, Except.bind, hcols]
    rfl

end

/-! ## The loop over the tuples -/

section
variable {isMax : Bool} {src : ColMeta} {rows : List Bytes} {row cur : Bytes}

theorem Extreme.length (h : Extreme isMax src rows cur) : cur.length = src.len := by
  obtain ⟨row, _, rfl⟩ := h.mem
  exact length_slice

theorem Extreme.single (htype : src.type = .int ∨ src.type = .string) :
    Extreme isMax src [row] (slice row src.offset src.len) := by
  refine ⟨⟨row, List.mem_singleton_self row, rfl⟩, ?_⟩
  intro row' hrow'
  obtain rfl := List.mem_singleton.1 hrow'
  have hcomparable (a : Bytes) : Comparable a src.type := by
    rcases htype with h | h <;> rw [h] <;> trivial
  rw [ixCompareCol_eq_compare rfl (hcomparable _) (hcomparable _), compare_eq_iff_eq.2 rfl]
  cases isMax <;> simp

/-- `update_max_min` keeps an extreme value of the rows so far. -/
theorem Extreme.update (h : Extreme isMax src rows cur)
    (htype : src.type = .int ∨ src.type = .string) : Extreme isMax src (rows ++ [row])
      (updateMaxMin cur (slice row src.offset src.len) src.type src.len isMax) := by
  have hcomparable (a : Bytes) : Comparable a src.type := by
    rcases htype with h | h <;> rw [h] <;> trivial
  have hcmp {a b : Bytes} (ha : a.length = src.len) (hb : b.length = src.len) :
      ixCompareCol a b src.type src.len = compare (colVal a src.type src.len)
        (colVal b src.type src.len) :=
    ixCompareCol_eq_compare (ha.trans hb.symm) (hcomparable a) (hcomparable b)
  obtain ⟨⟨row₀, hrow₀, hcur⟩, hbound⟩ := id h
  have hlen := h.length
  refine ⟨?_, ?_⟩
  · rw [updateMaxMin]
    split
    · exact ⟨row, by simp, rfl⟩
    · exact ⟨row₀, by simp [hrow₀], hcur⟩
  · intro row' hrow'
    rw [hcmp length_slice (by rw [updateMaxMin]; split <;> simp [hlen])]
    have hold : row' ∈ rows → compare (colVal (slice row' src.offset src.len) src.type src.len)
        (colVal cur src.type src.len) ≠ if isMax then .gt else .lt := by
      intro hmem
      rw [← hcmp length_slice hlen]
      exact hbound row' hmem
    have hnew : row' ∈ rows ∨ row' = row := by simpa using hrow'
    rw [updateMaxMin, hcmp length_slice hlen]
    cases isMax with
    | true =>
      simp only [Bool.true_and, Bool.not_true, Bool.false_and, Bool.or_false, beq_iff_eq,
        if_true, ne_eq, compare_gt_iff_gt] at hold ⊢
      split
      · rcases hnew with hmem | rfl
        · have := hold hmem
          omega
        · omega
      · rcases hnew with hmem | rfl
        · exact hold hmem
        · assumption
    | false =>
      simp only [Bool.false_and, Bool.not_false, Bool.true_and, Bool.false_or, beq_iff_eq,
        Bool.false_eq_true, if_false, ne_eq, compare_lt_iff_lt] at hold ⊢
      split
      · rcases hnew with hmem | rfl
        · have := hold hmem
          omega
        · omega
      · rcases hnew with hmem | rfl
        · exact hold hmem
        · assumption

end

/-- The state of an item after the given rows. -/
def AggState.Tracks {δ : Type} (prevCols : List ColMeta) (rows : List Bytes) (item : SelItem)
    (s : AggState δ) : Prop :=
  match item with
  | .col _ _ => True
  | .agg spec _ => s.hasValue = !rows.isEmpty ∧
    match spec.type with
    | .count => s.count = (rows.length : ℤ).bmod (2 ^ 64)
    | .sum => ∀ src, findCol prevCols spec.col = .ok src → src.type = .int →
        s.sumInt = (columnSum src rows).bmod (2 ^ 64)
    | .max | .min => ∀ src, findCol prevCols spec.col = .ok src → s.extrema.length = src.len ∧
        (src.type = .int ∨ src.type = .string → rows ≠ [] →
          Extreme (spec.type = .max) src rows s.extrema)

section
variable {σ δ : Type} {D : DoubleOps δ} {prevCols : List ColMeta} {item : SelItem}
  {items : List SelItem}
  {rows : List Bytes} {s : AggState δ} {states : List (AggState δ)}

theorem SelItem.Accepted.column {spec : AggSpec} {aliasName : String}
    (h : (SelItem.agg spec aliasName).Accepted prevCols) (hne : spec.type ≠ .count) :
    spec.isStar = false ∧ ∃ src, findCol prevCols spec.col = .ok src := by
  rcases h with ⟨_, hcount⟩ | ⟨hstar, src, hsrc, _⟩
  · exact absurd hcount hne
  · exact ⟨hstar, src, hsrc⟩

theorem AggState.init_ok (h : item.Accepted prevCols) :
    ∃ s, AggState.init D prevCols item = .ok s ∧ s.Tracks prevCols [] item := by
  cases item with
  | col target aliasName => exact ⟨_, rfl, trivial⟩
  | agg spec aliasName =>
    cases htype : spec.type with
    | count => exact ⟨⟨false, 0, 0, D.zero, []⟩, by simp [init, htype]; rfl, rfl, by simp [htype]⟩
    | sum =>
      refine ⟨⟨false, 0, 0, D.zero, []⟩, by simp [init, htype]; rfl, rfl, ?_⟩
      simp [htype, columnSum]
    | max =>
      obtain ⟨hstar, src, hsrc⟩ := h.column (by rw [htype]; decide)
      refine ⟨⟨false, 0, 0, D.zero, List.replicate src.len 0⟩, by simp [init, htype, hstar, hsrc],
        rfl, ?_⟩
      simp [htype, hsrc]
    | min =>
      obtain ⟨hstar, src, hsrc⟩ := h.column (by rw [htype]; decide)
      refine ⟨⟨false, 0, 0, D.zero, List.replicate src.len 0⟩, by simp [init, htype, hstar, hsrc],
        rfl, ?_⟩
      simp [htype, hsrc]

/-- The new value of `extrema_bufs` and `has_value`. -/
theorem AggState.extreme_step {isMax : Bool} {src : ColMeta} (row : Bytes)
    (hhas : s.hasValue = !rows.isEmpty) (hext : s.extrema.length = src.len ∧
      (src.type = .int ∨ src.type = .string → rows ≠ [] → Extreme isMax src rows s.extrema))
    {e : Bytes} (he : e = if s.hasValue then updateMaxMin s.extrema
      (slice row src.offset src.len) src.type src.len isMax
      else slice row src.offset src.len) :
    e.length = src.len ∧ (src.type = .int ∨ src.type = .string →
      Extreme isMax src (rows ++ [row]) e) := by
  cases rows with
  | nil =>
    rw [hhas] at he
    subst he
    exact ⟨length_slice, fun htype => .single htype⟩
  | cons row₀ rows =>
    rw [hhas] at he
    subst he
    refine ⟨?_, fun htype => (hext.2 htype (by simp)).update htype⟩
    simp only [List.isEmpty_cons, Bool.not_false, if_true, updateMaxMin]
    split
    · exact length_slice
    · exact hext.1

theorem AggState.update_ok (row : Bytes) (h : item.Accepted prevCols)
    (hs : s.Tracks prevCols rows item) :
    ∃ s', s.update D prevCols row item = .ok s' ∧ s'.Tracks prevCols (rows ++ [row]) item := by
  cases item with
  | col target aliasName => exact ⟨s, rfl, trivial⟩
  | agg spec aliasName =>
    obtain ⟨hhas, hs⟩ := hs
    cases htype : spec.type with
    | count =>
      rw [htype] at hs
      refine ⟨{ s with count := (s.count + 1).bmod (2 ^ 64), hasValue := true }, by
        simp only [update, htype],
        by simp, ?_⟩
      simp only [htype]
      rw [hs, Int.bmod_add_bmod, List.length_append]
      rfl
    | sum =>
      obtain ⟨-, src, hsrc⟩ := h.column (by rw [htype]; decide)
      simp only [htype] at hs
      cases hcol : src.type with
      | int =>
        refine ⟨{ s with
          sumInt := (s.sumInt + readInt row src.offset).bmod (2 ^ 64), hasValue := true }, by
          simp only [update, htype, hsrc, bind, Except.bind, hcol]; rfl, by simp, ?_⟩
        simp only [htype]
        intro src' hsrc' _
        cases hsrc.symm.trans hsrc'
        rw [hs src hsrc hcol, Int.bmod_add_bmod]
        simp [columnSum]
      | float =>
        refine ⟨{ s with
          sumFloat := D.addFloat s.sumFloat (leNat (slice row src.offset 4)), hasValue := true }, by
          simp only [update, htype, hsrc, bind, Except.bind, hcol]; rfl, by simp, ?_⟩
        simp only [htype]
        intro src' hsrc' hint
        cases hsrc.symm.trans hsrc'
        cases hcol.symm.trans hint
      | bigint | string | datetime =>
        refine ⟨{ s with hasValue := true }, by
          simp only [update, htype, hsrc, bind, Except.bind, hcol]; rfl, by simp, ?_⟩
        simp only [htype]
        intro src' hsrc' hint
        cases hsrc.symm.trans hsrc'
        cases hcol.symm.trans hint
    | max | min =>
      obtain ⟨-, src, hsrc⟩ := h.column (by rw [htype]; decide)
      simp only [htype] at hs
      have hstep := AggState.extreme_step row hhas (hs src hsrc) rfl
      refine ⟨{ s with
          extrema := if s.hasValue then updateMaxMin s.extrema
            (slice row src.offset src.len) src.type src.len
              (spec.type = .max) else slice row src.offset src.len
          hasValue := true }, ?_, by simp, ?_⟩
      · simp only [update, htype, hsrc, bind, Except.bind, pure, Except.pure]
        cases s.hasValue
        · simp
        · simp
      · simp only [htype]
        intro src' hsrc'
        cases hsrc.symm.trans hsrc'
        exact ⟨hstep.1, fun hsrcType _ => hstep.2 hsrcType⟩

theorem init_items_ok (h : ∀ item ∈ items, item.Accepted prevCols) :
    ∃ states, items.mapM (AggState.init D prevCols) = .ok states ∧
      List.Forall₂ (AggState.Tracks prevCols []) items states := by
  induction items with
  | nil => exact ⟨[], rfl, .nil⟩
  | cons item items ih =>
    obtain ⟨hitem, hitems⟩ := List.forall_mem_cons.1 h
    obtain ⟨s, hs, hstr⟩ := AggState.init_ok (D := D) hitem
    obtain ⟨states, hstates, htr⟩ := ih hitems
    refine ⟨s :: states, ?_, .cons hstr htr⟩
    rw [List.mapM_cons, hs, hstates]
    rfl

theorem updateItems_ok (row : Bytes) (h : ∀ item ∈ items, item.Accepted prevCols)
    (hs : List.Forall₂ (AggState.Tracks prevCols rows) items states) :
    ∃ states', updateItems D prevCols row items states = .ok states' ∧
      List.Forall₂ (AggState.Tracks prevCols (rows ++ [row])) items states' := by
  induction hs with
  | nil => exact ⟨[], rfl, .nil⟩
  | cons hs _ ih =>
    obtain ⟨hitem, hitems⟩ := List.forall_mem_cons.1 h
    obtain ⟨s', hs', hstr⟩ := AggState.update_ok (D := D) row hitem hs
    obtain ⟨states', hstates', htr⟩ := ih hitems
    refine ⟨s' :: states', ?_, .cons hstr htr⟩
    rw [updateItems, hs', hstates']
    rfl

/-- The loop of `compute` goes through the tuples that the child still gives. -/
theorem iterate_computeRound {E : Executor σ} {p : σ} {rest : List Bytes} {n : ℕ}
    (h : ∀ item ∈ items, item.Accepted prevCols) (hem : E.delivered.Emits (fun _ => True) rest p)
    (hs : List.Forall₂ (AggState.Tracks prevCols rows) items states) (hn : rest.length < n) :
    ∃ p' states', iterate (computeRound D prevCols items E) n (p, states) = some (p', states') ∧
      List.Forall₂ (AggState.Tracks prevCols (rows ++ rest)) items states' := by
  induction rest generalizing p rows states n with
  | nil =>
    obtain ⟨n, rfl⟩ : ∃ m, n = m + 1 := ⟨n - 1, by omega⟩
    have hend : E.isEnd p = true := hem.2
    refine ⟨p, states, by simp [iterate, computeRound, hend], ?_⟩
    rw [List.append_nil]
    exact hs
  | cons row rest ih =>
    obtain ⟨n, rfl⟩ : ∃ m, n = m + 1 := ⟨n - 1, by omega⟩
    obtain ⟨-, hend, hnext, p', hadv, hrest⟩ := hem
    have hend : E.isEnd p = false := hend
    have hnext : E.next p = some row := hnext
    have hadv : E.nextTuple p = some p' := hadv
    obtain ⟨states', hstates', htr⟩ := updateItems_ok (D := D) row h hs
    obtain ⟨p'', states'', hit, htr'⟩ := ih hrest htr (by simpa using hn)
    refine ⟨p'', states'', ?_, ?_⟩
    · simp only [iterate, computeRound, hend, Bool.false_eq_true, if_false, hnext, hstates', hadv,
        Except.toOption, Option.bind_eq_bind, Option.bind_some, Option.pure_def]
      exact hit
    · rw [List.append_assoc, List.singleton_append] at htr'
      exact htr'

end

/-! ## The output row -/

section
variable {δ : Type} {D : DoubleOps δ} {prevCols cols : List ColMeta} {item : SelItem}
  {items : List SelItem}
  {rows : List Bytes} {s : AggState δ} {states : List (AggState δ)} {col : ColMeta}
  {r record : Bytes}
  {start total : ℕ}

theorem signed_intBytes (i : ℤ) : signed 32 (leNat (intBytes i)) = i.bmod (2 ^ 32) := by
  have hlt : (i % 2 ^ 32).toNat < 256 ^ 4 := by omega
  rw [intBytes, leNat_leBytes hlt, signed, Int.bmod]
  omega

/-- What is stored for an item fits its column, and fills it when the item is an aggregate. -/
theorem AggState.length_outBytes (hacc : item.Accepted prevCols) (hout : item.OutCol prevCols col)
    (hs : s.Tracks prevCols rows item) :
    (s.outBytes D col item).length ≤ col.len ∧
      ((∃ spec aliasName, item = .agg spec aliasName) → (s.outBytes D col item).length =
        col.len) := by
  cases item with
  | col target aliasName =>
    refine ⟨Nat.zero_le _, ?_⟩
    rintro ⟨spec, aliasName, h⟩
    cases h
  | agg spec aliasName =>
    suffices hlen : (s.outBytes D col (.agg spec aliasName)).length = col.len from
      ⟨hlen.le, fun _ => hlen⟩
    cases htype : spec.type with
    | count =>
      rw [SelItem.OutCol, if_pos htype] at hout
      simp [outBytes, htype, intBytes, hout.2]
    | sum =>
      rw [SelItem.OutCol, if_neg (by rw [htype]; decide)] at hout
      rcases hacc with ⟨_, hcount⟩ | ⟨_, src, hsrc, hsum, hlen⟩
      · cases htype.symm.trans hcount
      · rw [(hout src hsrc).2, hlen (hsum htype)]
        simp only [outBytes, htype]
        split
        · simp [intBytes]
        · simp
    | max | min =>
      obtain ⟨-, src, hsrc⟩ := hacc.column (by rw [htype]; decide)
      rw [SelItem.OutCol, if_neg (by rw [htype]; decide)] at hout
      have hext := hs.2
      simp only [htype] at hext
      simp [outBytes, htype, (hout src hsrc).2, (hext src hsrc).1]

theorem length_storeItems : (storeItems D cols items states record).length = record.length := by
  induction cols generalizing items states record with
  | nil => rfl
  | cons col cols ih =>
    cases items with
    | nil => rfl
    | cons item items =>
      cases states with
      | nil => rfl
      | cons s states => rw [storeItems, ih, length_patch]

/-- The bytes before the columns stay as they are. -/
theorem storeItems_frame (hlaid : LaidOut cols start total) {i : ℕ} (hi : i < start) :
    (storeItems D cols items states record).getD i 0 = record.getD i 0 := by
  induction cols generalizing items states record start with
  | nil => rfl
  | cons col cols ih =>
    obtain ⟨hoff, hlaid⟩ := hlaid
    cases items with
    | nil => rfl
    | cons item items =>
      cases states with
      | nil => rfl
      | cons s states =>
        rw [storeItems, ih hlaid (by omega), getD_patch_of_not_mem (by omega)]

theorem LaidOut.le (h : LaidOut cols start total) : start ≤ total := by
  induction cols generalizing start with
  | nil => exact h.ge
  | cons col cols ih => exact le_trans (by omega) (ih h.2)

/-- Each aggregate stands in its column at the end. -/
theorem storeItems_slices (hacc : ∀ item ∈ items, item.Accepted prevCols)
    (hout : List.Forall₂ (SelItem.OutCol prevCols) items cols)
    (hs : List.Forall₂ (AggState.Tracks prevCols rows) items states)
    (hlaid : LaidOut cols start total) (hrecord : record.length = total) :
    List.Forall₂ (fun item col => item.Accepted prevCols ∧ item.OutCol prevCols col ∧
      ∃ s : AggState δ, s.Tracks prevCols rows item ∧
      ((∃ spec aliasName, item = .agg spec aliasName) →
        slice (storeItems D cols items states record) col.offset col.len =
        s.outBytes D col item)) items cols := by
  induction hout generalizing states record start with
  | nil => exact .nil
  | @cons item col items cols hcol hcols ih =>
    cases hs with
    | @cons _ s _ states htr htrs =>
      obtain ⟨hitem, hitems⟩ := List.forall_mem_cons.1 hacc
      obtain ⟨hoff, hlaid⟩ := hlaid
      obtain ⟨-, hlen⟩ := AggState.length_outBytes (D := D) hitem hcol htr
      refine .cons ⟨hitem, hcol, s, htr, fun hagg => ?_⟩ ?_
      · rw [storeItems, ← hlen hagg]
        have hframe : slice (storeItems D cols items states
          (patch record col.offset (s.outBytes D col item)
            (s.outBytes D col item).length)) col.offset (s.outBytes D col item).length =
            slice (patch record col.offset (s.outBytes D col item) (s.outBytes D col item).length)
              col.offset (s.outBytes D col item).length := by
          refine slice_congr fun i _ hi => storeItems_frame hlaid ?_
          rw [hlen hagg] at hi
          omega
        rw [hframe, slice_patch]
        have := hlaid.le
        rw [hlen hagg]
        omega
      · rw [storeItems]
        exact ih hitems htrs hlaid (by rw [length_patch, hrecord])

/-- An item comes out right just when its number fits an `int`. -/
theorem exact_iff_fits (hout : item.OutCol prevCols col) (hs : s.Tracks prevCols rows item)
    (hacc : item.Accepted prevCols) (hslice : (∃ spec aliasName, item = .agg spec aliasName) →
      slice r col.offset col.len = s.outBytes D col item) :
    item.Exact prevCols rows r col ↔ item.Fits prevCols rows := by
  cases item with
  | col target aliasName => exact Iff.rfl
  | agg spec aliasName =>
    obtain ⟨hhas, hs⟩ := hs
    have hslice := hslice ⟨spec, aliasName, rfl⟩
    cases htype : spec.type with
    | count =>
      rw [SelItem.OutCol, if_pos htype] at hout
      simp only [htype] at hs
      have hcount : (if s.hasValue then s.count else 0) = (rows.length : ℤ).bmod (2 ^ 64) := by
        rw [hhas]
        cases rows with
        | nil => rfl
        | cons row rows => exact hs
      have hread : readInt r col.offset = (rows.length : ℤ).bmod (2 ^ 32) := by
        rw [readInt, ← hout.2, hslice]
        simp only [AggState.outBytes, htype]
        rw [hcount, signed_intBytes, Int.bmod_bmod_of_dvd (by norm_num)]
      simp only [SelItem.Exact, SelItem.Fits, htype, hread, hout.1, true_and, bmod_eq_self_iff]
      omega
    | sum =>
      rw [SelItem.OutCol, if_neg (by rw [htype]; decide)] at hout
      simp only [htype] at hs
      simp only [SelItem.Exact, SelItem.Fits, htype]
      refine forall_congr' fun src => forall_congr' fun hsrc => forall_congr' fun hint => ?_
      obtain ⟨hct, hcl⟩ := hout src hsrc
      have hlen : src.len = 4 := by
        rcases hacc with ⟨_, hcount⟩ | ⟨_, src', hsrc', _, hlen⟩
        · cases htype.symm.trans hcount
        · cases hsrc.symm.trans hsrc'
          exact hlen (.inl hint)
      have hread : readInt r col.offset = (columnSum src rows).bmod (2 ^ 32) := by
        rw [readInt, ← hlen, ← hcl, hslice]
        simp only [AggState.outBytes, htype, hct, hint, if_true]
        rw [hs src hsrc hint, signed_intBytes, Int.bmod_bmod_of_dvd (by norm_num)]
      rw [hread, hct, hint, bmod_eq_self_iff]
      simp
    | max | min =>
      rw [SelItem.OutCol, if_neg (by rw [htype]; decide)] at hout
      simp only [htype] at hs
      simp only [SelItem.Exact, SelItem.Fits, htype, iff_true]
      intro src hsrc hsrcType hne
      obtain ⟨hct, hcl⟩ := hout src hsrc
      obtain ⟨hlen, hext⟩ := hs src hsrc
      refine ⟨hct, hcl, ?_⟩
      rw [hslice]
      simp only [AggState.outBytes, htype]
      rw [List.take_of_length_le (by rw [hlen, hcl])]
      exact hext hsrcType hne

end

/-- Two lists that are related by an equivalence with a property of the first. -/
theorem forall₂_iff_forall {α β : Type} {R : α → β → Prop} {P : α → Prop} {xs : List α}
    {ys : List β}
    (h : List.Forall₂ (fun x y => R x y ↔ P x) xs ys) : List.Forall₂ R xs ys ↔ ∀ x ∈ xs, P x := by
  induction h with
  | nil => simp
  | cons h _ ih => rw [List.forall₂_cons, List.forall_mem_cons, h, ih]

section
variable {σ δ : Type} (D : DoubleOps δ) (E : Executor σ) {allCols prevCols : List ColMeta}
  {svItems : List SelectItem} {items : List SelItem} {rows : List Bytes} {p p₀ : σ} {n : ℕ}

/-- The executor gives one row, and each aggregate stands in its column of it. -/
def AggregatesExact (prevCols : List ColMeta) (items : List SelItem) (p : σ) (rows : List Bytes)
    (n : ℕ) : Prop :=
  ∃ s r, (aggregateExecutor D prevCols items E n).beginTuple { prev := p } = some s ∧
    r.length = s.len ∧
    (aggregateExecutor D prevCols items E n).delivered.Emits (fun _ => True) [r] s ∧
    List.Forall₂ (SelItem.Exact prevCols rows r) items s.cols

/-- `compute` on accepted items. -/
theorem compute_ok (h : ∀ item ∈ items, item.Accepted prevCols) (hbegin : E.beginTuple p = some p₀)
    (hem : E.delivered.Emits (fun _ => True) rows p₀) (hn : rows.length < n) :
    ∃ s r, compute D prevCols items E n { prev := p } = some s ∧ s.record = some r ∧
    s.isEnd = false ∧ r.length = s.len ∧
      List.Forall₂ (fun item col => item.Exact prevCols rows r col ↔ item.Fits prevCols rows) items
        s.cols := by
  obtain ⟨cols, total, hschema, hlaid, hout⟩ := buildOutputSchema_ok h 0
  obtain ⟨states, hstates, htr⟩ := init_items_ok (D := D) h
  obtain ⟨p', states', hit, htr'⟩ := iterate_computeRound (D := D) h hem htr hn
  rw [List.nil_append] at htr'
  refine ⟨⟨p', cols, total, some (storeItems D cols items states' (List.replicate total 0)),
    false, true⟩, storeItems D cols items states' (List.replicate total 0), ?_, rfl, rfl, ?_, ?_⟩
  · simp only [compute, hschema, hstates, hbegin, hit, Except.toOption, Option.bind_eq_bind,
      Option.bind_some, Option.pure_def]
  · rw [length_storeItems, List.length_replicate]
  · have hlen : (List.replicate total (0 : UInt8)).length = total := List.length_replicate
    refine (storeItems_slices (D := D) h hout htr' hlaid hlen).imp ?_
    rintro item col ⟨hitem, hcol, s, hs, hslice⟩
    exact exact_iff_fits hcol hs hitem hslice

theorem aggregatesExact_iff_of_accepted (hacc : ∀ item ∈ items, item.Accepted prevCols)
    (hbegin : E.beginTuple p = some p₀) (hem : E.delivered.Emits (fun _ => True) rows p₀)
    (hn : rows.length < n) :
    AggregatesExact D E prevCols items p rows n ↔ ∀ item ∈ items, item.Fits prevCols rows := by
  obtain ⟨s, r, hcompute, hrecord, hend, hlen, hiff⟩ := compute_ok D E hacc hbegin hem hn
  have hbeginTuple : (aggregateExecutor D prevCols items E n).beginTuple { prev := p } =
      some s := by
    simp [aggregateExecutor, hcompute]
  have hget : (aggregateExecutor D prevCols items E n).delivered.get s = some r := by
    simp [aggregateExecutor, Executor.delivered, hend, hrecord]
  constructor
  · rintro ⟨s', r', hs', _, hem', hexact⟩
    cases hbeginTuple.symm.trans hs'
    cases hget.symm.trans hem'.2.2.1
    exact (forall₂_iff_forall hiff).1 hexact
  · intro hfits
    refine ⟨s, r, hbeginTuple, hlen,
      ⟨trivial, hend, hget, { s with isEnd := true }, rfl, trivial, rfl⟩, ?_⟩
    exact (forall₂_iff_forall hiff).2 hfits

/-- The output row holds the aggregates just when each count and each sum of an INT column fits an
`int`. -/
theorem aggregates_exact_iff (hitems : svItems.mapM (analyzeItem allCols) = .ok items)
    (hcols : SameColumns prevCols allCols) (hlens : NumbersSized allCols)
    (hbegin : E.beginTuple p = some p₀)
    (hem : E.delivered.Emits (fun _ => True) rows p₀) (hn : rows.length < n) :
    AggregatesExact D E prevCols items p rows n ↔ ∀ item ∈ items, item.Fits prevCols rows := by
  exact aggregatesExact_iff_of_accepted D E (accepted_of_analyze hitems hcols hlens) hbegin hem hn

end

/-! ## The largest `int` and one more -/

/-- A table of one INT column. -/
def oneIntCol : List ColMeta := [⟨"t", "a", .int, 4, 0⟩]

def countAll : AggSpec := ⟨.count, ⟨"", ""⟩, true⟩

def sumOfA : AggSpec := ⟨.sum, ⟨"t", "a"⟩, false⟩

/-- `SELECT COUNT(*), SUM(a)`. -/
def countAndSum : List SelectItem :=
  [⟨.agg ⟨.count, none, fun _ => rfl⟩, ""⟩, ⟨.agg ⟨.sum, some ⟨"", "a"⟩, by simp⟩, ""⟩]

def countAndSumItems : List SelItem := [.agg countAll "COUNT(*)", .agg sumOfA "SUM(a)"]

/-- A scan of a table without conditions. -/
def fullScan (rows : List Bytes) : Executor SeqScanState := seqScanExecutor rows fun _ => some true

/-- The `double`s are left out where no FLOAT is added up. -/
def noDoubles : DoubleOps Unit := ⟨(), fun _ _ => (), fun _ => 0⟩

theorem fullScan_emits (all rows : List Bytes) (record : Option Bytes) :
    (fullScan all).delivered.Emits
    (fun _ => True) rows ⟨rows, rows.head? <|> record, rows.isEmpty⟩ := by
  induction rows generalizing record with
  | nil => exact ⟨trivial, rfl⟩
  | cons row rows ih =>
    refine ⟨trivial, rfl, rfl, ⟨rows, rows.head? <|> some row, rows.isEmpty⟩, ?_, ih (some row)⟩
    cases rows with
    | nil => rfl
    | cons row' rows => rfl

theorem oneIntCol_sized : NumbersSized oneIntCol := by
  intro col hcol _
  obtain rfl := List.mem_singleton.1 hcol
  rfl

theorem sameColumns_self (cols : List ColMeta) : SameColumns cols cols :=
  fun _ src h => ⟨src, h, rfl, rfl⟩

/-- Both items fit just when the number of the rows and the sum do. -/
theorem countAndSum_fits_iff (rows : List Bytes) :
    (∀ item ∈ countAndSumItems, item.Fits oneIntCol rows) ↔
    rows.length < 2 ^ 31 ∧ -2 ^ 31 ≤ columnSum ⟨"t", "a", .int, 4, 0⟩ rows ∧
      columnSum ⟨"t", "a", .int, 4, 0⟩ rows < 2 ^ 31 := by
  simp only [countAndSumItems, List.forall_mem_cons, List.not_mem_nil, false_imp_iff,
    implies_true, and_true]
  refine and_congr Iff.rfl ⟨fun h => h _ rfl rfl, fun h src hsrc _ => ?_⟩
  cases hsrc
  exact h

theorem aggregates_exact_three_rows :
    AggregatesExact noDoubles (fullScan [intBytes 5, intBytes (-7), intBytes 9]) oneIntCol
    countAndSumItems {} [intBytes 5, intBytes (-7), intBytes 9] 4 := by
  have hitems : countAndSum.mapM (analyzeItem oneIntCol) = .ok countAndSumItems := rfl
  have hbegin : (fullScan [intBytes 5, intBytes (-7), intBytes 9]).beginTuple {} =
      some ⟨[intBytes 5, intBytes (-7), intBytes 9], some (intBytes 5), false⟩ := rfl
  refine (aggregates_exact_iff noDoubles _ hitems (sameColumns_self _) oneIntCol_sized hbegin
    (fullScan_emits _ _ none) (by decide)).2 ?_
  rw [countAndSum_fits_iff]
  decide

/-- The sum of the largest `int` and one comes out as the smallest `int`. -/
theorem not_aggregates_exact : countAndSum.mapM (analyzeItem oneIntCol) = .ok countAndSumItems ∧
    ¬ AggregatesExact noDoubles (fullScan [intBytes 2147483647, intBytes 1]) oneIntCol
    countAndSumItems {} [intBytes 2147483647, intBytes 1] 3 := by
  have hbegin : (fullScan [intBytes 2147483647, intBytes 1]).beginTuple {} =
      some ⟨[intBytes 2147483647, intBytes 1], some (intBytes 2147483647), false⟩ := rfl
  have hitems : countAndSum.mapM (analyzeItem oneIntCol) = .ok countAndSumItems := rfl
  have hacc := accepted_of_analyze hitems (sameColumns_self _) oneIntCol_sized
  refine ⟨hitems, ?_⟩
  rw [aggregatesExact_iff_of_accepted noDoubles _ hacc hbegin (fullScan_emits _ _ none) (by decide),
    countAndSum_fits_iff]
  decide

end Rmdb
