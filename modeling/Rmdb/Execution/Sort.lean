import Mathlib.Data.List.Lex
import Rmdb.Execution.Aggregate
import Rmdb.Lib.Sorting

/-!
# ORDER BY and LIMIT

The way of a SELECT without aggregates from its tuples to its output: `Planner::generate_sort_plan`
(`optimizer/planner.cpp`), `SortExecutor` (`execution/execution_sort.h`), `ProjectionExecutor`
(`execution/executor_projection.h`) and the loop of `QlManager::select_from`.  `std::sort` is a
parameter.  The limit is looked at in `SortExecutor` only, which is there only when there is an
ORDER BY.
-/

namespace Rmdb

/-! ## The plan -/

/-- `OrderByDir`. -/
inductive OrderByDir
  | default
  | asc
  | desc
deriving DecidableEq, Repr

/-- `ast::OrderBy`. -/
structure OrderBy where
  cols : TabCol
  orderbyDir : OrderByDir
deriving DecidableEq, Repr

structure SortPlan where
  sortCols : List TabCol
  isDesc : List Bool
  limit : ℤ
deriving DecidableEq, Repr

/-- `Planner::generate_sort_plan`; `none` when the plan is given back as it is.  The columns are
looked up as in `check_column`. -/
def generateSortPlan (allCols : List ColMeta) (orders : List OrderBy) (limit : ℤ) :
    Except AnalyzeError (Option SortPlan) :=
  if orders = [] then .ok none
  else do
    let sortCols ← orders.mapM fun order => checkColumn allCols order.cols
    return some ⟨sortCols, orders.map fun order => order.orderbyDir = .desc, limit⟩

/-! ## Sorting -/

structure SortKeySpec where
  col : ColMeta
  isDesc : Bool
deriving DecidableEq, Repr

/-- The keys that the constructor of `SortExecutor` looks up. -/
def sortKeys (prevCols : List ColMeta) :
    List TabCol → List Bool → Except ExecError (List SortKeySpec)
  | col :: cols, isDesc :: descs => do
    let col ← findCol prevCols col
    return ⟨col, isDesc⟩ :: (← sortKeys prevCols cols descs)
  | _, _ => .ok []

/-- `compare_records`. -/
def compareRecords (a b : Bytes) : List SortKeySpec → Ordering
  | [] => .eq
  | key :: keys =>
    let cmp := ixCompareCol (a.drop key.col.offset) (b.drop key.col.offset) key.col.type key.col.len
    if cmp ≠ .eq then if key.isDesc then cmp.swap else cmp
    else compareRecords a b keys

structure SortState (σ : Type) where
  prev : σ
  sortedRecords : List Bytes := []
  currentIdx : ℕ := 0
  isEnd : Bool := true

section
variable {σ : Type} (sort : (Bytes → Bytes → Bool) → List Bytes → List Bytes)
  (keys : List SortKeySpec) (limit : ℤ) (E : Executor σ)

/-- One round of the loop of `SortExecutor::beginTuple`. -/
def collectRound (s : σ × List Bytes) : Option (Loop (σ × List Bytes)) :=
  if E.isEnd s.1 then some (.done s)
  else do
    let rec ← E.next s.1
    let prev ← E.nextTuple s.1
    return .next (prev, s.2 ++ [rec])

/-- The end of `SortExecutor::beginTuple`; the number of records is compared as an `int`. -/
def cutOff (records : List Bytes) : List Bytes :=
  if 0 ≤ limit ∧ limit < (records.length : ℤ).bmod (2 ^ 32) then records.take limit.toNat
    else records

/-- `SortExecutor`, whose loop has at most `n` rounds.  It has the `peekTuple` of its base class. -/
def sortExecutor (n : ℕ) : Executor (SortState σ) where
  beginTuple s := do
    let prev ← E.beginTuple s.prev
    let (prev, records) ← iterate (collectRound E) n (prev, [])
    let records := cutOff limit (sort (fun a b => compareRecords a b keys = .lt) records)
    return ⟨prev, records, 0, records.isEmpty⟩
  nextTuple s :=
    if s.isEnd then some s
    else
      some { s with
        currentIdx := s.currentIdx + 1, isEnd := s.sortedRecords.length ≤ s.currentIdx + 1 }
  isEnd s := s.isEnd
  next s := if s.isEnd then none else s.sortedRecords[s.currentIdx]?
  peekTuple _ := none

end

/-! ## Projection -/

/-- A column of the output: the column of the child that `sel_idxs_` leads to, and its new
offset. -/
structure ProjectedCol where
  src : ColMeta
  offset : ℕ

/-- The columns and the length that the constructor of `ProjectionExecutor` computes. -/
def projectionCols (prevCols : List ColMeta) :
    List TabCol → ℕ → Except ExecError (List ProjectedCol × ℕ)
  | [], currOffset => .ok ([], currOffset)
  | selCol :: selCols, currOffset => do
    let src ← findCol prevCols selCol
    let (cols, len) ← projectionCols prevCols selCols (currOffset + src.len)
    return (⟨src, currOffset⟩ :: cols, len)

/-- The loop of `ProjectionExecutor::project`. -/
def copyColumns (prevRec : Bytes) : List ProjectedCol → Bytes → Bytes
  | [], rec => rec
  | col :: cols, rec =>
    copyColumns prevRec cols (patch rec col.offset (slice prevRec col.src.offset col.src.len)
      col.src.len)

/-- `ProjectionExecutor::project`. -/
def project (cols : List ProjectedCol) (len : ℕ) (prevRec : Bytes) : Bytes :=
  copyColumns prevRec cols (List.replicate len 0)

structure ProjectionState (σ : Type) where
  prev : σ
  record : Option Bytes := none
  isEnd : Bool := true

section
variable {σ : Type} (proj : Bytes → Bytes) (E : Executor σ)

/-- The end of `beginTuple` and `nextTuple` of `ProjectionExecutor`. -/
def ProjectionState.load (s : ProjectionState σ) (prev : σ) : Option (ProjectionState σ) :=
  if E.isEnd prev then some { s with prev, isEnd := true }
  else do
    let rec ← E.next prev
    return ⟨prev, some (proj rec), false⟩

/-- `ProjectionExecutor`.  It has the `peekTuple` of its base class. -/
def projectionExecutor : Executor (ProjectionState σ) where
  beginTuple s := do s.load proj E (← E.beginTuple s.prev)
  nextTuple s := do s.load proj E (← E.nextTuple s.prev)
  isEnd s := s.isEnd
  next s := if s.isEnd then none else s.record
  peekTuple _ := none

end

/-! ## The statement -/

/-- The tuples that the loop of `select_from` goes through. -/
def selectFrom {σ : Type} (n : ℕ) (E : Executor σ) (s : σ) : Option (List Bytes) := do
  E.delivered.drain n (← E.beginTuple s)

/-- What a SELECT of the given columns puts out over the tuples of `E`. -/
def runSelect {σ : Type} (sort : (Bytes → Bytes → Bool) → List Bytes → List Bytes) (n : ℕ)
    (allCols prevCols : List ColMeta) (selCols : List TabCol) (orders : List OrderBy) (limit : ℤ)
    (E : Executor σ) (s : σ) : Option (List Bytes) := do
  let plan ← (generateSortPlan allCols orders limit).toOption
  match plan with
  | none => do
    let (cols, len) ← (projectionCols prevCols selCols 0).toOption
    selectFrom n (projectionExecutor (project cols len) E) { prev := s }
  | some plan => do
    let keys ← (sortKeys prevCols plan.sortCols plan.isDesc).toOption
    let (cols, len) ← (projectionCols prevCols selCols 0).toOption
    selectFrom n (projectionExecutor (project cols len) (sortExecutor sort keys plan.limit E n))
      { prev := { prev := s } }

/-! ## What the statement asks for -/

/-- The key of a row: the values of the columns, those of DESC with their sign changed. -/
def sortKey (keys : List SortKeySpec) (row : Bytes) : List ℤ :=
  keys.map fun key =>
    let v := colVal (row.drop key.col.offset) key.col.type key.col.len
    if key.isDesc then -v else v

/-- The key of an item of the ORDER BY. -/
structure OrderKey (allCols prevCols : List ColMeta) (order : OrderBy)
    (key : SortKeySpec) : Prop where
  col : ∃ c, checkColumn allCols order.cols = .ok c ∧ findCol prevCols c = .ok key.col
  isDesc : key.isDesc = decide (order.orderbyDir = .desc)

/-- The columns of a row that the statement selects. -/
def selected (srcs : List ColMeta) (row : Bytes) : Bytes :=
  srcs.flatMap fun src => slice row src.offset src.len

/-- The output is made of the first `n` rows of a sorted permutation of the rows. -/
def Limited (keys : List SortKeySpec) (srcs : List ColMeta) (n : ℕ)
    (rows out : List Bytes) : Prop :=
  out.length = min n rows.length ∧ ∃ ys : List Bytes, ys.Perm rows ∧
    ys.Pairwise (fun a b => sortKey keys a ≤ sortKey keys b) ∧ out = (ys.take n).map (selected srcs)

/-! ## The comparison -/

section
variable {keys : List SortKeySpec} {a b : Bytes}

theorem swap_compare_neg (x y : ℤ) : (compare x y).swap = compare (-x) (-y) := by
  rcases Int.lt_trichotomy x y with h | h | h
  · rw [compare_lt_iff_lt.2 h, compare_gt_iff_gt.2 (show -y < -x by omega)]
    rfl
  · rw [h, compare_eq_iff_eq.2 rfl, compare_eq_iff_eq.2 rfl]
    rfl
  · rw [compare_gt_iff_gt.2 h, compare_lt_iff_lt.2 (show -x < -y by omega)]
    rfl

/-- `compare_records` is below zero just when the key of the first record is the smaller one. -/
theorem compareRecords_lt_iff (hfloat : ∀ key ∈ keys, key.col.type ≠ .float)
    (hlen : a.length = b.length) :
    compareRecords a b keys = .lt ↔ sortKey keys a < sortKey keys b := by
  induction keys with
  | nil => simp [compareRecords, sortKey]
  | cons key keys ih =>
    obtain ⟨hkey, hkeys⟩ := List.forall_mem_cons.1 hfloat
    have hcomparable (x : Bytes) : Comparable x key.col.type := by
      cases htype : key.col.type with
      | float => exact absurd htype hkey
      | int | bigint | string | datetime => trivial
    have hdrop : (a.drop key.col.offset).length = (b.drop key.col.offset).length := by simp [hlen]
    have hrest := ih hkeys
    rw [compareRecords, ixCompareCol_eq_compare hdrop (hcomparable _) (hcomparable _)]
    simp only [sortKey, List.map_cons, List.cons_lt_cons_iff] at hrest ⊢
    by_cases heq : colVal (a.drop key.col.offset) key.col.type key.col.len =
        colVal (b.drop key.col.offset) key.col.type key.col.len
    · rw [heq, if_neg (by simp), hrest]
      simp
    · rw [if_pos (by simpa using heq)]
      cases key.isDesc with
      | true => simp [swap_compare_neg, compare_lt_iff_lt, heq]
      | false => simp [compare_lt_iff_lt, heq]

end

/-! ## The executors -/

section
variable {σ : Type} {E : Executor σ} {p : σ} {rows : List Bytes} {n : ℕ}

/-- The loop of `SortExecutor::beginTuple` gathers the tuples that the child still gives. -/
theorem iterate_collectRound (hem : E.delivered.Emits (fun _ => True) rows p) (hn : rows.length < n)
    (done : List Bytes) : ∃ p', iterate (collectRound E) n (p, done) = some (p', done ++ rows) := by
  induction rows generalizing p n done with
  | nil =>
    obtain ⟨n, rfl⟩ : ∃ m, n = m + 1 := ⟨n - 1, by omega⟩
    have hend : E.isEnd p = true := hem.2
    exact ⟨p, by simp [iterate, collectRound, hend]⟩
  | cons row rows ih =>
    obtain ⟨n, rfl⟩ : ∃ m, n = m + 1 := ⟨n - 1, by omega⟩
    obtain ⟨-, hend, hnext, p', hadv, hrest⟩ := hem
    have hend : E.isEnd p = false := hend
    have hnext : E.next p = some row := hnext
    have hadv : E.nextTuple p = some p' := hadv
    obtain ⟨p'', hit⟩ := ih hrest (by simpa using hn) (done ++ [row])
    refine ⟨p'', ?_⟩
    simp only [iterate, collectRound, hend, Bool.false_eq_true, if_false, hnext, hadv,
      Option.bind_eq_bind, Option.bind_some, Option.pure_def]
    rw [hit, List.append_assoc, List.singleton_append]

theorem sortExecutor_emits (sort : (Bytes → Bytes → Bool) → List Bytes → List Bytes)
    (keys : List SortKeySpec) (limit : ℤ) (n : ℕ) (p : σ) (done rest : List Bytes) :
    (sortExecutor sort keys limit E n).delivered.Emits (fun _ => True) rest
      ⟨p, done ++ rest, done.length, rest.isEmpty⟩ := by
  induction rest generalizing done with
  | nil => exact ⟨trivial, rfl⟩
  | cons row rest ih =>
    refine ⟨trivial, rfl, by simp [sortExecutor, Executor.delivered],
      ⟨p, done ++ row :: rest, done.length + 1, rest.isEmpty⟩, ?_, ?_⟩
    · cases rest with
      | nil => simp [sortExecutor, Executor.delivered]
      | cons row' rest => simp [sortExecutor, Executor.delivered]
    · have hrest := ih (done ++ [row])
      rwa [List.append_assoc, List.singleton_append, List.length_append] at hrest

theorem sortExecutor_begins (sort : (Bytes → Bytes → Bool) → List Bytes → List Bytes)
    (keys : List SortKeySpec)
    (limit : ℤ) {p₀ : σ} (hbegin : E.beginTuple p = some p₀)
    (hem : E.delivered.Emits (fun _ => True) rows p₀) (hn : rows.length < n) :
    ∃ s, (sortExecutor sort keys limit E n).beginTuple { prev := p } = some s ∧
      (sortExecutor sort keys limit E n).delivered.Emits (fun _ => True)
        (cutOff limit (sort (fun a b => compareRecords a b keys = .lt) rows)) s := by
  obtain ⟨p', hit⟩ := iterate_collectRound hem hn []
  refine ⟨_, ?_, sortExecutor_emits sort keys limit n p' [] _⟩
  simp [sortExecutor, hbegin, hit]

theorem ProjectionState.load_emits (proj : Bytes → Bytes)
    (hem : E.delivered.Emits (fun _ => True) rows p)
    (s : ProjectionState σ) : ∃ s', s.load proj E p = some s' ∧
      (projectionExecutor proj E).delivered.Emits (fun _ => True) (rows.map proj) s' := by
  induction rows generalizing p s with
  | nil =>
    have hend : E.isEnd p = true := hem.2
    exact ⟨{ s with prev := p, isEnd := true }, by simp [load, hend], trivial, rfl⟩
  | cons row rows ih =>
    obtain ⟨-, hend, hnext, p', hadv, hrest⟩ := hem
    have hend : E.isEnd p = false := hend
    have hnext : E.next p = some row := hnext
    have hadv : E.nextTuple p = some p' := hadv
    obtain ⟨s', hs', hem'⟩ := ih hrest ⟨p, some (proj row), false⟩
    refine ⟨⟨p, some (proj row), false⟩, by simp [load, hend, hnext], trivial, rfl, rfl,
      s', ?_, hem'⟩
    simp [projectionExecutor, Executor.delivered, hadv, hs']

/-- The output of a projection over an executor that gives the rows. -/
theorem selectFrom_projection {proj : Bytes → Bytes} {p₀ : σ} (hbegin : E.beginTuple p = some p₀)
    (hem : E.delivered.Emits (fun _ => True) rows p₀) (hn : rows.length < n) :
    selectFrom n (projectionExecutor proj E) { prev := p } = some (rows.map proj) := by
  obtain ⟨s, hs, hems⟩ := ProjectionState.load_emits proj hem { prev := p }
  have hb : (projectionExecutor proj E).beginTuple { prev := p } = some s := by
    simp [projectionExecutor, hbegin, hs]
  rw [selectFrom, hb]
  exact hems.drain (by simpa using hn)

end

/-! ## The columns of the output -/

section
variable {prevCols srcs : List ColMeta} {selCols : List TabCol}

theorem patch_append (done src rest : Bytes) (h : src.length ≤ rest.length) :
    patch (done ++ rest) done.length src src.length = done ++ src ++ rest.drop src.length := by
  refine List.ext_getElem? fun i => ?_
  rw [patch, List.getElem?_mapIdx]
  rcases Nat.lt_or_ge i done.length with hi | hi
  · rw [List.append_assoc, List.getElem?_append_left hi, List.getElem?_append_left hi,
      List.getElem?_eq_getElem hi, Option.map_some, if_neg (by omega)]
  · rcases Nat.lt_or_ge i (done.length + src.length) with hi' | hi'
    · rw [List.getElem?_append_right hi, List.getElem?_eq_getElem (by omega), Option.map_some,
        if_pos ⟨hi, hi'⟩,
        List.append_assoc, List.getElem?_append_right hi, List.getElem?_append_left (by omega),
        List.getD_eq_getElem?_getD, List.getElem?_eq_getElem (by omega), Option.getD_some]
    · rw [List.getElem?_append_right hi, List.getElem?_append_right (by simpa using hi'),
        List.getElem?_drop,
        List.length_append, show src.length + (i - (done.length + src.length)) =
          i - done.length by omega]
      cases rest[i - done.length]? with
      | none => rfl
      | some x => rw [Option.map_some, if_neg (by omega)]

theorem projectionCols_ok (h : List.Forall₂
      (fun c src => findCol prevCols c = .ok src) selCols srcs) (offset : ℕ) :
    ∃ cols, projectionCols prevCols selCols offset = .ok
    (cols, offset + (srcs.map ColMeta.len).sum) ∧
      ∀ (row done rest : Bytes), done.length = offset → rest.length = (srcs.map ColMeta.len).sum →
        copyColumns row cols (done ++ rest) = done ++ selected srcs row := by
  induction h generalizing offset with
  | nil =>
    refine ⟨[], rfl, fun row done rest _ hrest => ?_⟩
    rw [List.length_eq_zero_iff.1 hrest]
    rfl
  | @cons c src cs srcs hsrc _ ih =>
    obtain ⟨cols, hcols, hcopy⟩ := ih (offset + src.len)
    refine ⟨⟨src, offset⟩ :: cols, ?_, fun row done rest hdone hrest => ?_⟩
    · rw [projectionCols, hsrc]
      simp only [bind, Except.bind, hcols, List.map_cons, List.sum_cons, Nat.add_assoc]
      rfl
    · rw [List.map_cons, List.sum_cons] at hrest
      have hlen : (slice row src.offset src.len).length = src.len := length_slice
      have hpatch := patch_append done (slice row src.offset src.len) rest (by rw [hlen]; omega)
      rw [hlen, hdone] at hpatch
      rw [copyColumns, hpatch, hcopy row _ _ (by simp [hdone]) (by simp [hrest]), List.append_assoc]
      rfl

/-- The projection puts the selected columns one after the other. -/
theorem projection_selects (h : List.Forall₂
      (fun c src => findCol prevCols c = .ok src) selCols srcs) :
    ∃ cols len, projectionCols prevCols selCols 0 = .ok (cols, len) ∧
    project cols len = selected srcs := by
  obtain ⟨cols, hcols, hcopy⟩ := projectionCols_ok h 0
  refine ⟨cols, _, hcols, funext fun row => ?_⟩
  have hrow := hcopy row [] (List.replicate (0 + (srcs.map ColMeta.len).sum) 0) rfl (by simp)
  simpa [project] using hrow

end

/-! ## The output of a statement -/

section
variable {allCols prevCols srcs : List ColMeta} {orders : List OrderBy} {keys : List SortKeySpec}

theorem sortKeys_ok (h : List.Forall₂ (OrderKey allCols prevCols) orders keys) :
    ∃ sortCols, (orders.mapM fun order => checkColumn allCols order.cols) = .ok sortCols ∧
      sortKeys prevCols sortCols (orders.map fun order => decide (order.orderbyDir = .desc)) =
      .ok keys := by
  induction h with
  | nil => exact ⟨[], rfl, rfl⟩
  | @cons order key orders keys hkey _ ih =>
    obtain ⟨sortCols, hcols, hkeys⟩ := ih
    obtain ⟨⟨c, hc, hcol⟩, hdesc⟩ := hkey
    refine ⟨c :: sortCols, ?_, ?_⟩
    · rw [List.mapM_cons, hc, hcols]
      rfl
    · rw [List.map_cons, sortKeys, hcol, hkeys, ← hdesc]
      rfl

variable {σ : Type} {sort : (Bytes → Bytes → Bool) → List Bytes → List Bytes}
  {selCols : List TabCol} {E : Executor σ}
  {rows : List Bytes} {p p₀ : σ} {tupleLen n fuel : ℕ}

/-- Without an ORDER BY all rows come out. -/
theorem runSelect_unordered (limit : ℤ)
    (hsel : List.Forall₂ (fun c src => findCol prevCols c = .ok src) selCols srcs)
    (hbegin : E.beginTuple p = some p₀) (hem : E.delivered.Emits (fun _ => True) rows p₀)
    (hn : rows.length < fuel) :
    runSelect sort fuel allCols prevCols selCols
    [] limit E p = some (rows.map (selected srcs)) := by
  obtain ⟨cols, len, hcols, hproj⟩ := projection_selects hsel
  have hplan : generateSortPlan allCols [] limit = .ok none := rfl
  rw [runSelect, hplan, hcols, ← hproj]
  exact selectFrom_projection hbegin hem hn

/-- With an ORDER BY the rows come out sorted and cut off. -/
theorem runSelect_ordered (limit : ℤ) (hne : orders ≠ [])
    (horders : List.Forall₂ (OrderKey allCols prevCols) orders keys)
    (hsel : List.Forall₂ (fun c src => findCol prevCols c = .ok src) selCols srcs)
    (hbegin : E.beginTuple p = some p₀) (hem : E.delivered.Emits (fun _ => True) rows p₀)
    (hsorted : (sort (fun a b => compareRecords a b keys = .lt) rows).length = rows.length)
    (hn : rows.length < fuel) :
    runSelect sort fuel allCols prevCols selCols orders limit E p =
      some ((cutOff limit (sort (fun a b => compareRecords a b keys = .lt) rows)).map
        (selected srcs)) := by
  obtain ⟨cols, len, hcols, hproj⟩ := projection_selects hsel
  obtain ⟨sortCols, hchecked, hkeys⟩ := sortKeys_ok horders
  obtain ⟨s, hs, hems⟩ := sortExecutor_begins sort keys limit hbegin hem hn
  have hplan : generateSortPlan allCols orders limit =
      .ok (some ⟨sortCols, orders.map fun order => decide (order.orderbyDir = .desc), limit⟩) := by
    rw [generateSortPlan, if_neg hne, hchecked]
    rfl
  have hcut : (cutOff limit (sort (fun a b => compareRecords a b keys = .lt) rows)).length <
      fuel := by
    rw [cutOff]
    split
    · rw [List.length_take, hsorted]
      omega
    · rw [hsorted]
      exact hn
  rw [runSelect, hplan, ← hproj]
  simp only [Except.toOption, Option.bind_eq_bind, Option.bind_some, hkeys, hcols]
  exact selectFrom_projection hs hems hcut

/-- All rows are the first `n` ones just when there are no more than `n`. -/
theorem limited_all_iff {ys : List Bytes} (hperm : ys.Perm rows)
    (hpair : ys.Pairwise fun a b => sortKey keys a ≤ sortKey keys b) :
    Limited keys srcs n rows (ys.map (selected srcs)) ↔ rows.length ≤ n := by
  constructor
  · rintro ⟨hlength, _⟩
    rw [List.length_map, hperm.length_eq] at hlength
    omega
  · intro hle
    refine ⟨?_, ys, hperm, hpair, ?_⟩
    · rw [List.length_map, hperm.length_eq, Nat.min_eq_right hle]
    · rw [List.take_of_length_le (by rw [hperm.length_eq]; exact hle)]

theorem limited_take {ys : List Bytes} (hperm : ys.Perm rows)
    (hpair : ys.Pairwise fun a b => sortKey keys a ≤ sortKey keys b) :
    Limited keys srcs n rows ((ys.take n).map (selected srcs)) := by
  refine ⟨?_, ys, hperm, hpair, rfl⟩
  rw [List.length_map, List.length_take, hperm.length_eq]

theorem sort_rows (hsort : Sorts sort) (hfloat : ∀ key ∈ keys, key.col.type ≠ .float)
    (hlen : ∀ row ∈ rows, row.length = tupleLen) :
    (sort (fun a b => compareRecords a b keys = .lt) rows).Perm rows ∧
      (sort (fun a b => compareRecords a b keys = .lt) rows).Pairwise fun a b =>
      sortKey keys a ≤ sortKey keys b := by
  refine hsort.sorted_by_key fun a ha b hb => ?_
  rw [decide_eq_true_iff]
  exact compareRecords_lt_iff hfloat ((hlen a ha).trans (hlen b hb).symm)

theorem cutOff_of_lt {ys : List Bytes} (h : (n : ℤ) < (ys.length : ℤ).bmod (2 ^ 32)) :
    cutOff n ys = ys.take n := by
  rw [cutOff, if_pos ⟨Int.natCast_nonneg n, h⟩, Int.toNat_natCast]

theorem cutOff_of_not_lt {ys : List Bytes} (h : ¬ (n : ℤ) < (ys.length : ℤ).bmod (2 ^ 32)) :
    cutOff n ys = ys := by
  rw [cutOff, if_neg fun hlt => h hlt.2]

theorem limited_cutOff_iff {ys : List Bytes} (hperm : ys.Perm rows)
    (hpair : ys.Pairwise fun a b => sortKey keys a ≤ sortKey keys b) :
    Limited keys srcs n rows ((cutOff n ys).map (selected srcs)) ↔
      rows.length ≤ n ∨ (n : ℤ) < (rows.length : ℤ).bmod (2 ^ 32) := by
  rcases Int.lt_or_le n ((rows.length : ℤ).bmod (2 ^ 32)) with hlt | hle
  · rw [← hperm.length_eq] at hlt
    rw [cutOff_of_lt hlt]
    rw [hperm.length_eq] at hlt
    exact iff_of_true (limited_take hperm hpair) (.inr hlt)
  · rw [← hperm.length_eq] at hle
    rw [cutOff_of_not_lt (Int.not_lt.2 hle), limited_all_iff hperm hpair]
    rw [hperm.length_eq] at hle
    exact ⟨.inl, fun h => h.resolve_right (Int.not_lt.2 hle)⟩

/-- The statement puts out the first rows of a sorted permutation of its rows just when there are no
more rows than the limit, or there is an ORDER BY and their number is above the limit as an
`int`. -/
theorem order_by_limit_iff (hsort : Sorts sort)
    (horders : List.Forall₂ (OrderKey allCols prevCols) orders keys)
    (hfloat : ∀ key ∈ keys, key.col.type ≠ .float)
    (hsel : List.Forall₂ (fun c src => findCol prevCols c = .ok src) selCols srcs)
    (hbegin : E.beginTuple p = some p₀) (hem : E.delivered.Emits (fun _ => True) rows p₀)
    (hlen : ∀ row ∈ rows, row.length = tupleLen) (hn : rows.length < fuel) :
    (∃ out, runSelect sort fuel allCols prevCols selCols orders n E p = some out ∧
      Limited keys srcs n rows out) ↔
      rows.length ≤ n ∨ orders ≠ [] ∧ (n : ℤ) < (rows.length : ℤ).bmod (2 ^ 32) := by
  by_cases hne : orders = []
  · subst hne
    cases horders
    rw [runSelect_unordered n hsel hbegin hem hn]
    have hpair : rows.Pairwise fun a b => sortKey [] a ≤ sortKey [] b :=
      List.pairwise_of_forall fun a b => le_refl []
    have hall : Limited [] srcs n rows (rows.map (selected srcs)) ↔ rows.length ≤ n :=
      limited_all_iff (.refl rows) hpair
    constructor
    · rintro ⟨out, hout, hlimited⟩
      obtain rfl := Option.some.inj hout
      exact .inl (hall.1 hlimited)
    · rintro (hle | ⟨hcon, _⟩)
      · exact ⟨_, rfl, hall.2 hle⟩
      · exact absurd rfl hcon
  · obtain ⟨hperm, hpair⟩ := sort_rows hsort hfloat hlen
    rw [runSelect_ordered n hne horders hsel hbegin hem hperm.length_eq hn]
    have hcut : Limited keys srcs n rows _ ↔ _ := limited_cutOff_iff hperm hpair
    constructor
    · rintro ⟨out, hout, hlimited⟩
      obtain rfl := Option.some.inj hout
      rcases hcut.1 hlimited with hle | hlt
      · exact .inl hle
      · exact .inr ⟨hne, hlt⟩
    · rintro (hle | ⟨_, hlt⟩)
      · exact ⟨_, rfl, hcut.2 (.inl hle)⟩
      · exact ⟨_, rfl, hcut.2 (.inr hlt)⟩

end

/-! ## A table of one column -/

/-- The column `a` of the table `t`. -/
def colA : ColMeta := ⟨"t", "a", .int, 4, 0⟩

theorem colA_selected : List.Forall₂ (fun c src => findCol oneIntCol c = .ok src)
    [⟨"t", "a"⟩] [colA] :=
  .cons rfl .nil

/-- `SELECT a FROM t ORDER BY a DESC LIMIT 2` on three rows. -/
theorem order_by_desc_limit_two :
    ∃ out, runSelect mergeSorted 4 oneIntCol oneIntCol [⟨"t", "a"⟩] [⟨⟨"", "a"⟩, .desc⟩] (2 : ℕ)
        (fullScan [intBytes 5, intBytes (-7), intBytes 9]) {} = some out ∧
      Limited [⟨colA, true⟩] [colA] 2 [intBytes 5, intBytes (-7), intBytes 9] out := by
  have hbegin : (fullScan [intBytes 5, intBytes (-7), intBytes 9]).beginTuple {} =
      some ⟨[intBytes 5, intBytes (-7), intBytes 9], some (intBytes 5), false⟩ := rfl
  have horders : List.Forall₂ (OrderKey oneIntCol oneIntCol) [⟨⟨"", "a"⟩, .desc⟩] [⟨colA, true⟩] :=
    .cons ⟨⟨⟨"t", "a"⟩, rfl, rfl⟩, rfl⟩ .nil
  have hlen : ∀ row ∈ [intBytes 5, intBytes (-7), intBytes 9], row.length = 4 := by decide
  exact (order_by_limit_iff sorts_mergeSorted horders (by decide) colA_selected hbegin
    (fullScan_emits _ _ none) hlen (by decide)).2 (.inr ⟨by decide, by decide⟩)

/-- `SELECT a FROM t LIMIT 1` on two rows gives both. -/
theorem not_order_by_limit :
    ¬ ∃ out, runSelect mergeSorted 3 oneIntCol oneIntCol [⟨"t", "a"⟩] [] (1 : ℕ)
        (fullScan [intBytes 5, intBytes (-7)]) {} = some out ∧
      Limited [] [colA] 1 [intBytes 5, intBytes (-7)] out := by
  rintro ⟨out, hout, hlength, _⟩
  have hbegin : (fullScan [intBytes 5, intBytes (-7)]).beginTuple {} =
      some ⟨[intBytes 5, intBytes (-7)], some (intBytes 5), false⟩ := rfl
  rw [runSelect_unordered _ colA_selected hbegin (fullScan_emits _ _ none) (by decide)] at hout
  obtain rfl := Option.some.inj hout
  exact absurd hlength (by decide)

end Rmdb
