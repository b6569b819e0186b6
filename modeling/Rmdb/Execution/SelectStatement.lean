import Rmdb.Execution.IndexScan
import Rmdb.Execution.PlanTuples
import Rmdb.Execution.Sort

/-!
# SELECT statements

A SELECT without aggregates from its parsed form to its output: analysis, plan, executors, ORDER BY
and projection, over tables whose indexes hold their records.  What it puts out are the selected
columns of the tuples of the product of its tables that meet its conditions, each as often as it is
there, in the order that it asks for.
-/

namespace Rmdb

/-! ## The statement -/

/-- The columns that `do_analyze` makes of a select list without aggregates; `*` is the empty
list. -/
def analyzeSelCols (allCols : List ColMeta) (items : List TabCol) :
    Except AnalyzeError (List TabCol) :=
  if items.isEmpty then .ok (allCols.map fun col => ⟨col.tabName, col.name⟩)
  else items.mapM (checkColumn allCols)

/-- The records of the tables, and the trees of their indexes by the names of their columns. -/
structure Store where
  rows : String → List (Rid × Bytes)
  ihs : String → List String → IxIndexHandle Bytes

/-- The records that the scan of an index comes to. -/
def Store.between (store : Store) (t : String) (index : IndexMeta) (conds : List Condition) :
    Option (List (Rid × Bytes)) :=
  let scan := (ixPositions index (store.ihs t (index.cols.map (·.name)))
    (scanBounds t conds index.cols)).through (recordAt (store.rows t))
  (scan.rewind none).bind (scan.drain ((store.rows t).length + 1))

/-- The index of a table with the given columns. -/
def Catalog.findIndex (cat : Catalog) (t : String) (names : List String) : Option IndexMeta :=
  (cat.tabs t).bind fun tab => tab.indexes.find? fun index => index.cols.map (·.name) = names

/-- The tables as the executors find them. -/
def Store.execDb (cat : Catalog) (store : Store) : ExecDb where
  rows t := (store.rows t).map Prod.snd
  indexRows t names conds :=
    (((cat.findIndex t names).bind fun index => store.between t index conds).getD []).map Prod.snd

/-- A SELECT without LIMIT, whose loops have `n` rounds. -/
def executeSelect {V : Type} (sort : (Bytes → Bytes → Bool) → List Bytes → List Bytes) (n : ℕ)
    (sm : SmView)
    (store : Store) (convert : V → ColMeta → Except ExecError Bytes) (stmt : SelectStmt V)
    (items : List TabCol) (orders : List OrderBy) : Option (List Bytes) := do
  let query ← (doAnalyze sm.catalog convert stmt).toOption
  let allCols ← (getAllCols sm.catalog stmt.tabs).toOption
  let selCols ← (analyzeSelCols allCols items).toOption
  let plan ← makeOneRel sm query
  let tree ← convertPlanExecutor sm.catalog (store.execDb sm.catalog) plan
  runSelect sort n allCols (plan.cols sm.catalog) selCols orders (-1) (tree.executor n) tree.init

/-! ## What it asks for -/

/-- The selected columns of a tuple. -/
def Catalog.output (cat : Catalog) (selCols : List TabCol) (b : Binding String Bytes) : Bytes :=
  selCols.flatMap (cat.field b)

/-- The values by which ORDER BY puts a tuple, those of DESC with their sign changed. -/
def Catalog.orderKey (cat : Catalog) (keys : List (TabCol × OrderByDir))
    (b : Binding String Bytes) : List ℤ :=
  keys.map fun key =>
    let v := (b key.1.tabName).elim 0 (cat.value key.1)
    if key.2 = .desc then -v else v

/-- The output is that of the tuples of the product that meet the conditions, in the order of their
keys. -/
def Answers (cat : Catalog) (D : Contents Bytes ℤ) (query : Query) (selCols : List TabCol)
    (keys : List (TabCol × OrderByDir)) (out : List Bytes) : Prop :=
  ∃ tuples : List (Binding String Bytes),
    (tuples : Multiset (Binding String Bytes)) =
      D.select query.conds (Binding.cross D.rows query.tables) ∧
    tuples.Pairwise (fun a b => cat.orderKey keys a ≤ cat.orderKey keys b) ∧
      out = tuples.map (cat.output selCols)

/-- The statement is accepted. -/
structure Accepted {V : Type} (cat : Catalog) (convert : V → ColMeta → Except ExecError Bytes)
    (stmt : SelectStmt V)
    (items : List TabCol) (orders : List OrderBy) (query : Query)
    (selCols sortCols : List TabCol) : Prop where
  analyzed : doAnalyze cat convert stmt = .ok query
  columns : ∃ allCols, getAllCols cat stmt.tabs = .ok allCols ∧ analyzeSelCols allCols items =
    .ok selCols ∧ (orders.mapM fun order => checkColumn allCols order.cols) = .ok sortCols

/-- The condition compares no FLOATs, and no strings of different declared lengths. -/
structure Condition.Comparable (cat : Catalog) (cond : Condition) : Prop where
  noFloat : ∀ c ∈ cond.cols, ∀ col, cat.getCol c = .ok col → col.type ≠ .float
  equalLens : ∀ c lhs rhs, cond.rhs = .col c → cat.getCol cond.lhsCol = .ok lhs →
    cat.getCol c = .ok rhs → lhs.type = .string → lhs.len = rhs.len

/-- A table as `create_table` lays it out, with records of its length and indexes that hold them. -/
structure Store.Holds (store : Store) (cat : Catalog) (t : String) (tab : TabMeta) : Prop where
  stored : Stored cat (store.execDb cat) t tab
  rids : ((store.rows t).map Prod.fst).Nodup
  indexCols : ∀ index ∈ tab.indexes, ∀ col ∈ index.cols, tab.getCol col.name = .ok col
  indexes : ∀ index ∈ tab.indexes, (store.ihs t (index.cols.map (·.name))).HoldsRows index
    (store.rows t)

/-- No record is below the lower end and behind the upper one of a scan of the table by an index. -/
def Store.Unpinched (store : Store) (cat : Catalog) (s : ScanPlan) : Prop :=
  ∀ index, cat.findIndex s.tabName s.indexColNames = some index →
    ∀ r ∈ store.rows s.tabName, pinched s.tabName s.conds r.2 index.cols = false

/-! ## Index scans -/

section
variable {cat : Catalog} {store : Store} {s : ScanPlan} {tab : TabMeta} {index : IndexMeta}

theorem mem_of_findIndex {t : String} {names : List String} (htab : cat.tabs t = some tab)
    (h : cat.findIndex t names = some index) :
    index ∈ tab.indexes ∧ index.cols.map (·.name) = names := by
  rw [Catalog.findIndex, htab, Option.bind_some] at h
  exact ⟨List.mem_of_find?_eq_some h, by simpa using List.find?_some h⟩

theorem resolved_of_onTable {cond : Condition} (h : cond.OnTable tab) : cond.Resolved tab := by
  cases h with
  | const hlhs hget hrhs _ hraw => exact .const hlhs hget hrhs hraw
  | pair hlhs hget hrhs hc hgetc _ htype => exact .pair hlhs hget hrhs hc hgetc htype

/-- The scan of an index comes to the records of its table on which its conditions hold. -/
theorem indexReads_of_holds (hh : store.Holds cat s.tabName tab)
    (hfind : cat.findIndex s.tabName s.indexColNames = some index)
    (hno : store.Unpinched cat s) (hcompares : ∀ cond ∈ s.conds, cond.Compares cat)
    (hon : ∀ cond ∈ s.conds, OnTables [s.tabName] cond) : IndexReads cat (store.execDb cat) s := by
  intro tab' htab'
  have htab := hh.stored.tabs
  obtain rfl := Option.some.inj (htab.symm.trans htab')
  have hmem := (mem_of_findIndex htab hfind).1
  have hres : ∀ cond ∈ s.conds, cond.Resolved tab := fun cond hcond =>
    resolved_of_onTable (Plan.onTable_of_compares htab (hcompares cond hcond) (hon cond hcond))
  have heq : ∀ cond ∈ s.conds, cond.EqualLens tab.cols := by
    intro cond hcond
    have hcols : (Plan.scan s).cols cat = tab.cols := by simp [Plan.cols, htab]
    rw [← hcols]
    exact equalLens_of_compares (by simp) (by simpa using ⟨tab, hh.stored⟩) (hcompares cond hcond)
      (hon cond hcond)
  have hrows : ∀ r ∈ store.rows s.tabName, r.2.length = cat.rowLen s.tabName := fun r hr =>
    hh.stored.rows r.2 (List.mem_map_of_mem hr)
  have hih := hh.indexes index hmem
  have hindex := hh.indexCols index hmem
  obtain ⟨sorted, hsorted, -, hpos⟩ :=
    positions_between htab hres hindex hih hh.rids (hno index hfind)
  obtain ⟨start, hstart, hem⟩ := hpos none trivial
  have hlen : (sorted.filter fun r => !(scanBounds s.tabName s.conds index.cols).below index r.2 &&
      (scanBounds s.tabName s.conds index.cols).within index r.2).length <
        (store.rows s.tabName).length + 1 :=
    Nat.lt_succ_of_le ((List.length_filter_le _ _).trans hsorted.length_eq.le)
  have hbetween : store.between s.tabName index s.conds = some (sorted.filter fun r =>
      !(scanBounds s.tabName s.conds index.cols).below index r.2 &&
        (scanBounds s.tabName s.conds index.cols).within index r.2) := by
    simp only [Store.between, hstart, Option.bind_some]
    exact hem.drain hlen
  have hpass (row : Bytes) : ((evalConditions tab row s.conds).toOption = some true) ↔
      passes tab s.conds row = true := by
    rw [(evalConds_passes hres heq row).2, Option.some_inj]
  simp only [Store.execDb, hfind, Option.bind_some, hbetween, Option.getD_some, hpass,
    List.filter_map, Function.comp_def, List.filter_filter, Bool.decide_eq_true]
  refine List.Perm.map _ ?_
  have hkeep : (sorted.filter fun r =>
    passes tab s.conds r.2 && (!(scanBounds s.tabName s.conds index.cols).below index r.2 &&
      (scanBounds s.tabName s.conds index.cols).within index r.2)) = sorted.filter fun r =>
        passes tab s.conds r.2 := by
    refine List.filter_congr fun r hr => ?_
    cases hp : passes tab s.conds r.2 with
    | false => rfl
    | true =>
      obtain ⟨hbelow, hwithin⟩ :=
        between_of_passes htab hh.stored.laidOut hres heq hindex hrows hih
          (hsorted.mem_iff.mp hr) hp
      rw [hbelow, hwithin]
      rfl
  rw [hkeep]
  exact hsorted.filter _

end

/-! ## Accepted statements -/

section
variable {V : Type} {cat : Catalog} {conv : V → ColMeta → Except ExecError Value}
  {stmt : SelectStmt V}
  {items : List TabCol} {orders : List OrderBy} {query : Query} {selCols sortCols : List TabCol}
  {allCols : List ColMeta}
  {c c' : TabCol} {db : ExecDb} {tables : List String}

/-- A column of one of the tables. -/
def KnownCol (cat : Catalog) (tables : List String) (c : TabCol) : Prop :=
  c.tabName ∈ tables ∧ ∃ col, cat.getCol c = .ok col

theorem knownCol_of_mem_colsOf {t : String} (ht : t ∈ tables) (h : c ∈ cat.colsOf t) :
    KnownCol cat tables c := by
  have hct := tabName_of_mem_colsOf h
  refine ⟨hct ▸ ht, ?_⟩
  rw [← hct] at h
  cases htab : cat.tabs c.tabName with
  | none => simp [Catalog.colsOf, htab] at h
  | some tab =>
    obtain ⟨col, hcol⟩ := getCol_ok htab h
    exact ⟨col, by
      simp [Catalog.getCol, Catalog.getTable, htab, hcol, bind, Except.bind, pure, Except.pure]⟩

theorem knownCol_of_checkColumn (hall : getAllCols cat tables = .ok allCols)
    (h : checkColumn allCols c' = .ok c) : KnownCol cat tables c := by
  obtain ⟨col, hcol, htab, hname⟩ := checkColumn_spec h
  obtain ⟨t, ht, hmem⟩ := mem_allCols hall hcol
  rw [htab, hname] at hmem
  exact knownCol_of_mem_colsOf ht hmem

/-- The selected columns are columns of the tables. -/
theorem knownCol_of_analyzeSelCols (hall : getAllCols cat tables = .ok allCols)
    (h : analyzeSelCols allCols items = .ok selCols) : ∀ c ∈ selCols, KnownCol cat tables c := by
  intro c hc
  rw [analyzeSelCols] at h
  split at h
  · obtain rfl := Except.ok.inj h
    obtain ⟨col, hcol, rfl⟩ := List.mem_map.mp hc
    obtain ⟨t, ht, hmem⟩ := mem_allCols hall hcol
    exact knownCol_of_mem_colsOf ht hmem
  · obtain ⟨item, _, hitem⟩ := exists_of_mem_mapM h c hc
    exact knownCol_of_checkColumn hall hitem

/-- An accepted condition compares columns of one type with each other or with constants of their
length. -/
theorem compares_of_checkClause {expr : BinaryExpr V} {cond : Condition}
    (hall : getAllCols cat tables = .ok allCols)
    (h : checkClause cat (rawOf conv) allCols expr = .ok cond)
    (hcmp : cond.Comparable cat) (hst : ∀ t ∈ tables, ∃ tab, Stored cat db t tab) :
    cond.Compares cat := by
  obtain ⟨lhs, hlhs, h⟩ := exists_of_bind_ok h
  split at h
  · obtain ⟨lhsCol, hget, h⟩ := exists_of_bind_ok h
    split at h
    · next hraw =>
      obtain rfl := Except.ok.inj h
      obtain ⟨val, hval, hraw⟩ := exists_of_bind_ok hraw
      split at hraw
      · cases hraw
      · exact .const hget rfl (hcmp.noFloat _ (lhsCol_mem_cols _) _ hget) (length_initRaw hraw)
    · cases h
  · obtain ⟨rhs, hrhs, h⟩ := exists_of_bind_ok h
    obtain ⟨lhsCol, hget, h⟩ := exists_of_bind_ok h
    obtain ⟨rhsCol, hgetc, h⟩ := exists_of_bind_ok h
    split at h
    · cases h
    · next htype =>
      obtain rfl := Except.ok.inj h
      have htype := not_not.mp htype
      refine .pair hget rfl hgetc (hcmp.noFloat _ (lhsCol_mem_cols _) _ hget) htype ?_
      by_cases hstr : lhsCol.type = .string
      · exact hcmp.equalLens _ _ _ rfl hget hgetc hstr
      · obtain ⟨ltab, hlst⟩ := hst _ (knownCol_of_checkColumn hall hlhs).1
        obtain ⟨rtab, hrst⟩ := hst _ (knownCol_of_checkColumn hall hrhs).1
        rw [← (width_of_getCol hlst hget).1, ← (width_of_getCol hrst hgetc).1, ← htype]
        exact compareWidth_of_ne hstr _ _

theorem compares_of_doAnalyze (h : doAnalyze cat (rawOf conv) stmt = .ok query)
    (hcmp : ∀ cond ∈ query.conds, cond.Comparable cat)
    (hst : ∀ t ∈ stmt.tabs, ∃ tab, Stored cat db t tab) :
    ∀ cond ∈ query.conds, cond.Compares cat := by
  obtain ⟨allCols, hall, h⟩ := exists_of_bind_ok h
  obtain ⟨conds, hconds, h⟩ := exists_of_bind_ok h
  obtain rfl := Except.ok.inj h
  intro cond hcond
  obtain ⟨expr, _, hexpr⟩ := exists_of_mem_mapM hconds cond hcond
  exact compares_of_checkClause hall hexpr (hcmp cond hcond) hst

end

/-! ## The output of a tuple -/

section
variable {cat : Catalog} {db : ExecDb} {plan : Plan} {tab : TabMeta}
  {selCols sortCols : List TabCol}
  {allCols : List ColMeta} {orders : List OrderBy} {c : TabCol} {col col' : ColMeta}
  {b : Binding String Bytes}

/-- A value is read off the bytes of its column. -/
theorem colVal_take {type : ColType} {len : ℕ} (hwidth : compareWidth type len = len) (x : Bytes) :
    colVal (x.take len) type len = colVal x type len := by
  cases type with
  | string => simp only [colVal, List.take_take, Nat.min_self]
  | int | float =>
    obtain rfl : 4 = len := hwidth
    simp only [colVal, List.take_take, Nat.min_self]
  | bigint | datetime =>
    obtain rfl : 8 = len := hwidth
    simp only [colVal, List.take_take, Nat.min_self]

/-- What `compare_records` reads of a tuple is the value of the column. -/
theorem colVal_of_finds (hst : Stored cat db c.tabName tab) (hget : cat.getCol c = .ok col)
    (hf : plan.Finds cat c col col') (hc : c.tabName ∈ plan.tables) (hb : plan.Fits cat b) :
    colVal ((plan.tuple b).drop col'.offset) col'.type col'.len = (b c.tabName).elim 0
    (cat.value c) := by
  have hwidth : compareWidth col'.type col'.len = col'.len := by
    rw [hf.type, hf.len]
    exact (width_of_getCol hst hget).1
  rw [← colVal_take hwidth, ← slice_eq (by rw [Plan.length_tuple hb]; exact hf.inside),
    hf.reads b hb, hf.type, hf.len]
  have hvalue := value_of_fits hb hc hget
  cases hrow : b c.tabName with
  | none =>
    rw [hrow] at hvalue
    cases hvalue
  | some row =>
    rw [hrow] at hvalue
    exact (Option.some.inj hvalue).symm

section
variable (hn : plan.tables.Nodup) (hst : ∀ t ∈ plan.tables, ∃ tab, Stored cat db t tab)

include hn hst

/-- The projection reads the selected columns. -/
theorem exists_srcs (hsel : ∀ c ∈ selCols, KnownCol cat plan.tables c) :
    ∃ srcs, List.Forall₂ (fun c src => findCol (plan.cols cat) c = .ok src) selCols srcs ∧
      ∀ b, plan.Fits cat b → selected srcs (plan.tuple b) = cat.output selCols b := by
  induction selCols with
  | nil => exact ⟨[], .nil, fun b _ => rfl⟩
  | cons c selCols ih =>
    obtain ⟨⟨hc, col, hget⟩, hsel⟩ := List.forall_mem_cons.mp hsel
    obtain ⟨srcs, hsrcs, hread⟩ := ih hsel
    obtain ⟨src, hf⟩ := Plan.exists_finds hn hst hc hget
    refine ⟨src :: srcs, .cons hf.find hsrcs, fun b hb => ?_⟩
    have hrest := hread b hb
    rw [selected, Catalog.output] at hrest ⊢
    rw [List.flatMap_cons, List.flatMap_cons, hf.reads b hb, hrest]

/-- The sort compares the columns of ORDER BY. -/
theorem exists_orderKeys (hall : ∃ tables, getAllCols cat tables = .ok allCols ∧
      ∀ t ∈ tables, t ∈ plan.tables)
    (hsort : (orders.mapM fun order => checkColumn allCols order.cols) = .ok sortCols)
    (hfloat : ∀ c ∈ sortCols, ∀ col, cat.getCol c = .ok col → col.type ≠ .float) :
    ∃ keys, List.Forall₂ (OrderKey allCols (plan.cols cat)) orders keys ∧
    (∀ key ∈ keys, key.col.type ≠ .float) ∧ ∀ b, plan.Fits cat b →
        sortKey keys (plan.tuple b) = cat.orderKey
        (sortCols.zip (orders.map (·.orderbyDir))) b := by
  induction orders generalizing sortCols with
  | nil =>
    obtain rfl := Except.ok.inj hsort
    exact ⟨[], .nil, by simp, fun b _ => rfl⟩
  | cons order orders ih =>
    rw [List.mapM_cons] at hsort
    obtain ⟨c, hcheck, hsort⟩ := exists_of_bind_ok hsort
    obtain ⟨sortCols, hsorts, hsort⟩ := exists_of_bind_ok hsort
    obtain rfl := Except.ok.inj hsort
    obtain ⟨hfloat₁, hfloat⟩ := List.forall_mem_cons.mp hfloat
    obtain ⟨keys, hkeys, hfloats, hread⟩ := ih hsorts hfloat
    obtain ⟨tables, hcols, hsub⟩ := hall
    obtain ⟨hin, col, hget⟩ := knownCol_of_checkColumn hcols hcheck
    have hc := hsub _ hin
    obtain ⟨tab, htab⟩ := hst _ hc
    obtain ⟨col', hf⟩ := Plan.exists_finds hn hst hc hget
    refine ⟨⟨col', decide (order.orderbyDir = .desc)⟩ :: keys,
      .cons ⟨⟨c, hcheck, hf.find⟩, rfl⟩ hkeys, ?_, fun b hb => ?_⟩
    · exact List.forall_mem_cons.mpr ⟨hf.type ▸ hfloat₁ col hget, hfloats⟩
    · have hrest := hread b hb
      rw [sortKey, Catalog.orderKey] at hrest ⊢
      rw [List.map_cons, List.map_cons, List.zip_cons_cons, List.map_cons, hrest,
        colVal_of_finds htab hget hf hc hb]
      simp only [decide_eq_true_eq]

end

end

/-! ## The output of the tuples -/

section
variable {σ : Type} {E : Executor σ} {p p₀ : σ} {cat : Catalog} {plan : Plan}
  {M : Multiset (Binding String Bytes)}
  {rows : List Bytes} {srcs allCols : List ColMeta} {keys : List SortKeySpec}
  {selCols : List TabCol}
  {orders : List OrderBy} {order : List (TabCol × OrderByDir)} {n : ℕ}
  {sort : (Bytes → Bytes → Bool) → List Bytes → List Bytes}

/-- The tuples that some rows are the bytes of. -/
theorem exists_tuples (h : (rows : Multiset Bytes) = M.map plan.tuple) :
    ∃ tuples : List (Binding String Bytes), (tuples : Multiset (Binding String Bytes)) = M ∧
      rows = tuples.map fun b => plan.tuple b := by
  induction M using Quotient.inductionOn with
  | h tuples =>
    obtain ⟨tuples', hperm, heq⟩ := exists_perm_map (Multiset.coe_eq_coe.mp h)
    exact ⟨tuples', Multiset.coe_eq_coe.mpr hperm, heq⟩

/-- The statement puts out the tuples that its executor delivers. -/
theorem runSelect_answers (hbegin : E.beginTuple p = some p₀)
    (hem : E.delivered.Emits (fun _ => True) rows p₀)
    (hrows : (rows : Multiset Bytes) = M.map plan.tuple) (hfits : ∀ b ∈ M, plan.Fits cat b)
    (hsrcs : List.Forall₂ (fun c src => findCol (plan.cols cat) c = .ok src) selCols srcs)
    (hselected : ∀ b, plan.Fits cat b → selected srcs (plan.tuple b) = cat.output selCols b)
    (hkeys : List.Forall₂ (OrderKey allCols (plan.cols cat)) orders keys)
    (hfloat : ∀ key ∈ keys, key.col.type ≠ .float)
    (hkeyed : ∀ b, plan.Fits cat b → sortKey keys (plan.tuple b) = cat.orderKey order b)
    (hsort : Sorts sort) (hn : rows.length < n) :
    ∃ out, runSelect sort n allCols (plan.cols cat) selCols orders (-1) E p = some out ∧
      ∃ tuples : List (Binding String Bytes), (tuples : Multiset (Binding String Bytes)) = M ∧
        tuples.Pairwise (fun a b => cat.orderKey order a ≤ cat.orderKey order b) ∧
        out = tuples.map (cat.output selCols) := by
  have hsorted : ∃ sorted : List Bytes, sorted.Perm rows ∧
      runSelect sort n allCols (plan.cols cat) selCols orders (-1) E p =
        some (sorted.map (selected srcs)) ∧
      sorted.Pairwise fun a b => sortKey keys a ≤ sortKey keys b := by
    by_cases hne : orders = []
    · subst hne
      cases hkeys
      exact ⟨rows, .refl rows, runSelect_unordered _ hsrcs hbegin hem hn, List.pairwise_of_forall
        fun _ _ => le_refl []⟩
    · have hlen : ∀ row ∈ rows, row.length = plan.tupleLen cat := by
        intro row hrow
        rw [← Multiset.mem_coe, hrows] at hrow
        obtain ⟨b, hb, rfl⟩ := Multiset.mem_map.mp hrow
        exact Plan.length_tuple (hfits b hb)
      obtain ⟨hperm, hpair⟩ := sort_rows hsort hfloat hlen
      refine ⟨_, hperm, ?_, hpair⟩
      rw [runSelect_ordered _ hne hkeys hsrcs hbegin hem hperm.length_eq hn, cutOff,
        if_neg (by omega)]
  obtain ⟨sorted, hperm, hrun, hpair⟩ := hsorted
  obtain ⟨tuples, htuples, rfl⟩ := exists_tuples ((Multiset.coe_eq_coe.mpr hperm).trans hrows)
  have hfits' : ∀ b ∈ tuples, plan.Fits cat b :=
    fun b hb => hfits b (htuples ▸ Multiset.mem_coe.mpr hb)
  refine ⟨_, hrun, tuples, htuples, ?_, ?_⟩
  · refine (List.pairwise_map.mp hpair).imp_of_mem fun ha hb hle => ?_
    rwa [hkeyed _ (hfits' _ ha), hkeyed _ (hfits' _ hb)] at hle
  · rw [List.map_map]
    exact List.map_congr_left fun b hb => hselected b (hfits' b hb)

end

/-! ## From the statement to its output -/

section
variable {V : Type} {sm : SmView} {conv : V → ColMeta → Except ExecError Value}
  {stmt : SelectStmt V}
  {query : Query} {plan : Plan} {store : Store}

/-- The plan of an accepted statement means its query, and its executors read what it means. -/
theorem readable_of_doAnalyze (hq : doAnalyze sm.catalog (rawOf conv) stmt = .ok query)
    (hne : stmt.tabs ≠ [])
    (hn : stmt.tabs.Nodup) (hfirst : ∀ cond ∈ query.conds, OnFirstTable query cond)
    (hcmp : ∀ cond ∈ query.conds, cond.Comparable sm.catalog)
    (hstore : ∀ t ∈ stmt.tabs, ∃ tab, store.Holds sm.catalog t tab)
    (hno : ∀ plan, makeOneRel sm query = some plan → ∀ s ∈ plan.scans, s.indexScan = true →
      store.Unpinched sm.catalog s) :
    ∃ plan tree, makeOneRel sm query = some plan ∧
      convertPlanExecutor sm.catalog (store.execDb sm.catalog) plan = some tree ∧ tree.Evaluates ∧
      MeansQuery sm.catalog query plan ∧ plan.Readable sm.catalog (store.execDb sm.catalog) := by
  obtain ⟨htabs, hchecked⟩ := checked_of_doAnalyze hq
  have hst : ∀ t ∈ stmt.tabs, ∃ tab, Stored sm.catalog (store.execDb sm.catalog) t tab :=
      fun t ht => by
    obtain ⟨tab, htab⟩ := hstore t ht
    exact ⟨tab, htab.stored⟩
  have hcompares := compares_of_doAnalyze hq hcmp hst
  rw [← htabs] at hne hn hst hstore
  obtain ⟨scans, rest, plan, hplan, hs, hperm, hok⟩ := makeOneRel_spec hchecked hne hn
  have hmeans := (meansQuery_iff hchecked hne hn hs hperm hok).mpr hfirst
  obtain ⟨tree, htree, hev⟩ := convertPlanExecutor_spec (store.execDb sm.catalog)
    (fun t ht => hchecked.exist t (hmeans.tables.subset ht)) hmeans.covered
  obtain ⟨horiented, hbest⟩ := kept_of_makeOneRel hchecked hn hplan
  have hscanned : ∀ s ∈ plan.scans, ∀ cond ∈ s.conds, OnTables [s.tabName] cond := by
    intro s hs cond hcond col hcol
    have hcov := hmeans.covered.1 s hs cond hcond col hcol
    rw [List.flatMap_singleton] at hcov
    exact List.mem_singleton.mpr (tabName_of_mem_colsOf hcov)
  have hplanned : ∀ cond ∈ plan.conds, cond.Compares sm.catalog := by
    intro cond hcond
    obtain ⟨cond₀, hcond₀, hm⟩ := Multiset.exists_mem_of_rel_of_mem
      (Multiset.rel_flip.mpr hmeans.attached) (Multiset.mem_coe.mpr hcond)
    exact compares_of_mirrors hm (hcompares cond₀ (Multiset.mem_coe.mp hcond₀))
  refine ⟨plan, tree, hplan, htree, hev, hmeans, hmeans.tables.nodup_iff.mpr hn, horiented,
    hscanned, hplanned,
    fun t ht => hst t (hmeans.tables.subset ht), fun s hs hscan => ?_⟩
  obtain ⟨tab, hh⟩ := hstore s.tabName (hmeans.tables.subset (List.mem_map_of_mem hs))
  obtain ⟨tab', htab', hbest⟩ := hbest s hs
  rw [BestScan, if_pos hscan] at hbest
  obtain ⟨index, hindex, hnames, -⟩ := hbest
  obtain ⟨index', hfind⟩ : ∃ index', sm.catalog.findIndex s.tabName s.indexColNames =
      some index' := by
    rw [Catalog.findIndex, htab', Option.bind_some, ← Option.isSome_iff_exists, List.find?_isSome]
    exact ⟨index, hindex, by simp [hnames]⟩
  refine indexReads_of_holds hh hfind (hno plan hplan s hs hscan)
    (fun cond hcond => hplanned cond ?_) (hscanned s hs)
  rw [← Multiset.mem_coe, coe_conds, Multiset.mem_add, Multiset.mem_coe]
  exact .inl (List.mem_flatMap.mpr ⟨s, hs, hcond⟩)

end

/-- An accepted SELECT puts out the selected columns of the tuples of the product of its tables that
meet its conditions, each as often as it is there and in the order that it asks for.  Its
comparisons of two columns of one table are on the first table, no record is pinched between the
ends of an index scan, and the children of joins are sequential scans or have no tuple. -/
theorem select_answers {V : Type} {sm : SmView} {conv : V → ColMeta → Except ExecError Value}
    {stmt : SelectStmt V}
    {items : List TabCol} {orders : List OrderBy} {query : Query} {selCols sortCols : List TabCol}
    {store : Store}
    {sort : (Bytes → Bytes → Bool) → List Bytes → List Bytes}
    (hacc : Accepted sm.catalog (rawOf conv) stmt items orders query selCols sortCols)
    (hne : stmt.tabs ≠ [])
    (hn : stmt.tabs.Nodup) (hfirst : ∀ cond ∈ query.conds, OnFirstTable query cond)
    (hcmp : ∀ cond ∈ query.conds, cond.Comparable sm.catalog)
    (hfloat : ∀ c ∈ sortCols, ∀ col, sm.catalog.getCol c = .ok col → col.type ≠ .float)
    (hstore : ∀ t ∈ stmt.tabs, ∃ tab, store.Holds sm.catalog t tab)
    (hno : ∀ plan, makeOneRel sm query = some plan → ∀ s ∈ plan.scans, s.indexScan = true →
      store.Unpinched sm.catalog s)
    (hquiet : ∀ plan tree, makeOneRel sm query = some plan →
      convertPlanExecutor sm.catalog (store.execDb sm.catalog) plan = some tree →
      tree.QuietChildren)
    (hsort : Sorts sort) :
    ∃ N, ∀ n ≥ N, ∃ out, executeSelect sort n sm store (rawOf conv) stmt items orders = some out ∧
      Answers sm.catalog ((store.execDb sm.catalog).contents sm.catalog) query selCols
        (sortCols.zip (orders.map (·.orderbyDir))) out := by
  obtain ⟨hq, allCols, hall, hsel, hsorted⟩ := hacc
  obtain ⟨plan, tree, hplan, htree, hev, hmeans, hread⟩ :=
    readable_of_doAnalyze hq hne hn hfirst hcmp hstore hno
  have htabs := (checked_of_doAnalyze hq).1
  have hin : ∀ t ∈ stmt.tabs, t ∈ plan.tables := fun t ht => hmeans.tables.symm.subset (htabs ▸ ht)
  have hknown : ∀ c ∈ selCols, KnownCol sm.catalog plan.tables c := fun c hc => by
    obtain ⟨hmem, hget⟩ := knownCol_of_analyzeSelCols hall hsel c hc
    exact ⟨hin _ hmem, hget⟩
  obtain ⟨srcs, hsrcs, hselected⟩ := exists_srcs hread.nodup hread.stored hknown
  obtain ⟨keys, hkeys, hfloats, hkeyed⟩ :=
    exists_orderKeys hread.nodup hread.stored ⟨stmt.tabs, hall, hin⟩ hsorted hfloat
  have hresult := Plan.result_eq hread htree
  have hfits : ∀ b ∈ plan.denote ((store.execDb sm.catalog).contents sm.catalog),
    plan.Fits sm.catalog b :=
    fun b hb => (Plan.bound_of_mem_denote hread hb).fits
  rw [hmeans.denotes] at hresult hfits
  obtain ⟨N, hN⟩ := ExecTree.enumerates_of_quiet hev (hquiet plan tree hplan htree)
  refine ⟨max N (tree.result.card + 1), fun n hn => ?_⟩
  obtain ⟨start, rows, hbegin, hrows, hem⟩ := hN n (by omega) tree.init tree.ready_init
  have hlen : rows.length < n := by
    rw [← Multiset.coe_card, hrows]
    omega
  obtain ⟨out, hrun, hanswers⟩ :=
    runSelect_answers hbegin (hem.mono fun _ _ => trivial) (hrows.trans hresult) hfits hsrcs
    hselected hkeys hfloats hkeyed hsort hlen
  refine ⟨out, ?_, hanswers⟩
  simp only [executeSelect, hq, hall, hsel, hplan, htree, Except.toOption, Option.bind_eq_bind,
    Option.bind_some]
  exact hrun

/-- The tables `t1` and `t2` with the columns `a` and `b`, and two records in each. -/
def twoTablesStore : Store where
  rows t :=
    if t = "t1" then [(⟨1, 0⟩, [1, 0, 0, 0, 7, 0, 0, 0]), (⟨1, 1⟩, [2, 0, 0, 0, 8, 0, 0, 0])]
    else [(⟨1, 0⟩, [3, 0, 0, 0, 7, 0, 0, 0]), (⟨1, 1⟩, [2, 0, 0, 0, 7, 0, 0, 0])]
  ihs _ _ := createIndex Bytes 100

/-- `FROM t1, t2 WHERE t1.a < t2.a AND t2.b = 7`. -/
def joinOnA : SelectStmt Value :=
  ⟨["t1", "t2"], [⟨⟨"t1", "a"⟩, .lt, .col ⟨"t2", "a"⟩⟩, ⟨⟨"t2", "b"⟩, .eq, .val (.int 7)⟩]⟩

theorem holds_twoTablesStore (t : String) (ht : t ∈ ["t1", "t2"]) :
    ∃ tab, twoTablesStore.Holds twoTables t tab := by
  have hcase : t = "t1" ∨ t = "t2" := by simpa using ht
  have htabs : twoTables.tabs t = some ⟨t, [⟨t, "a", .int, 4, 0⟩, ⟨t, "b", .int, 4, 4⟩], []⟩ :=
    if_pos hcase
  have hlen : twoTables.rowLen t = 8 := by
    rw [Catalog.rowLen, htabs]
    rfl
  refine ⟨_, ⟨htabs, ⟨by simp, by simp [hlen], by simp [compareWidth]⟩, by simp, ?_⟩,
    ?_, by simp, by simp⟩
  · rw [hlen]
    rcases hcase with rfl | rfl <;> decide
  · rcases hcase with rfl | rfl <;> decide

theorem int_of_twoTables {c : TabCol} {col : ColMeta} (h : twoTables.getCol c = .ok col) :
    col.type = .int := by
  obtain ⟨tab, htab, h⟩ := exists_of_bind_ok h
  have htabs := getTable_ok htab
  simp only [twoTables] at htabs
  split at htabs
  · obtain rfl := Option.some.inj htabs
    split at h
    · next col' hget =>
      obtain rfl := Except.ok.inj h
      rw [TabMeta.getCol] at hget
      split at hget
      · next hfind =>
        obtain rfl := Except.ok.inj hget
        rcases List.mem_pair.mp (List.mem_of_find?_eq_some hfind) with rfl | rfl
        · rfl
        · rfl
      · cases hget
    · cases h
  · cases htabs

/-- `SELECT t2.a, t1.a FROM t1, t2 WHERE t1.a < t2.a AND t2.b = 7 ORDER BY t1.a DESC`. -/
theorem select_answers_two_tables :
    ∃ N, ∀ n ≥ N, ∃ out, executeSelect mergeSorted n
    ⟨twoTables, fun _ => 1, fun _ => 100⟩ twoTablesStore
        (rawOf fun v _ => .ok v) joinOnA [⟨"t2", "a"⟩, ⟨"t1", "a"⟩]
        [⟨⟨"t1", "a"⟩, .desc⟩] = some out ∧
      Answers twoTables ((twoTablesStore.execDb twoTables).contents twoTables)
        ⟨["t1", "t2"], [⟨⟨"t1", "a"⟩, .lt, .col ⟨"t2", "a"⟩⟩,
          ⟨⟨"t2", "b"⟩, .eq, .val [7, 0, 0, 0]⟩]⟩
        [⟨"t2", "a"⟩, ⟨"t1", "a"⟩] [(⟨"t1", "a"⟩, .desc)] out := by
  have hacc : Accepted twoTables (rawOf fun v _ => .ok v) joinOnA [⟨"t2", "a"⟩, ⟨"t1", "a"⟩]
    [⟨⟨"t1", "a"⟩, .desc⟩]
      ⟨["t1", "t2"], [⟨⟨"t1", "a"⟩, .lt, .col ⟨"t2", "a"⟩⟩, ⟨⟨"t2", "b"⟩, .eq, .val [7, 0, 0, 0]⟩]⟩
      [⟨"t2", "a"⟩, ⟨"t1", "a"⟩] [⟨"t1", "a"⟩] := ⟨rfl, _, rfl, rfl, rfl⟩
  let sm : SmView := ⟨twoTables, fun _ => 1, fun _ => 100⟩
  have hne : joinOnA.tabs ≠ [] := by decide
  have hn : joinOnA.tabs.Nodup := by decide
  refine @select_answers _ sm _ _ _ _ _ _ _ _ _ hacc hne hn ?_ ?_ ?_ holds_twoTablesStore ?_ ?_
    sorts_mergeSorted
  · simp [OnFirstTable]
  · refine fun cond _ => ⟨fun c _ col hcol => ?_, fun c lhs rhs _ hlhs _ hstr => ?_⟩
    · rw [int_of_twoTables hcol]
      exact ColType.noConfusion
    · rw [int_of_twoTables hlhs] at hstr
      cases hstr
  · intro c _ col hcol
    rw [int_of_twoTables hcol]
    exact ColType.noConfusion
  · intro plan hplan
    cases hplan
    intro s hs hscan
    rcases List.mem_pair.mp hs with rfl | rfl
    · cases hscan
    · cases hscan
  · intro plan tree hplan htree
    cases hplan
    cases htree
    intro child hc
    rcases List.mem_pair.mp hc with rfl | rfl
    · exact .inl trivial
    · exact .inl trivial

end Rmdb
