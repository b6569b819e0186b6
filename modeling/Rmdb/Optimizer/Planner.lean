import Rmdb.Execution.Meta

/-!
# Queries and their plans

What `Analyze::do_analyze` does with the tables and the conditions of a SELECT
(`analyze/analyze.cpp`), and the plan that `Planner::make_one_rel` builds for them
(`optimizer/planner.cpp`).  The conversion of a literal to the bytes of a column is a parameter: the
plan does not depend on it.  The selected columns change neither the tables nor the conditions of
the query and are left out.  A scan plan keeps a second copy of its conditions and the columns of
its table, which are left out too.
-/

namespace Rmdb

/-! ## Analysis -/

/-- The tables of a database.  `create_table` gives each column the name of its table, and the lexer
has no empty identifier. -/
structure Catalog where
  tabs : String → Option TabMeta
  colTab : ∀ t tab, tabs t = some tab → ∀ col ∈ tab.cols, col.tabName = t
  named : tabs "" = none

/-- The errors of the analysis. -/
inductive AnalyzeError
  | ambiguousColumn (colName : String)
  | exec (e : ExecError)
deriving DecidableEq, Repr

/-- The right-hand side of a parsed condition, with literals of type `V`. -/
inductive SvRhs (V : Type)
  | val (v : V)
  | col (col : TabCol)
deriving DecidableEq, Repr

/-- `ast::BinaryExpr`.  A column without a table has the empty table name. -/
structure BinaryExpr (V : Type) where
  lhs : TabCol
  op : CompOp
  rhs : SvRhs V
deriving DecidableEq, Repr

/-- `ast::SelectStmt`. -/
structure SelectStmt (V : Type) where
  tabs : List String
  conds : List (BinaryExpr V)
deriving DecidableEq, Repr

structure Query where
  tables : List String
  conds : List Condition
deriving DecidableEq, Repr

/-- `DbMeta::get_table`. -/
def Catalog.getTable (cat : Catalog) (tabName : String) : Except AnalyzeError TabMeta :=
  match cat.tabs tabName with
  | some tab => .ok tab
  | none => .error (.exec (.tableNotFound tabName))

/-- `Analyze::get_all_cols`. -/
def getAllCols (cat : Catalog) (tabNames : List String) : Except AnalyzeError (List ColMeta) := do
  let tabs ← tabNames.mapM cat.getTable
  return tabs.flatMap (·.cols)

/-- The loop of `check_column` that looks for the table of a column. -/
def inferTable (colName : String) : List ColMeta → String → Except AnalyzeError String
  | [], tabName => .ok tabName
  | col :: cols, tabName =>
    if col.name = colName then
      if tabName ≠ "" then .error (.ambiguousColumn colName) else inferTable colName
        cols col.tabName
    else inferTable colName cols tabName

/-- `Analyze::check_column`. -/
def checkColumn (allCols : List ColMeta) (target : TabCol) : Except AnalyzeError TabCol :=
  if target.tabName = "" then do
    let tabName ← inferTable target.colName allCols ""
    if tabName = "" then .error (.exec (.columnNotFound target.colName))
    else return { target with tabName }
  else if allCols.any fun col => col.tabName = target.tabName ∧ col.name = target.colName then
    .ok target
  else .error (.exec (.columnNotFound target.colName))

/-- The metadata of a column of the database: `get_table` and `get_col`. -/
def Catalog.getCol (cat : Catalog) (col : TabCol) : Except AnalyzeError ColMeta := do
  let tab ← cat.getTable col.tabName
  match tab.getCol col.colName with
  | .ok col => return col
  | .error e => .error (.exec e)

/-- `Analyze::get_clause` and one round of `Analyze::check_clause`.  `convert` stands for
`convert_sv_value`, `coerce_value_to_col_type` and `init_raw`. -/
def checkClause {V : Type} (cat : Catalog) (convert : V → ColMeta → Except ExecError Bytes)
    (allCols : List ColMeta) (expr : BinaryExpr V) : Except AnalyzeError Condition := do
  let lhs ← checkColumn allCols expr.lhs
  match expr.rhs with
  | .val v => do
    let lhsCol ← cat.getCol lhs
    match convert v lhsCol with
    | .ok raw => return ⟨lhs, expr.op, .val raw⟩
    | .error e => .error (.exec e)
  | .col col => do
    let rhs ← checkColumn allCols col
    let lhsCol ← cat.getCol lhs
    let rhsCol ← cat.getCol rhs
    if lhsCol.type ≠ rhsCol.type then .error (.exec (.incompatibleType lhsCol.type rhsCol.type))
    else return ⟨lhs, expr.op, .col rhs⟩

/-- `Analyze::do_analyze` for a SELECT.  `getAllCols` fails at the first name that is not a
table. -/
def doAnalyze {V : Type} (cat : Catalog) (convert : V → ColMeta → Except ExecError Bytes)
    (stmt : SelectStmt V) : Except AnalyzeError Query := do
  let allCols ← getAllCols cat stmt.tabs
  let conds ← stmt.conds.mapM (checkClause cat convert allCols)
  return ⟨stmt.tabs, conds⟩

/-! ## Conditions -/

/-- The table map `swap_op`. -/
def CompOp.swapOp : CompOp → CompOp
  | .eq => .eq
  | .ne => .ne
  | .lt => .gt
  | .gt => .lt
  | .le => .ge
  | .ge => .le

namespace Condition

/-- `rhs_col.tab_name`, which is empty beside a value. -/
def rhsTab (cond : Condition) : String :=
  match cond.rhs with
  | .val _ => ""
  | .col col => col.tabName

/-- The two columns swapped, with the operator of `swap_op`.  Only comparisons of two columns are
mirrored; a value would lose its column. -/
def mirror (cond : Condition) : Condition :=
  match cond.rhs with
  | .val raw => ⟨⟨"", ""⟩, cond.op.swapOp, .val raw⟩
  | .col col => ⟨col, cond.op.swapOp, .col cond.lhsCol⟩

/-- The columns that a condition mentions. -/
def cols (cond : Condition) : List TabCol :=
  match cond.rhs with
  | .val _ => [cond.lhsCol]
  | .col col => [cond.lhsCol, col]

end Condition

/-! ## Plans -/

/-- `ScanPlan`: an index scan over the named columns, or a sequential scan without them. -/
structure ScanPlan where
  indexScan : Bool
  tabName : String
  conds : List Condition
  indexColNames : List String
deriving DecidableEq, Repr

/-- `Plan`, without the operators that `make_one_rel` does not create. -/
inductive Plan
  | scan (scan : ScanPlan)
  | join (left right : Plan) (conds : List Condition)
deriving DecidableEq, Repr

/-- The `SmManager` of a planner: the tables, and `num_pages` and `num_records_per_page` of their
files. -/
structure SmView where
  catalog : Catalog
  numPages : String → ℕ
  numRecordsPerPage : String → ℕ

/-- The test of `pop_conds`: the second half does not look at the table. -/
def popsCond (tabName : String) (cond : Condition) : Bool :=
  match cond.rhs with
  | .val _ => tabName = cond.lhsCol.tabName || cond.lhsCol.tabName = ""
  | .col col => cond.lhsCol.tabName = col.tabName

/-- `pop_conds`: the conditions taken, and those left. -/
def popConds (conds : List Condition) (tabName : String) : List Condition × List Condition :=
  (conds.filter (popsCond tabName), conds.filter (! popsCond tabName ·))

/-- The score of an index in `get_index_cols`. -/
def indexScore (tabName : String) (conds : List Condition) : List ColMeta → ℕ
  | [] => 0
  | col :: cols =>
    let usable := conds.filter fun cond =>
      (cond.rhs matches .val _) ∧ cond.lhsCol.tabName = tabName ∧ cond.lhsCol.colName = col.name
    if usable.any (·.op = .eq) then 2 + indexScore tabName conds cols
    else if usable.any fun cond => cond.op ≠ .eq ∧ cond.op ≠ .ne then 1
    else 0

/-- `Planner::get_index_cols`: the columns of the first index with the highest score. -/
def getIndexCols (tab : TabMeta) (tabName : String) (conds : List Condition) :
    Option (List String) :=
  let best := tab.indexes.foldl (fun best index =>
    if best.1 < indexScore tabName conds index.cols then
      (indexScore tabName conds index.cols, index.cols.map (·.name))
    else best) (0, [])
  if 0 < best.1 then some best.2 else none

/-- One scan of `make_one_rel`; `none` when the table does not exist. -/
def makeScan (sm : SmView) (tabName : String) (conds : List Condition) : Option ScanPlan := do
  let tab ← sm.catalog.tabs tabName
  match getIndexCols tab tabName conds with
  | none => return ⟨false, tabName, conds, []⟩
  | some indexColNames => return ⟨true, tabName, conds, indexColNames⟩

/-- The first loop of `make_one_rel`: the scans, and the conditions left for the joins. -/
def makeScans (sm : SmView) : List String → List Condition → Option (List ScanPlan × List Condition)
  | [], conds => some ([], conds)
  | tabName :: tabNames, conds => do
    let scan ← makeScan sm tabName (popConds conds tabName).1
    let (scans, rest) ← makeScans sm tabNames (popConds conds tabName).2
    return (scan :: scans, rest)

/-- One round of `estimate_scan_rows`.  The type of a value is that of its column. -/
def limitRows (sm : SmView) (tabName : String) (rows : ℕ) (cond : Condition) : ℕ :=
  match cond.rhs with
  | .col _ => rows
  | .val raw =>
    if cond.lhsCol.tabName ≠ tabName ∨
        (sm.catalog.getCol cond.lhsCol).toOption.map (·.type) ≠ some .int then
      rows
    else
      let bound := colVal raw .int 4
      if bound < 0 then rows
      else match cond.op with
        | .lt => min rows bound.toNat
        | .le => min rows (bound.toNat + 1)
        | .eq => min rows 1
        | _ => rows

/-- `estimate_scan_rows`. -/
def estimateScanRows (sm : SmView) (scan : ScanPlan) : ℕ :=
  if sm.numPages scan.tabName ≤ 1 then 0
  else scan.conds.foldl (limitRows sm scan.tabName)
    ((sm.numPages scan.tabName - 1) * sm.numRecordsPerPage scan.tabName)

/-- `make_join_plan`, with `maybe_swap_join_children`. -/
def makeJoinPlan (sm : SmView) (left right : Plan) (conds : List Condition) : Plan :=
  match left, right with
  | .scan ls, .scan rs =>
    if estimateScanRows sm ls ≤ estimateScanRows sm rs then .join left right conds
    else .join right left (conds.map Condition.mirror)
  | _, _ => .join left right conds

/-- `push_conds`: which side of the condition was found, or 3 when the condition was attached. -/
def pushConds (cond : Condition) : Plan → ℕ × Plan
  | .scan scan =>
    (if scan.tabName = cond.lhsCol.tabName then 1 else if scan.tabName = cond.rhsTab then 2 else 0,
      .scan scan)
  | .join left right conds =>
    let (leftRes, left) := pushConds cond left
    if leftRes = 3 then (3, .join left right conds)
    else
      let (rightRes, right) := pushConds cond right
      if rightRes = 3 then (3, .join left right conds)
      else if leftRes = 0 ∨ rightRes = 0 then (leftRes + rightRes, .join left right conds)
      else (3, .join left right (conds ++ [if leftRes = 2 then cond.mirror else cond]))

/-- `scantbl` and `joined_tables`. -/
structure Popped where
  scantbl : List Bool
  joinedTables : List String

/-- `pop_scan`: no scan stands for the null pointer. -/
def popScan (st : Popped) (table : String) (scans : List ScanPlan) : Option ScanPlan × Popped :=
  match scans.findIdx? (·.tabName = table) with
  | some i => (scans[i]?, ⟨st.scantbl.set i true, st.joinedTables ++ [table]⟩)
  | none => (none, st)

/-- The first join of `make_one_rel`; `none` when a child would be the null pointer. -/
def firstJoin (sm : SmView) (scans : List ScanPlan) (cond : Condition) : Option
    (Popped × Plan) := do
  let st : Popped := ⟨scans.map fun _ => false, scans.map fun _ => ""⟩
  let (left, st) := popScan st cond.lhsCol.tabName scans
  let (right, st) := popScan st cond.rhsTab scans
  return (st, makeJoinPlan sm (.scan (← left)) (.scan (← right)) [cond])

/-- One round of the loop of `make_one_rel` over the other conditions. -/
def joinCond (sm : SmView) (scans : List ScanPlan) (st : Popped × Plan) (cond : Condition) :
    Option (Popped × Plan) :=
  let (left, popped) :=
    if cond.lhsCol.tabName ∉ st.1.joinedTables then popScan st.1 cond.lhsCol.tabName scans
    else (none, st.1)
  let isneedreverse := cond.rhsTab ∉ popped.joinedTables
  let (right, popped) := if isneedreverse then popScan popped cond.rhsTab scans else (none, popped)
  match left, right with
  | some left, some right =>
    some (popped, makeJoinPlan sm (makeJoinPlan sm (.scan left) (.scan right) [cond]) st.2 [])
  | none, some right => some (popped, makeJoinPlan sm (.scan right) st.2 [cond.mirror])
  | some left, none =>
    if isneedreverse then none else some (popped, makeJoinPlan sm (.scan left) st.2 [cond])
  | none, none => some (popped, (pushConds cond st.2).2)

/-- The last loop of `make_one_rel`. -/
def joinRest (sm : SmView) (scans : List ScanPlan) (scantbl : List Bool) (plan : Plan) : Plan :=
  (scans.zip scantbl).foldl (fun plan scan =>
    if scan.2 then plan else makeJoinPlan sm (.scan scan.1) plan []) plan

/-- `Planner::make_one_rel`. -/
def makeOneRel (sm : SmView) (query : Query) : Option Plan := do
  let (scans, conds) ← makeScans sm query.tables query.conds
  match scans with
  | [] => none
  | [scan] => return .scan scan
  | first :: others =>
    match conds with
    | [] => return joinRest sm scans (true :: others.map fun _ => false) (.scan first)
    | cond :: conds =>
      let st ← firstJoin sm scans cond
      let (popped, plan) ← conds.foldlM (joinCond sm scans) st
      return joinRest sm scans popped.scantbl plan

end Rmdb
