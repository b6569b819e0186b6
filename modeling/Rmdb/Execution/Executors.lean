import Rmdb.Lib.Cursor
import Rmdb.Optimizer.Planner

/-!
# Executors of a SELECT

The scan executors (`execution/executor_seq_scan.h`, `execution/executor_index_scan.h`), the block
join (`execution/executor_nestedloop_join.h`) and `Portal::convert_plan_executor` (`portal.h`).  An
operation that throws an exception, or a loop that is not done after `n` rounds, gives `none`.  The
table and gap locks that the scans take in `beginTuple` are left out.  A join copies the bytes of
its tuples by their length, so its buffers are lists of tuples here.
-/

namespace Rmdb

/-- `AbstractExecutor`, with `next` for the bytes that `Next()` gives in a state. -/
structure Executor (σ : Type) where
  beginTuple : σ → Option σ
  nextTuple : σ → Option σ
  isEnd : σ → Bool
  next : σ → Option Bytes
  peekTuple : σ → Option Bytes

namespace Executor

/-- The tuples of an executor as `Next()` gives them. -/
def delivered {σ : Type} (E : Executor σ) : Cursor σ Bytes :=
  ⟨E.beginTuple, E.nextTuple, E.isEnd, E.next⟩

/-- The tuples of an executor as `peekTuple()` shows them. -/
def peeked {σ : Type} (E : Executor σ) : Cursor σ Bytes :=
  ⟨E.beginTuple, E.nextTuple, E.isEnd, E.peekTuple⟩

end Executor

/-! ## Scans -/

/-- The loop of the scans: from the given rows on, the first row that is kept.  The last row read
comes along. -/
def findRow (keeps : Bytes → Option Bool) :
    List Bytes → Option Bytes → Option (List Bytes × Option Bytes)
  | [], last => some ([], last)
  | row :: rows, _ => do
    if ← keeps row then return (row :: rows, some row)
    else findRow keeps rows (some row)

/-- The state of a `SeqScanExecutor`: the rows that `scan_` has not passed, `record_` and
`is_end_`. -/
structure SeqScanState where
  scan : List Bytes := []
  record : Option Bytes := none
  isEnd : Bool := true

/-- `SeqScanExecutor::find_next`. -/
def SeqScanState.findNext (keeps : Bytes → Option Bool) (rows : List Bytes)
    (record : Option Bytes) : Option SeqScanState := do
  let (scan, record) ← findRow keeps rows record
  return ⟨scan, record, scan.isEmpty⟩

/-- `SeqScanExecutor` over the rows of a file. -/
def seqScanExecutor (rows : List Bytes) (keeps : Bytes → Option Bool) : Executor SeqScanState where
  beginTuple s := SeqScanState.findNext keeps rows s.record
  nextTuple s := if s.isEnd then some s else SeqScanState.findNext keeps s.scan.tail s.record
  isEnd s := s.isEnd
  next s := if s.isEnd then none else s.record
  peekTuple s := if s.isEnd then none else s.record

/-- The state of an `IndexScanExecutor`: the rows that `scan_` has not passed, and the row at
`rid_`. -/
structure IndexScanState where
  scan : Option (List Bytes) := none
  row : Option Bytes := none

def IndexScanState.isEnd (s : IndexScanState) : Bool := s.scan.all (·.isEmpty)

def IndexScanState.findNext (keeps : Bytes → Option Bool) (rows : List Bytes) (row : Option Bytes) :
    Option IndexScanState := do
  let (scan, row) ← findRow keeps rows row
  return ⟨some scan, row⟩

/-- `IndexScanExecutor` over the rows between the bounds of its scan.  It has the `peekTuple` of its
base class. -/
def indexScanExecutor (rows : List Bytes) (keeps : Bytes → Option Bool) :
    Executor IndexScanState where
  beginTuple s := IndexScanState.findNext keeps rows s.row
  nextTuple s := if s.isEnd then some s else IndexScanState.findNext keeps
    (s.scan.getD []).tail s.row
  isEnd s := s.isEnd
  next s := s.row
  peekTuple _ := none

/-! ## Joins -/

/-- `JoinCondSpec`; `rhsVal` is there when `is_rhs_val` is set. -/
structure JoinCondSpec where
  lhsOffset : ℕ
  rhsOffset : ℕ
  lhsOnLeft : Bool
  rhsOnLeft : Bool
  rhsVal : Option Bytes
  lhsType : ColType
  lhsLen : ℕ
  op : CompOp
deriving DecidableEq, Repr

/-- What a `NestedLoopJoinExecutor` is made with. -/
structure JoinParams where
  condSpecs : List JoinCondSpec
  leftTupleLen : ℕ
  joinBufferCapacity : ℕ
deriving DecidableEq, Repr

namespace JoinParams

/-- `is_pure_equi_join`: `hash_probe_enabled_`. -/
def hashProbeEnabled (p : JoinParams) : Bool :=
  ! p.condSpecs.isEmpty && p.condSpecs.all fun spec => spec.op = .eq && spec.rhsVal.isNone

/-- `append_left_key`. -/
def leftKey (p : JoinParams) (left : Bytes) : Bytes :=
  p.condSpecs.flatMap fun spec =>
    slice left (if spec.lhsOnLeft then spec.lhsOffset else spec.rhsOffset) spec.lhsLen

/-- `append_right_key`. -/
def rightKey (p : JoinParams) (right : Bytes) : Bytes :=
  p.condSpecs.flatMap fun spec =>
    slice right (if spec.lhsOnLeft then spec.rhsOffset else spec.lhsOffset) spec.lhsLen

/-- `eval_join_conds`. -/
def evalJoinConds (p : JoinParams) (left right : Bytes) : Bool :=
  p.condSpecs.all fun spec =>
    let lhs := (if spec.lhsOnLeft then left else right).drop spec.lhsOffset
    let rhs := match spec.rhsVal with
      | some raw => raw
      | none => (if spec.rhsOnLeft then left else right).drop spec.rhsOffset
    evalCompare (ixCompareCol lhs rhs spec.lhsType spec.lhsLen) spec.op

/-- The test by which the executor joins two tuples: the keys on the hash path, else the
conditions. -/
def test (p : JoinParams) (left right : Bytes) : Bool :=
  if p.hashProbeEnabled then decide (p.leftKey left = p.rightKey right)
  else p.condSpecs.isEmpty || p.evalJoinConds left right

end JoinParams

/-- The state of a `NestedLoopJoinExecutor`.  The left block is the list of its tuples, and the map
from keys to places in the block is the list of its entries. -/
structure JoinState (σ τ : Type) where
  left : σ
  right : τ
  block : List Bytes := []
  blockIdx : ℕ := 0
  record : Option Bytes := none
  isEnd : Bool := true
  eqHash : List (Bytes × ℕ) := []
  hashBlockReady : Bool := false
  hashMatchIndices : List ℕ := []
  hashMatchPos : ℕ := 0

namespace JoinState

variable {σ τ : Type}

/-- One round of `load_left_block`. -/
def loadRound (p : JoinParams) (L : Executor σ) (s : JoinState σ τ) :
    Option (Loop (JoinState σ τ)) :=
  if L.isEnd s.left then some (.done s)
  else if s.block ≠ [] ∧ p.joinBufferCapacity < (s.block.length + 1) * p.leftTupleLen then
    some (.done s)
  else match L.peekTuple s.left with
    | none => some (.done s)
    | some rec => do
      let left ← L.nextTuple s.left
      return .next { s with left, block := s.block ++ [rec] }

/-- `load_left_block`. -/
def loadLeftBlock (n : ℕ) (p : JoinParams) (L : Executor σ) (s : JoinState σ τ) :
    Option (JoinState σ τ) :=
  iterate (loadRound p L) n { s with block := [] }

/-- `build_eq_hash`. -/
def buildEqHash (p : JoinParams) (s : JoinState σ τ) : JoinState σ τ :=
  { s with eqHash := s.block.mapIdx fun idx left => (p.leftKey left, idx) }

/-- `eq_hash_.find`: the places in the block with the given key. -/
def findEqHash (s : JoinState σ τ) (key : Bytes) : List ℕ :=
  (s.eqHash.filter (·.1 = key)).map (·.2)

/-- `reset_hash_block`. -/
def resetHashBlock (s : JoinState σ τ) : JoinState σ τ :=
  { s with
    hashBlockReady := false, eqHash := [], hashMatchIndices := [], hashMatchPos := 0, block := [] }

/-- `emit_hash_match`: the state with the next match, if there is one. -/
def emitHashMatch (R : Executor τ) (s : JoinState σ τ) : Option (JoinState σ τ) := do
  let leftIdx ← s.hashMatchIndices[s.hashMatchPos]?
  let right ← R.peekTuple s.right
  return { s with
    hashMatchPos := s.hashMatchPos + 1
    record := some (s.block.getD leftIdx [] ++ right)
    isEnd := false }

/-- The clearing of used matches in `find_next_hash`. -/
def dropMatches (R : Executor τ) (s : JoinState σ τ) : Option (JoinState σ τ) :=
  if s.hashMatchIndices = [] then some s
  else if s.hashBlockReady ∧ R.isEnd s.right = false then do
    let right ← R.nextTuple s.right
    return { s with hashMatchIndices := [], hashMatchPos := 0, right }
  else some { s with hashMatchIndices := [], hashMatchPos := 0 }

/-- The loading of a block in `find_next_hash`. -/
def loadHashBlock (n : ℕ) (p : JoinParams) (L : Executor σ) (R : Executor τ) (s : JoinState σ τ) :
    Option (JoinState σ τ) :=
  if s.hashBlockReady then some s
  else do
    let s ← loadLeftBlock n p L s
    if s.block = [] then return s
    let right ← R.beginTuple s.right
    return { buildEqHash p s with right, hashBlockReady := true }

/-- The end of a round of `find_next_hash`: the block is probed with the current right tuple. -/
def probe (p : JoinParams) (R : Executor τ) (s : JoinState σ τ) : Option (Loop (JoinState σ τ)) :=
  if R.isEnd s.right then some (.next s.resetHashBlock)
  else match R.peekTuple s.right with
    | none => do
      let right ← R.nextTuple s.right
      return .next { s with right }
    | some rec =>
      if s.findEqHash (p.rightKey rec) ≠ [] then
        some (.next { s with hashMatchIndices := s.findEqHash (p.rightKey rec), hashMatchPos := 0 })
      else do
        let right ← R.nextTuple s.right
        return .next { s with right }

/-- One round of `find_next_hash`. -/
def hashRound (n : ℕ) (p : JoinParams) (L : Executor σ) (R : Executor τ) (s : JoinState σ τ) :
    Option (Loop (JoinState σ τ)) :=
  match emitHashMatch R s with
  | some s => some (.done s)
  | none => do
    let s ← dropMatches R s
    let s ← loadHashBlock n p L R s
    if s.hashBlockReady then probe p R s else return .done s

/-- The loading of a block in `find_next_nested`. -/
def loadNestedBlock (n : ℕ) (p : JoinParams) (L : Executor σ) (R : Executor τ) (s : JoinState σ τ) :
    Option (JoinState σ τ) :=
  if s.block ≠ [] then some s
  else do
    let s ← loadLeftBlock n p L s
    if s.block = [] then return s
    let right ← R.beginTuple s.right
    return { s with blockIdx := 0, right }

/-- `try_match` when the right side is not at its end; a round that does not match goes on. -/
def tryMatch (p : JoinParams) (R : Executor τ) (s : JoinState σ τ) :
    Option (Loop (JoinState σ τ)) :=
  match R.peekTuple s.right with
  | none => some (.next s)
  | some rec =>
    if p.condSpecs.isEmpty || p.evalJoinConds (s.block.getD s.blockIdx []) rec then
      some (.done { s with record := some (s.block.getD s.blockIdx [] ++ rec), isEnd := false })
    else do
      let right ← R.nextTuple s.right
      return .next { s with right }

/-- One round of the three nested loops of `find_next_nested`. -/
def nestedRound (n : ℕ) (p : JoinParams) (L : Executor σ) (R : Executor τ) (s : JoinState σ τ) :
    Option (Loop (JoinState σ τ)) := do
  let s ← loadNestedBlock n p L R s
  if s.block = [] then return .done s
  else if s.blockIdx < s.block.length then
    if R.isEnd s.right then do
      let right ← R.beginTuple s.right
      return .next { s with blockIdx := s.blockIdx + 1, right }
    else tryMatch p R s
  else return .next { s with block := [], blockIdx := 0 }

/-- `find_next`. -/
def findNext (n : ℕ) (p : JoinParams) (L : Executor σ) (R : Executor τ) (s : JoinState σ τ) :
    Option (JoinState σ τ) :=
  if p.hashProbeEnabled then iterate (hashRound n p L R) n { s with isEnd := true, record := none }
  else iterate (nestedRound n p L R) n { s with isEnd := true, record := none }

end JoinState

/-- `NestedLoopJoinExecutor`, whose loops have `n` rounds.  It has the `peekTuple` of its base
class. -/
def joinExecutor {σ τ : Type} (n : ℕ) (p : JoinParams) (L : Executor σ) (R : Executor τ) :
    Executor (JoinState σ τ) where
  beginTuple s := do
    let left ← L.beginTuple s.left
    JoinState.findNext n p L R { s.resetHashBlock with left, blockIdx := 0 }
  nextTuple s :=
    if s.isEnd then some s
    else if p.hashProbeEnabled then JoinState.findNext n p L R s
    else do
      let right ← R.nextTuple s.right
      JoinState.findNext n p L R { s with right }
  isEnd s := s.isEnd
  next s := if s.isEnd then none else s.record
  peekTuple _ := none

/-! ## From plans to executors -/

/-- An executor with its children, as `convert_plan_executor` builds them. -/
inductive ExecTree
  | seqScan (rows : List Bytes) (keeps : Bytes → Option Bool)
  | indexScan (rows : List Bytes) (keeps : Bytes → Option Bool)
  | join (left right : ExecTree) (p : JoinParams)

namespace ExecTree

/-- The states of an executor. -/
def State : ExecTree → Type
  | .seqScan _ _ => SeqScanState
  | .indexScan _ _ => IndexScanState
  | .join left right _ => JoinState left.State right.State

/-- The state that the constructor leaves. -/
def init : (t : ExecTree) → t.State
  | .seqScan _ _ => ({} : SeqScanState)
  | .indexScan _ _ => ({} : IndexScanState)
  | .join left right _ =>
    ({ left := left.init, right := right.init } : JoinState left.State right.State)

/-- The executor, whose loops have `n` rounds. -/
def executor (n : ℕ) : (t : ExecTree) → Executor t.State
  | .seqScan rows keeps => seqScanExecutor rows keeps
  | .indexScan rows keeps => indexScanExecutor rows keeps
  | .join left right p => joinExecutor n p (left.executor n) (right.executor n)

end ExecTree

/-- `eval_condition` of `executor_utils.h`, which `IndexScanExecutor` uses: it compares by the
length of the right column. -/
def evalCondition (tab : TabMeta) (rec : Bytes) (cond : Condition) : Except ExecError Bool := do
  let lhsCol ← tab.getCol cond.lhsCol.colName
  let (rhs, rhsLen) ← match cond.rhs with
    | .val raw => pure (raw, lhsCol.len)
    | .col col => do
      let rhsCol ← tab.getCol col.colName
      pure (rec.drop rhsCol.offset, rhsCol.len)
  return evalCompare (ixCompareCol (rec.drop lhsCol.offset) rhs lhsCol.type rhsLen) cond.op

/-- `eval_conditions`. -/
def evalConditions (tab : TabMeta) (rec : Bytes) : List Condition → Except ExecError Bool
  | [] => .ok true
  | cond :: conds => do
    if ← evalCondition tab rec cond then evalConditions tab rec conds else return false

/-- The conditions of an `IndexScanExecutor`, turned around when they begin with another table;
`none` when its assertion fails. -/
def indexConds (tabName : String) (conds : List Condition) : Option (List Condition) :=
  conds.mapM fun cond =>
    if cond.lhsCol.tabName = tabName then some cond
    else if cond.rhsTab = tabName then some cond.mirror
    else none

/-- The tables as the executors find them: the rows of a file in the order of `RmScan`, and the rows
that an index scan with the given conditions goes through. -/
structure ExecDb where
  rows : String → List Bytes
  indexRows : String → List String → List Condition → List Bytes

/-- `tupleLen()` of the executor of a plan. -/
def Plan.tupleLen (cat : Catalog) : Plan → ℕ
  | .scan s => ((cat.tabs s.tabName).bind (·.cols.getLast?)).elim 0 fun col => col.offset + col.len
  | .join left right _ => left.tupleLen cat + right.tupleLen cat

/-- `cols()` of the executor of a plan. -/
def Plan.cols (cat : Catalog) : Plan → List ColMeta
  | .scan s => (cat.tabs s.tabName).elim [] (·.cols)
  | .join left right _ =>
    left.cols cat ++ (right.cols cat).map fun col =>
      { col with offset := col.offset + left.tupleLen cat }

/-- One round of `build_cond_specs`. -/
def buildCondSpec (cols : List ColMeta) (leftTupleLen : ℕ) (cond : Condition) :
    Except ExecError JoinCondSpec := do
  let place (col : ColMeta) : ℕ × Bool :=
    if col.offset < leftTupleLen then (col.offset, true) else (col.offset - leftTupleLen, false)
  let lhsCol ← findCol cols cond.lhsCol
  match cond.rhs with
  | .val raw =>
    return ⟨(place lhsCol).1, 0, (place lhsCol).2, false, some raw, lhsCol.type,
      lhsCol.len, cond.op⟩
  | .col col => do
    let rhsCol ← findCol cols col
    return ⟨(place lhsCol).1, (place rhsCol).1, (place lhsCol).2, (place rhsCol).2, none,
      lhsCol.type, lhsCol.len, cond.op⟩

/-- `JOIN_BUFFER_SIZE`. -/
def joinBufferSize : ℕ := 1024 * 1024 * 1024

/-- `Portal::convert_plan_executor`; `none` when a constructor throws. -/
def convertPlanExecutor (cat : Catalog) (db : ExecDb) : Plan → Option ExecTree
  | .scan s => do
    let tab ← cat.tabs s.tabName
    if s.indexScan then do
      let conds ← indexConds s.tabName s.conds
      return .indexScan (db.indexRows s.tabName s.indexColNames conds)
        fun rec => (evalConditions tab rec conds).toOption
    else return .seqScan (db.rows s.tabName) fun rec => (evalConds s.conds rec tab.cols).toOption
  | .join left right conds => do
    let leftTree ← convertPlanExecutor cat db left
    let rightTree ← convertPlanExecutor cat db right
    let specs ← (conds.mapM (buildCondSpec ((Plan.join left right conds).cols cat)
      (left.tupleLen cat))).toOption
    return .join leftTree rightTree ⟨specs, left.tupleLen cat, joinBufferSize⟩

end Rmdb
