import Rmdb.Index.Compare
import Rmdb.Record.HeapFile

/-!
# Tables, values and conditions

The metadata of tables and indexes (`system/sm_meta.h`), the values and conditions of a statement
(`common/common.h`) and the helpers of the executors (`execution/executor_utils.h`,
`execution/execution_defs.h`).  The fields `col_num` and `col_tot_len` of an index are the number of
its columns and the sum of their lengths, so they are left out, as is the unused `index` flag of a
column.
-/

namespace Rmdb

/-- The errors that a statement can end with. -/
inductive ExecError
  | transactionAbort
  | tableNotFound (tabName : String)
  | columnNotFound (colName : String)
  | invalidValueCount
  | incompatibleType (lhs rhs : ColType)
  | stringOverflow
  | indexExists (tabName : String) (colNames : List String)
  | assertion
  | rm (e : RmError)
deriving DecidableEq, Repr

structure ColMeta where
  tabName : String
  name : String
  type : ColType
  len : ℕ
  offset : ℕ
deriving DecidableEq, Repr

structure IndexMeta where
  tabName : String
  cols : List ColMeta
deriving DecidableEq, Repr

structure TabMeta where
  name : String
  cols : List ColMeta
  indexes : List IndexMeta
deriving DecidableEq, Repr

/-- `TabMeta::get_col`. -/
def TabMeta.getCol (tab : TabMeta) (colName : String) : Except ExecError ColMeta :=
  match tab.cols.find? (·.name = colName) with
  | some col => .ok col
  | none => .error (.columnNotFound colName)

/-- `IxManager::get_index_name`. -/
def getIndexName (filename : String) (indexCols : List ColMeta) : String :=
  indexCols.foldl (fun name col => name ++ "_" ++ col.name) filename ++ ".idx"

/-! ## Values -/

/-- `Value`, with the bits of its number or the bytes of its string. -/
inductive Value
  | int (v : BitVec 32)
  | bigint (v : BitVec 64)
  | float (v : BitVec 32)
  | str (v : Bytes)
  | datetime (v : BitVec 64)
deriving DecidableEq, Repr

def Value.type : Value → ColType
  | .int _ => .int
  | .bigint _ => .bigint
  | .float _ => .float
  | .str _ => .string
  | .datetime _ => .datetime

/-- `Value::init_raw`. -/
def Value.initRaw (len : ℕ) : Value → Except ExecError Bytes
  | .int v => if len = 4 then .ok (leBytes 4 v.toNat) else .error .assertion
  | .bigint v => if len = 8 then .ok (leBytes 8 v.toNat) else .error .assertion
  | .float v => if len = 4 then .ok (leBytes 4 v.toNat) else .error .assertion
  | .datetime v => if len = 8 then .ok (leBytes 8 v.toNat) else .error .assertion
  | .str v => if len < v.length then .error .stringOverflow
      else .ok (v ++ List.replicate (len - v.length) 0)

/-- `memcpy` of `len` bytes into a record. -/
def patch (rec : Bytes) (offset : ℕ) (src : Bytes) (len : ℕ) : Bytes :=
  rec.mapIdx fun i b => if offset ≤ i ∧ i < offset + len then src.getD (i - offset) 0 else b

/-- The `len` bytes of a record from `offset` on. -/
def slice (rec : Bytes) (offset len : ℕ) : Bytes :=
  (List.range len).map fun i => rec.getD (offset + i) 0

/-- `build_index_key`. -/
def buildIndexKey (index : IndexMeta) (rec : Bytes) : Bytes :=
  index.cols.flatMap fun col => slice rec col.offset col.len

/-- The types and lengths of the columns of an index: `index_col_meta`. -/
def indexColMeta (index : IndexMeta) : List (ColType × ℕ) :=
  index.cols.map fun col => (col.type, col.len)

/-- The key of a record, up to the equality of `ix_compare`. -/
def IndexMeta.key (index : IndexMeta) (rec : Bytes) : IxKey :=
  ixKey (indexColMeta index) (buildIndexKey index rec)

/-! ## Conditions -/

/-- `CompOp`. -/
inductive CompOp
  | eq
  | ne
  | lt
  | gt
  | le
  | ge
deriving DecidableEq, Repr

/-- `TabCol`. -/
structure TabCol where
  tabName : String
  colName : String
deriving DecidableEq, Repr

/-- The right-hand side of a condition: the raw bytes of a value, or a column. -/
inductive Rhs
  | val (raw : Bytes)
  | col (col : TabCol)
deriving DecidableEq, Repr

structure Condition where
  lhsCol : TabCol
  op : CompOp
  rhs : Rhs
deriving DecidableEq, Repr

/-- `eval_compare`, and the `switch` of `eval_cond`. -/
def evalCompare (cmp : Ordering) : CompOp → Bool
  | .eq => cmp == .eq
  | .ne => cmp != .eq
  | .lt => cmp == .lt
  | .gt => cmp == .gt
  | .le => cmp != .gt
  | .ge => cmp != .lt

/-- `find_col` of `execution_defs.h`: by table and name. -/
def findCol (cols : List ColMeta) (target : TabCol) : Except ExecError ColMeta :=
  match cols.find? fun col => col.tabName = target.tabName ∧ col.name = target.colName with
  | some col => .ok col
  | none => .error (.columnNotFound (target.tabName ++ "." ++ target.colName))

/-- `eval_cond`, which `SeqScanExecutor` uses: it compares by the length of the left column. -/
def evalCond (cond : Condition) (rec : Bytes) (cols : List ColMeta) : Except ExecError Bool := do
  let lhsCol ← findCol cols cond.lhsCol
  let lhsData := rec.drop lhsCol.offset
  let rhsData ← match cond.rhs with
    | .val raw => pure raw
    | .col col => do
      let rhsCol ← findCol cols col
      pure (rec.drop rhsCol.offset)
  return evalCompare (ixCompareCol lhsData rhsData lhsCol.type lhsCol.len) cond.op

/-- `eval_conds`: the first condition that fails decides. -/
def evalConds : List Condition → Bytes → List ColMeta → Except ExecError Bool
  | [], _, _ => .ok true
  | cond :: conds, rec, cols => do
    if ← evalCond cond rec cols then evalConds conds rec cols else return false

end Rmdb
