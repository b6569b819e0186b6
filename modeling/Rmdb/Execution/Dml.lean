import Rmdb.Execution.Meta
import Rmdb.Lib.KeyIndex
import Rmdb.Record.Slots

/-!
# Statements that change a table

`InsertExecutor`, `UpdateExecutor` and `DeleteExecutor` (`execution/`) and the undo of
`TransactionManager::abort` (`transaction/transaction_manager.cpp`).  An index is the map from keys
to record ids that it stands for; a table is its file.  What goes to the log is left out.

A statement asks for locks while it works.  `refuses` says which requests are refused, because
another transaction is in the way; a refused request stops the statement with a
`TransactionAbortException` and leaves everything as it is at that point.
-/

namespace Rmdb

open KeyIndex

/-- The tables of a database.  Index files have distinct names: `create_index` creates the file and
fails when it exists. -/
structure Schema where
  tabs : String → Option TabMeta
  nodup : ∀ t tab, tabs t = some tab →
    (tab.indexes.map fun index => getIndexName t index.cols).Nodup
  names : ∀ t t' tab tab', tabs t = some tab → tabs t' = some tab' → ∀ index ∈ tab.indexes,
    ∀ index' ∈ tab'.indexes, getIndexName t index.cols = getIndexName t' index'.cols → t = t'

/-- An open database: `db_`, `fhs_` and `ihs_` of `SmManager`. -/
structure Db where
  schema : Schema
  fhs : String → RmFile
  ihs : String → IxKey → Option Rid

/-- `WriteRecord`. -/
inductive WriteRecord
  | insertTuple (tabName : String) (rid : Rid)
  | deleteTuple (tabName : String) (rid : Rid) (record : Bytes)
  | updateTuple (tabName : String) (rid : Rid) (record : Bytes)
deriving DecidableEq, Repr

/-- A transaction at work: the database, and its write set with the newest record first. -/
structure TxnState where
  db : Db
  writeSet : List WriteRecord

/-- A request for a lock. -/
inductive RequestedLock
  | sharedOnTable (tabName : String)
  | sharedOnGapRange (indexName : String) (lower upper : Bytes)
  | exclusiveOnGapPoint (indexName : String) (key : Bytes)
  | sharedOnRecord (tabName : String) (rid : Rid)
  | exclusiveOnRecord (tabName : String) (rid : Rid)
deriving DecidableEq, Repr

/-- What a statement runs in: which lock requests are refused, and whether the transaction was begun
explicitly (`txn_mode_`). -/
structure Context where
  refuses : RequestedLock → Bool
  txnMode : Bool

/-- A computation that may stop with an error, in a state that stays. -/
abbrev Exec (α : Type) := Except (ExecError × TxnState) α

def Db.setFh (db : Db) (tabName : String) (fh : RmFile) : Db :=
  { db with fhs := Function.update db.fhs tabName fh }

def Db.setIh (db : Db) (indexName : String) (ih : IxKey → Option Rid) : Db :=
  { db with ihs := Function.update db.ihs indexName ih }

namespace TxnState

def setFh (s : TxnState) (tabName : String) (fh : RmFile) : TxnState :=
  { s with db := s.db.setFh tabName fh }

def appendWriteRecord (s : TxnState) (w : WriteRecord) : TxnState :=
  { s with writeSet := w :: s.writeSet }

/-- An error of a helper ends the statement in this state. -/
def lift {ε α : Type} (s : TxnState) (e : ε → ExecError) : Except ε α → Exec α
  | .ok a => .ok a
  | .error err => .error (e err, s)

/-- `DbMeta::get_table`. -/
def getTable (s : TxnState) (tabName : String) : Exec TabMeta :=
  match s.db.schema.tabs tabName with
  | some tab => .ok tab
  | none => .error (.tableNotFound tabName, s)

end TxnState

variable (cx : Context) (tabName : String) (tab : TabMeta)

/-! ## Locks -/

def lockRequest (s : TxnState) (req : RequestedLock) : Exec Unit :=
  if cx.refuses req then .error (.transactionAbort, s) else .ok ()

/-- The requests one after the other. -/
def lockRequests (s : TxnState) (reqs : List RequestedLock) : Exec Unit :=
  reqs.foldlM (fun _ req => lockRequest cx s req) ()

/-- The requests of `lock_record_read`. -/
def readRequests (rid : Rid) : List RequestedLock :=
  if cx.txnMode then [.sharedOnRecord tabName rid] else []

/-- The requests of `lock_exclusive_gap_for_record`. -/
def gapRequests (rec : Bytes) : List RequestedLock :=
  if cx.txnMode then tab.indexes.map fun index =>
    .exclusiveOnGapPoint (getIndexName tabName index.cols) (buildIndexKey index rec)
  else []

/-! ## Records -/

def getRecord (s : TxnState) (rid : Rid) : Exec Bytes := do
  lockRequests cx s (readRequests cx tabName rid)
  s.lift .rm ((s.db.fhs tabName).getRecord rid)

/-- `RmFileHandle::insert_record`: the page is there before the lock is asked for. -/
def insertRecord (s : TxnState) (buf : Bytes) : Exec (TxnState × Rid) := do
  let (fh, pageNo) ← s.lift .rm (s.db.fhs tabName).createPageHandle
  let s := s.setFh tabName fh
  let (fh, rid) := fh.insertInto pageNo buf
  lockRequest cx s (.exclusiveOnRecord tabName rid)
  return (s.setFh tabName fh, rid)

def deleteRecord (s : TxnState) (rid : Rid) : Exec TxnState := do
  lockRequest cx s (.exclusiveOnRecord tabName rid)
  let fh ← s.lift .rm ((s.db.fhs tabName).deleteRecord rid)
  return s.setFh tabName fh

def updateRecord (s : TxnState) (rid : Rid) (buf : Bytes) : Exec TxnState := do
  lockRequest cx s (.exclusiveOnRecord tabName rid)
  let fh ← s.lift .rm ((s.db.fhs tabName).updateRecord rid buf)
  return s.setFh tabName fh

/-! ## Index entries -/

def Db.getValue (db : Db) (index : IndexMeta) (rec : Bytes) : Option Rid :=
  db.ihs (getIndexName tabName index.cols) (index.key rec)

def Db.insertIndexEntry (rec : Bytes) (rid : Rid) (db : Db) (index : IndexMeta) : Db :=
  let name := getIndexName tabName index.cols
  db.setIh name (insertEntry (db.ihs name) (index.key rec) rid)

def Db.deleteIndexEntry (rec : Bytes) (db : Db) (index : IndexMeta) : Db :=
  let name := getIndexName tabName index.cols
  db.setIh name (deleteEntry (db.ihs name) (index.key rec))

/-- The record's entry in every index of the table. -/
def TxnState.insertIndex (s : TxnState) (rec : Bytes) (rid : Rid) : TxnState :=
  { s with db := tab.indexes.foldl (Db.insertIndexEntry tabName rec rid) s.db }

/-- `DeleteExecutor::delete_index`, and the loop over `delete_index_entry`. -/
def TxnState.deleteIndex (s : TxnState) (rec : Bytes) : TxnState :=
  { s with db := tab.indexes.foldl (Db.deleteIndexEntry tabName rec) s.db }

def indexExists (index : IndexMeta) : ExecError := .indexExists tabName (index.cols.map (·.name))

/-! ## Insertion -/

/-- The record of the values.  The columns cover all of it. -/
def buildRecord (size : ℕ) (cols : List ColMeta) (values : List Value) : Except ExecError Bytes :=
  (cols.zip values).foldlM (fun rec cv => do
    if cv.1.type ≠ cv.2.type then throw (.incompatibleType cv.1.type cv.2.type)
    let raw ← cv.2.initRaw cv.1.len
    return patch rec cv.1.offset raw cv.1.len) (List.replicate size 0)

/-- No index has the key of the record. -/
def checkInsert (s : TxnState) (rec : Bytes) : Exec Unit :=
  tab.indexes.foldlM (fun _ index =>
    if (s.db.getValue tabName index rec).isSome then .error (indexExists tabName index, s)
    else .ok ()) ()

/-- `InsertExecutor`: its constructor and `Next`. -/
def insertNext (values : List Value) (s : TxnState) : Exec TxnState := do
  let tab ← s.getTable tabName
  if values.length ≠ tab.cols.length then throw (.invalidValueCount, s)
  let rec ← s.lift id (buildRecord (s.db.fhs tabName).hdr.recordSize tab.cols values)
  checkInsert tabName tab s rec
  lockRequests cx s (gapRequests cx tabName tab rec)
  let (s, rid) ← insertRecord cx tabName s rec
  let s := s.insertIndex tabName tab rec rid
  return s.appendWriteRecord (.insertTuple tabName rid)

/-! ## Deletion -/

/-- One turn of the loop of `DeleteExecutor::Next`. -/
def deleteRow (s : TxnState) (rid : Rid) : Exec TxnState := do
  let rec ← getRecord cx tabName s rid
  lockRequests cx s (gapRequests cx tabName tab rec)
  let s ← deleteRecord cx tabName s rid
  let s := s.deleteIndex tabName tab rec
  return s.appendWriteRecord (.deleteTuple tabName rid rec)

/-- `DeleteExecutor`: its constructor and `Next`. -/
def deleteNext (rids : List Rid) (s : TxnState) : Exec TxnState := do
  let tab ← s.getTable tabName
  rids.foldlM (deleteRow cx tabName tab) s

/-! ## Update -/

/-- `SetClause`: a column and the raw bytes of its new value. -/
structure SetClause where
  colName : String
  raw : Bytes
deriving DecidableEq, Repr

/-- The new record. -/
def applySet (setClauses : List SetClause) (rec : Bytes) : Except ExecError Bytes :=
  setClauses.foldlM (fun rec set => do
    let col ← tab.getCol set.colName
    return patch rec col.offset set.raw col.len) rec

/-- The first loop of `UpdateExecutor::Next`: the old and the new records. -/
def collectChanges (setClauses : List SetClause) (s : TxnState) (rids : List Rid) :
    Exec (List (Change Rid Bytes)) :=
  rids.foldlM (fun changes rid => do
    let old ← getRecord cx tabName s rid
    let new ← s.lift id (applySet tab setClauses old)
    return changes ++ [⟨rid, old, new⟩]) []

/-- The second loop: a new key may only be bound to the row itself. -/
def checkUpdate (s : TxnState) (changes : List (Change Rid Bytes)) : Exec Unit :=
  changes.foldlM (fun _ c => tab.indexes.foldlM (fun _ index =>
    match s.db.getValue tabName index c.new with
    | none => .ok ()
    | some rid => if rid = c.row then .ok () else .error (indexExists tabName index, s)) ()) ()

/-- One turn of the third loop: the index first, then the write set, then the record. -/
def updateRow (s : TxnState) (c : Change Rid Bytes) : Exec TxnState := do
  lockRequests cx s (gapRequests cx tabName tab c.old)
  lockRequests cx s (gapRequests cx tabName tab c.new)
  let s := s.deleteIndex tabName tab c.old
  let s := s.insertIndex tabName tab c.new c.row
  let s := s.appendWriteRecord (.updateTuple tabName c.row c.old)
  updateRecord cx tabName s c.row c.new

/-- `UpdateExecutor`: its constructor and `Next`. -/
def updateNext (setClauses : List SetClause) (rids : List Rid) (s : TxnState) : Exec TxnState := do
  let tab ← s.getTable tabName
  let changes ← collectChanges cx tabName tab setClauses s rids
  checkUpdate tabName tab s changes
  changes.foldlM (updateRow cx tabName tab) s

/-! ## Statements -/

inductive Statement
  | insert (tabName : String) (values : List Value)
  | update (tabName : String) (setClauses : List SetClause) (conds : List Condition)
  | delete (tabName : String) (conds : List Condition)
deriving DecidableEq, Repr

/-- The statement with the record ids that the scan of `Portal::start` collected and the locks that
it asked for on the way. -/
def Statement.run (st : Statement) (scanned : List RequestedLock) (rids : List Rid) (s : TxnState) :
    Exec TxnState := do
  lockRequests cx s scanned
  match st with
  | .insert tabName values => insertNext cx tabName values s
  | .update tabName setClauses _ => updateNext cx tabName setClauses rids s
  | .delete tabName _ => deleteNext cx tabName rids s

/-! ## Abort -/

/-- `undo_write_record`. -/
def undoWriteRecord (db : Db) : WriteRecord → Except ExecError Db
  | .insertTuple tabName rid => do
    let tab ← (db.schema.tabs tabName).elim (.error (.tableNotFound tabName)) .ok
    let rec ← ((db.fhs tabName).getRecord rid).mapError .rm
    let db := tab.indexes.foldl (Db.deleteIndexEntry tabName rec) db
    let fh ← ((db.fhs tabName).deleteRecord rid).mapError .rm
    return db.setFh tabName fh
  | .deleteTuple tabName rid record => do
    let tab ← (db.schema.tabs tabName).elim (.error (.tableNotFound tabName)) .ok
    let fh ← ((db.fhs tabName).insertRecordAt rid record).mapError .rm
    let db := db.setFh tabName fh
    return tab.indexes.foldl (Db.insertIndexEntry tabName record rid) db
  | .updateTuple tabName rid old => do
    let tab ← (db.schema.tabs tabName).elim (.error (.tableNotFound tabName)) .ok
    let cur ← ((db.fhs tabName).getRecord rid).mapError .rm
    let db := tab.indexes.foldl (fun db index =>
      -- the bytes of the keys are compared
      if buildIndexKey index old = buildIndexKey index cur then db
      else (db.deleteIndexEntry tabName cur index).insertIndexEntry tabName old rid index) db
    let fh ← ((db.fhs tabName).updateRecord rid old).mapError .rm
    return db.setFh tabName fh

/-- `TransactionManager::abort`: the newest write first. -/
def abort (s : TxnState) : Except ExecError Db := s.writeSet.foldlM undoWriteRecord s.db

end Rmdb
