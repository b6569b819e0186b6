import Rmdb.Execution.Dml
import Rmdb.Lib.Run
import Rmdb.Recovery.LogManager
import Rmdb.Transaction.LockManager

/-!
# Clients at work

The clients of the server run their statements at the same time.  A statement is the list of the
calls that it makes on the shared components (`execution/executor_insert.h`, `executor_delete.h`,
`executor_update.h`, `transaction/transaction_manager.cpp`), and the steps of the server are single
calls of any of the clients.  Which rows a statement finds and which lock requests are refused is
left open.

The pages are seen through the record operations whose effects they hold.
-/

namespace Rmdb

open KeyIndex

/-- The calls of a statement. -/
inductive Action
  /-- A lock request other than that of a record operation. -/
  | lock (req : RequestedLock)
  /-- `lock_record_write`, at the start of the record operation. -/
  | lockRecord (op : LogBody)
  /-- A test that may throw an `RMDBError`. -/
  | check
  | setTxnMode
  /-- `ensure_begin_logged`, `ensure_txn_logged`. -/
  | ensureBegin
  | addLog (body : LogBody)
  /-- What the record operation does to the page, the lock once granted. -/
  | change (op : LogBody)
  | appendWriteRecord (w : WriteRecord)
  | flushLog
  /-- One turn of the loop of `abort`. -/
  | undoWrite
  | clearWriteSet
  /-- `flush_all_dirty_pages`. -/
  | flushPages
  /-- `release_all_locks`, and the new state. -/
  | finish (state : TransactionState)
deriving DecidableEq, Repr

/-! ## The calls of the statements -/

section Statements

variable (txnMode : Bool) (tabName : String) (tab : TabMeta)

/-- `lock_exclusive_gap_for_record`. -/
def gapLocks (rec : Bytes) : List Action :=
  (gapRequests ⟨fun _ => false, txnMode⟩ tabName tab rec).map .lock

/-- `lock_record_read`. -/
def readLocks (rid : Rid) : List Action :=
  (readRequests ⟨fun _ => false, txnMode⟩ tabName rid).map .lock

/-- The records of the entries that leave the indexes. -/
def logIndexDelete (rec : Bytes) (rid : Rid) : List Action :=
  tab.indexes.map fun index =>
    .addLog (.indexDelete (getIndexName tabName index.cols) (buildIndexKey index rec) rid)

/-- The records of the entries that enter the indexes. -/
def logIndexInsert (rec : Bytes) (rid : Rid) : List Action :=
  tab.indexes.map fun index =>
    .addLog (.indexInsert (getIndexName tabName index.cols) (buildIndexKey index rec) rid)

/-- `InsertExecutor`, when the record `rec` goes to `rid`. -/
def insertActions (rid : Rid) (rec : Bytes) : List Action :=
  [.check] ++ tab.indexes.map (fun _ => .check) ++ gapLocks txnMode tabName tab rec ++
    [.ensureBegin, .lockRecord (.insert tabName rid rec), .change (.insert tabName rid rec),
      .addLog (.insert tabName rid rec)] ++
    logIndexInsert tabName tab rec rid ++ [.appendWriteRecord (.insertTuple tabName rid), .flushLog]

/-- One turn of the loop of `DeleteExecutor::Next`. -/
def deleteRowActions (row : Rid × Bytes) : List Action :=
  readLocks txnMode tabName row.1 ++ gapLocks txnMode tabName tab row.2 ++
    [.ensureBegin, .addLog (.delete tabName row.1 row.2), .lockRecord (.delete tabName row.1 row.2),
      .change (.delete tabName row.1 row.2)] ++
    logIndexDelete tabName tab row.2 row.1 ++
    [.appendWriteRecord (.deleteTuple tabName row.1 row.2)]

/-- `DeleteExecutor`, on these rows. -/
def deleteActions (rows : List (Rid × Bytes)) : List Action :=
  [.check] ++ rows.flatMap (deleteRowActions txnMode tabName tab) ++ [.flushLog]

/-- One turn of the last loop of `UpdateExecutor::Next`. -/
def updateRowActions (c : Change Rid Bytes) : List Action :=
  gapLocks txnMode tabName tab c.old ++ gapLocks txnMode tabName tab c.new ++
    logIndexDelete tabName tab c.old c.row ++ logIndexInsert tabName tab c.new c.row ++
    [.addLog (.update tabName c.row c.old c.new),
      .appendWriteRecord (.updateTuple tabName c.row c.old),
      .lockRecord (.update tabName c.row c.old c.new), .change (.update tabName c.row c.old c.new)]

/-- `UpdateExecutor`, with these changes. -/
def updateActions (changes : List (Change Rid Bytes)) : List Action :=
  [.check, .ensureBegin] ++ changes.flatMap
    (fun c => readLocks txnMode tabName c.row ++ [.check]) ++
    changes.flatMap (fun _ => tab.indexes.map fun _ => .check) ++
    changes.flatMap (updateRowActions txnMode tabName tab) ++ [.flushLog]

/-- `TransactionManager::commit`. -/
def commitActions (writeSet : List WriteRecord) : List Action :=
  if writeSet = [] then [.clearWriteSet, .finish .committed]
  else [.ensureBegin, .addLog .commit, .flushLog, .clearWriteSet, .flushPages, .finish .committed]

/-- `TransactionManager::abort`. -/
def abortActions (writeSet : List WriteRecord) : List Action :=
  writeSet.map (fun _ => .undoWrite) ++
    (if writeSet = [] then [] else [.addLog .abort, .flushLog]) ++ [.finish .aborted]

end Statements

/-- What a client asks for.  The statements carry the locks of their scan and the rows it found. -/
inductive Request
  | begin
  | insert (tabName : String) (tab : TabMeta) (rid : Rid) (rec : Bytes)
  | delete (tabName : String) (tab : TabMeta) (scanned : List RequestedLock)
      (rows : List (Rid × Bytes))
  | update (tabName : String) (tab : TabMeta) (scanned : List RequestedLock)
      (changes : List (Change Rid Bytes))
  | commit
  | abort

/-- The transaction ends with it. -/
def Request.ends : Request → Bool
  | .commit => true
  | .abort => true
  | _ => false

/-! ## The server -/

/-- A transaction with what is left of the statement that it runs.  `changes` counts its record
operations. -/
structure Transaction where
  prevLsn : ℤ := INVALID_LSN
  txnMode : Bool := false
  writeSet : List WriteRecord := []
  state : TransactionState := .growing
  todo : List Action := []
  changes : ℕ := 0

def Request.actions (txn : Transaction) : Request → List Action
  | .begin => [.ensureBegin, .setTxnMode]
  | .insert tabName tab rid rec => insertActions txn.txnMode tabName tab rid rec
  | .delete tabName tab scanned rows =>
    scanned.map .lock ++ deleteActions txn.txnMode tabName tab rows
  | .update tabName tab scanned changes =>
    scanned.map .lock ++ updateActions txn.txnMode tabName tab changes
  | .commit => commitActions txn.writeSet
  | .abort => abortActions txn.writeSet

/-- The effect of a record operation: the operation number `number` of the transaction. -/
structure PageChange where
  tid : TxnId
  number : ℕ
  op : LogBody
deriving DecidableEq, Repr

/-- The data page that an operation works on. -/
def LogBody.page? : LogBody → Option (String × ℤ)
  | .insert tabName rid _ => some (tabName, rid.pageNo)
  | .delete tabName rid _ => some (tabName, rid.pageNo)
  | .update tabName rid _ _ => some (tabName, rid.pageNo)
  | _ => none

/-- The server.  `pages` are the effects of this run that the pages in memory hold, `images` those
that the pages on disk hold. -/
structure Engine where
  log : LogManager := {}
  nextTxnId : TxnId := 0
  txns : TxnId → Option Transaction := fun _ => none
  pages : List PageChange := []
  images : List PageChange := []

/-- The steps of the server. -/
inductive EngineOp
  /-- `SetTransaction` for a client without an active transaction. -/
  | begin
  | start (t : TxnId) (req : Request)
  /-- The next call of the statement of `t`. -/
  | act (t : TxnId)
  /-- A lock request or a test of the statement of `t` throws, and `abort` follows. -/
  | fail (t : TxnId)
  /-- A page is evicted. -/
  | writeBack (page : String × ℤ)
  /-- The server dies, and recovery reads the log. -/
  | restart

/-- The transaction that starts to commit or to roll back. -/
def EngineOp.ends? : EngineOp → Option TxnId
  | .start t req => if req.ends then some t else none
  | .fail t => some t
  | _ => none

namespace Engine

def setTxn (s : Engine) (t : TxnId) (txn : Transaction) : Engine :=
  { s with txns := Function.update s.txns t (some txn) }

/-- `add_log_to_buffer` for a record of `t`, and `set_prev_lsn`. -/
def logRecord (s : Engine) (t : TxnId) (txn : Transaction) (body : LogBody) : Engine :=
  let (log, lsn) := s.log.addLogToBuffer t txn.prevLsn body
  setTxn { s with log := log } t { txn with prevLsn := lsn }

/-- A call, made for `t`, whose transaction `txn` has it taken off its list already. -/
def perform (s : Engine) (t : TxnId) (txn : Transaction) : Action → Engine
  | .lock _ => s.setTxn t txn
  | .lockRecord _ => s.setTxn t txn
  | .check => s.setTxn t txn
  | .setTxnMode => s.setTxn t { txn with txnMode := true }
  | .ensureBegin => if txn.prevLsn = INVALID_LSN then s.logRecord t txn .begin else s.setTxn t txn
  | .addLog body => s.logRecord t txn body
  | .change op =>
    setTxn { s with pages := s.pages ++ [⟨t, txn.changes, op⟩] } t
      { txn with changes := txn.changes + 1 }
  | .appendWriteRecord w => s.setTxn t { txn with writeSet := w :: txn.writeSet }
  | .flushLog => setTxn { s with log := s.log.flushLogToDisk } t txn
  | .undoWrite =>
    -- the write set and the operations of the transaction go together
    setTxn { s with
        pages := s.pages.filter fun c => ¬ (c.tid = t ∧ c.number + 1 = txn.writeSet.length) } t
      { txn with writeSet := txn.writeSet.tail }
  | .clearWriteSet => s.setTxn t { txn with writeSet := [] }
  | .flushPages => setTxn { s with images := s.pages } t txn
  | .finish state => s.setTxn t { txn with state := state }

/-- The calls that can throw. -/
def canFail : Action → Bool
  | .lock _ => true
  | .lockRecord _ => true
  | .check => true
  | _ => false

/-- One step; `none` when it is not possible. -/
def step (s : Engine) : EngineOp → Option Engine
  | .begin => some (setTxn { s with nextTxnId := s.nextTxnId + 1 } s.nextTxnId {})
  | .start t req =>
    match s.txns t with
    | none => none
    | some txn =>
      if txn.todo = [] ∧ txn.state = .growing then
        some (s.setTxn t { txn with todo := req.actions txn })
      else none
  | .act t =>
    match s.txns t with
    | none => none
    | some txn =>
      match txn.todo with
      | [] => none
      | a :: todo => some (s.perform t { txn with todo := todo } a)
  | .fail t =>
    match s.txns t with
    | none => none
    | some txn =>
      match txn.todo with
      | [] => none
      | a :: _ =>
        if canFail a then some (s.setTxn t { txn with todo := abortActions txn.writeSet }) else none
  | .writeBack page => some { s with
      images := s.images.filter (fun c => c.op.page? ≠ some page) ++
        s.pages.filter fun c => c.op.page? = some page }
  | .restart => some { log := .reopen s.log.disk, nextTxnId := getNextTxnId s.log.disk }

/-- The steps as a relation. -/
def Steps (s : Engine) (op : EngineOp) (s' : Engine) : Prop := s.step op = some s'

/-- `s.play ops`: the steps one after the other. -/
def play (s : Engine) (ops : List EngineOp) : Option Engine := ops.foldlM step s

theorem exists_run {ops : List EngineOp} {p : Engine → Bool} (h : (play {} ops).any p = true) :
    ∃ s, Run Steps {} ops s ∧ p s = true := by
  exact Run.exists_of_any step {} ops p h

end Engine

end Rmdb
