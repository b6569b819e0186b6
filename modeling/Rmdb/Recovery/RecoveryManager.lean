import Rmdb.Record.HeapFile

/-!
# Recovery

A model of `RecoveryManager` (`recovery/log_recovery.cpp`) on the table files.  The log is the list
of its records in the order of the file.  Index records only move `rollback` on to the previous
record here: the trees are thrown away by `analyze` and rebuilt from the tables at the end of
`undo`.
-/

namespace Rmdb

def INVALID_LSN : ℤ := -1

/-- What the log records of the different types carry.  The values of an update are `update_value_`,
the old one, and `now_value_`. -/
inductive LogBody
  | begin
  | commit
  | abort
  | insert (tabName : String) (rid : Rid) (insertValue : Bytes)
  | delete (tabName : String) (rid : Rid) (deleteValue : Bytes)
  | update (tabName : String) (rid : Rid) (updateValue nowValue : Bytes)
  | indexInsert (ixName : String) (key : Bytes) (rid : Rid)
  | indexDelete (ixName : String) (key : Bytes) (rid : Rid)
deriving DecidableEq, Repr

structure LogRecord where
  lsn : ℤ
  logTid : TxnId
  prevLsn : ℤ
  body : LogBody
deriving DecidableEq, Repr

/-- `fhs_`: the open table files. -/
abbrev Tables := String → Option RmFile

namespace Tables

/-- Run an operation of a file whose errors are caught and ignored; a table that is not open is
skipped. -/
def modify (tabs : Tables) (tabName : String) (op : RmFile → Except RmError RmFile) : Tables :=
  match tabs tabName with
  | none => tabs
  | some f =>
    match op f with
    | .ok f' => Function.update tabs tabName (some f')
    | .error _ => tabs

end Tables

/-- What `analyze` collects: `att_` in the order of its keys, and the ended transactions. -/
structure Analysis where
  logs : List LogRecord
  att : List (TxnId × ℤ)
  committedTxns : List TxnId
  abortedTxns : List TxnId

/-- A transaction that the log knows and that is neither committed nor aborted in it. -/
def Analysis.IsLoser (a : Analysis) (t : TxnId) : Prop :=
  t ∈ a.att.map Prod.fst ∧ t ∉ a.committedTxns ∧ t ∉ a.abortedTxns

/-- `att_[tid] = lsn`. -/
def attSet (tid : TxnId) (lsn : ℤ) : List (TxnId × ℤ) → List (TxnId × ℤ)
  | [] => [(tid, lsn)]
  | (t, l) :: rest =>
    if tid < t then (tid, lsn) :: (t, l) :: rest
    else if tid = t then (tid, lsn) :: rest
    else (t, l) :: attSet tid lsn rest

/-- One round of the reading loop; a record of a transaction that has not begun fails the
assertion. -/
def attStep (att : List (TxnId × ℤ)) (log : LogRecord) : Option (List (TxnId × ℤ)) :=
  if log.body = .begin ∨ log.logTid ∈ att.map Prod.fst then some (attSet log.logTid log.lsn att)
  else none

/-- The record that an entry of `att_` points to. -/
def lastLog (logs : List LogRecord) (lsn : ℤ) : Option LogRecord :=
  if 0 ≤ lsn ∧ lsn < logs.length then logs[lsn.toNat]? else none

/-- `analyze` on the records of the log file. -/
def analyze (logs : List LogRecord) : Option Analysis := do
  let att ← logs.foldlM attStep []
  return {
    logs := logs
    att := att
    committedTxns := (att.filter fun e => (lastLog logs e.2).any (·.body = .commit)).map Prod.fst
    abortedTxns := (att.filter fun e => (lastLog logs e.2).any (·.body = .abort)).map Prod.fst }

/-- The inner loop of `rollback`: undo the records of one transaction from `now` back. -/
def rollbackFrom (logs : List LogRecord) (redoPhase : Bool) : ℕ → ℤ → Tables → Tables
  | 0, _, tabs => tabs
  | fuel + 1, now, tabs =>
    if now = INVALID_LSN then tabs
    else
      match lastLog logs now with
      | none => tabs
      | some log =>
        match log.body with
        | .insert tabName rid _ =>
          rollbackFrom logs redoPhase fuel log.prevLsn (tabs.modify tabName (·.deleteRecord rid))
        | .update tabName rid updateValue _ =>
          rollbackFrom logs redoPhase fuel log.prevLsn
            (tabs.modify tabName (·.updateRecord rid updateValue))
        | .delete tabName rid deleteValue =>
          rollbackFrom logs redoPhase fuel log.prevLsn
            (tabs.modify tabName (·.insertRecordAt rid deleteValue))
        | .indexInsert _ _ _ => rollbackFrom logs redoPhase fuel log.prevLsn tabs
        | .indexDelete _ _ _ => rollbackFrom logs redoPhase fuel log.prevLsn tabs
        | .begin => rollbackFrom logs redoPhase fuel log.prevLsn tabs
        | .commit => if redoPhase then rollbackFrom logs redoPhase fuel log.prevLsn tabs else tabs
        | .abort => if redoPhase then rollbackFrom logs redoPhase fuel log.prevLsn tabs else tabs

/-- `rollback`: the transactions from the largest id down. -/
def rollback (a : Analysis) (redoPhase : Bool) (tabs : Tables) : Tables :=
  a.att.reverse.foldl (fun tabs e =>
    rollbackFrom a.logs redoPhase (a.logs.length + 1) e.2 tabs) tabs

/-- The errors that can leave `redo`. -/
inductive RedoError
  | rm (e : RmError)
  | assertion

/-- An operation of a file whose errors are not caught. -/
def redoModify (tabs : Tables) (tabName : String) (op : RmFile → Except RmError RmFile) :
    Except RedoError Tables :=
  match tabs tabName with
  | none => return tabs
  | some f =>
    match op f with
    | .ok f' => return Function.update tabs tabName (some f')
    | .error e => throw (.rm e)

/-- One round of the loop of `redo`. -/
def redoLog (a : Analysis) (tabs : Tables) (log : LogRecord) : Except RedoError Tables :=
  if log.logTid ∈ a.abortedTxns ∨ log.logTid ∉ a.committedTxns then return tabs
  else
    match log.body with
    | .insert tabName rid insertValue =>
      match tabs tabName with
      | none => return tabs
      | some f =>
        match f.insertRecordAt rid insertValue with
        | .ok f' => return Function.update tabs tabName (some f')
        | .error _ =>
          -- the page does not exist yet: insert anywhere, which must be the logged place
          match f.insertRecord insertValue with
          | .error e => throw (.rm e)
          | .ok (f', newRid) =>
            if newRid = rid then return Function.update tabs tabName (some f') else throw .assertion
    | .update tabName rid _ nowValue => redoModify tabs tabName (·.updateRecord rid nowValue)
    | .delete tabName rid _ => redoModify tabs tabName (·.deleteRecord rid)
    | _ => return tabs

def redo (a : Analysis) (tabs : Tables) : Except RedoError Tables :=
  a.logs.foldlM (redoLog a) (rollback a true tabs)

/-- `undo`, on the tables. -/
def undo (a : Analysis) (tabs : Tables) : Tables := rollback a false tabs

/-- `analyze(); redo(); undo()`. -/
def recover (logs : List LogRecord) (tabs : Tables) : Option Tables := do
  let a ← analyze logs
  match redo a tabs with
  | .ok tabs => return undo a tabs
  | .error _ => none

end Rmdb
