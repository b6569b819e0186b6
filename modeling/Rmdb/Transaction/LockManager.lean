import Mathlib.Data.List.AList
import Rmdb.Defs

/-!
# The lock manager

A model of `LockManager` (`transaction/concurrency/lock_manager.cpp`) for table and record locks.
The lock table maps a lock id to its request queue; a request that cannot be granted at once is not
queued but refused with a `TransactionAbortException`, which is the `Except.error` of the result.
The state is returned in both cases, since a refused request has already set the transaction's
state.

`std::unordered_map::operator[]` creates an empty queue on first access.  An absent id and an id
with an empty queue behave the same, so `LockManager.queue` reads an absent id as the empty queue.
-/

namespace Rmdb

/-- `TransactionState`. -/
inductive TransactionState
  | default | growing | shrinking | committed | aborted
deriving DecidableEq, Repr

/-- `AbortReason`. -/
inductive AbortReason
  | lockOnShrinking | upgradeConflict | deadlockPrevention
deriving DecidableEq, Repr

/-- `LockDataId`: what a lock is on.  Equality is `LockDataId::operator==`, which reads the record
id of a record lock only and the gap key of a gap lock only. -/
inductive LockDataId
  | table (fd : ℤ)
  | record (fd : ℤ) (rid : Rid)
  | gap (fd : ℤ) (gapKey : Bytes)
deriving DecidableEq, Repr

/-- `LockManager::LockMode`. -/
inductive LockMode
  | shared | exclusive | intentionShared | intentionExclusive | sIx
deriving DecidableEq, Repr

/-- `LockManager::GroupLockMode`. -/
inductive GroupLockMode
  | nonLock | IS | IX | S | X | SIX
deriving DecidableEq, Repr

structure LockRequest where
  txnId : TxnId
  lockMode : LockMode
  granted : Bool
deriving DecidableEq, Repr

structure LockRequestQueue where
  requestQueue : List LockRequest := []
  groupLockMode : GroupLockMode := .nonLock
deriving DecidableEq, Repr

/-- The part of `Transaction` that the lock manager reads and writes. -/
structure TxnLocks where
  state : TransactionState := .default
  lockSet : List LockDataId := []
deriving DecidableEq, Repr

structure LockManager where
  lockTable : AList fun _ : LockDataId => LockRequestQueue := ∅
  txns : TxnId → TxnLocks := fun _ => {}

/-- `combine_table_lock`. -/
def combineTableLock (held req : LockMode) : LockMode :=
  if held = .exclusive ∨ req = .exclusive then .exclusive
  else if held = .sIx ∨ req = .sIx then .sIx
  else if (held = .shared ∧ req = .intentionExclusive) ∨
      (held = .intentionExclusive ∧ req = .shared) then .sIx
  else if held = .shared ∨ req = .shared then .shared
  else if held = .intentionExclusive ∨ req = .intentionExclusive then .intentionExclusive
  else .intentionShared

/-- The loop of `update_group_lock_mode`, from the group mode `g` reached so far. -/
def groupLockModeLoop : GroupLockMode → List LockRequest → GroupLockMode
  | g, [] => g
  | g, req :: rest =>
    if !req.granted then groupLockModeLoop g rest
    else match req.lockMode with
      | .shared => groupLockModeLoop (if g = .nonLock ∨ g = .IS then .S else g) rest
      | .exclusive => .X
      | .intentionShared => groupLockModeLoop (if g = .nonLock then .IS else g) rest
      | .intentionExclusive => groupLockModeLoop (if g = .nonLock ∨ g = .IS then .IX else g) rest
      | .sIx => .SIX

/-- `update_group_lock_mode`. -/
def LockRequestQueue.updateGroupLockMode (q : LockRequestQueue) : LockRequestQueue :=
  { q with groupLockMode := groupLockModeLoop .nonLock q.requestQueue }

/-- `table_conflict`. -/
def tableConflict (request : LockMode) (held : GroupLockMode) : Bool :=
  match request with
  | .intentionShared => held = .X
  | .intentionExclusive => held = .S ∨ held = .X ∨ held = .SIX
  | .shared => held = .IX ∨ held = .X ∨ held = .SIX
  | .exclusive => held ≠ .nonLock
  | .sIx => held = .IS ∨ held = .IX ∨ held = .S ∨ held = .X ∨ held = .SIX

/-- `record_conflict`. -/
def recordConflict (request held : LockMode) : Bool :=
  if request = .shared then held = .exclusive else held = .shared ∨ held = .exclusive

/-- Change the first request that satisfies `p`, as the loops over a queue that `break` or `return`
after an update do. -/
def updateFirst (p : LockRequest → Bool) (f : LockRequest → LockRequest) :
    List LockRequest → List LockRequest
  | [] => []
  | req :: rest => if p req then f req :: rest else req :: updateFirst p f rest

/-- Some granted request of a transaction other than `t`. -/
def LockRequestQueue.grantedToOther (q : LockRequestQueue) (t : TxnId) : Bool :=
  q.requestQueue.any fun req => req.granted && req.txnId != t

/-- The part of `lock_on_table` that reads and writes the queue of the table. -/
def requestTable (t : TxnId) (mode : LockMode) (q : LockRequestQueue) :
    Except AbortReason LockRequestQueue :=
  let own := fun req : LockRequest => req.txnId == t && req.granted
  if q.requestQueue.any own then
    if mode = .exclusive then
      if q.grantedToOther t then .error .deadlockPrevention
      else .ok
        { requestQueue := updateFirst own ({ · with lockMode := .exclusive }) q.requestQueue
          groupLockMode := .X }
    else
      let rs := updateFirst own
        (fun req => { req with lockMode := combineTableLock req.lockMode mode }) q.requestQueue
      .ok ({ q with requestQueue := rs } : LockRequestQueue).updateGroupLockMode
  else if q.requestQueue.any fun req => req.txnId != t &&
      (!req.granted || tableConflict mode q.groupLockMode) then
    .error .deadlockPrevention
  else
    let mine := fun req : LockRequest => req.txnId == t
    let rs := if q.requestQueue.any mine then
        updateFirst mine
          (fun req => { req with lockMode := combineTableLock req.lockMode mode, granted := true })
          q.requestQueue
      else q.requestQueue ++ [{ txnId := t, lockMode := mode, granted := true }]
    .ok ({ q with requestQueue := rs } : LockRequestQueue).updateGroupLockMode

/-- The two tests of `lock_on_record` on the queue of the table. -/
def tableBlocksRecord (t : TxnId) (mode : LockMode) (tableQueue : LockRequestQueue) : Bool :=
  (tableQueue.groupLockMode = .X && tableQueue.grantedToOther t) ||
    (mode = .exclusive && (tableQueue.groupLockMode = .S || tableQueue.groupLockMode = .SIX) &&
      tableQueue.grantedToOther t)

/-- The part of `lock_on_record` that reads and writes the queue of the record.  The first loop acts
on the first own granted request that is to be upgraded or has the requested mode already; every
other own request falls through to the loops below it. -/
def requestRecord (t : TxnId) (mode : LockMode) (q : LockRequestQueue) :
    Except AbortReason LockRequestQueue :=
  let upgrade := fun req : LockRequest => mode == .exclusive && req.lockMode == .shared
  let acts := fun req : LockRequest => req.txnId == t && req.granted &&
    (upgrade req || req.lockMode == mode)
  match q.requestQueue.find? acts with
  | some req =>
    if upgrade req then
      if q.grantedToOther t then .error .upgradeConflict
      else .ok
        { requestQueue := updateFirst acts ({ · with lockMode := .exclusive }) q.requestQueue
          groupLockMode := .X }
    else .ok q
  | none =>
    if q.requestQueue.any fun req => req.txnId != t &&
        (!req.granted || recordConflict mode req.lockMode) then
      .error .deadlockPrevention
    else
      let mine := fun req : LockRequest => req.txnId == t
      let rs := if q.requestQueue.any mine then
          updateFirst mine (fun req => { req with lockMode := mode, granted := true })
            q.requestQueue
        else q.requestQueue ++ [{ txnId := t, lockMode := mode, granted := true }]
      .ok { requestQueue := rs, groupLockMode := if mode = .shared then .S else .X }

namespace LockManager

/-- `lock_table_[id]`. -/
def queue (m : LockManager) (id : LockDataId) : LockRequestQueue :=
  (m.lockTable.lookup id).getD {}

def setQueue (m : LockManager) (id : LockDataId) (q : LockRequestQueue) : LockManager :=
  { m with lockTable := m.lockTable.insert id q }

def setState (m : LockManager) (t : TxnId) (st : TransactionState) : LockManager :=
  { m with txns := Function.update m.txns t { m.txns t with state := st } }

/-- `txn->get_lock_set()->insert(id)`. -/
def insertLock (m : LockManager) (t : TxnId) (id : LockDataId) : LockManager :=
  { m with
    txns := Function.update m.txns t { m.txns t with lockSet := (m.txns t).lockSet.insert id } }

/-- `txn->get_lock_set()->erase(id)`. -/
def eraseLock (m : LockManager) (t : TxnId) (id : LockDataId) : LockManager :=
  { m with
    txns := Function.update m.txns t { m.txns t with lockSet := (m.txns t).lockSet.erase id } }

/-- Store the queue of `id` and record the lock in the transaction's lock set: what every granting
path does last. -/
def grant (m : LockManager) (t : TxnId) (id : LockDataId) (q : LockRequestQueue) : LockManager :=
  (m.setQueue id q).insertLock t id

/-- `lock_on_table`. -/
def lockOnTable (m : LockManager) (t : TxnId) (tabFd : ℤ) (mode : LockMode) :
    LockManager × Except AbortReason Bool :=
  if (m.txns t).state = .shrinking then (m, .error .lockOnShrinking)
  else
    let m := m.setState t .growing
    let id := LockDataId.table tabFd
    match requestTable t mode (m.queue id) with
    | .error e => (m, .error e)
    | .ok q => (m.grant t id q, .ok true)

/-- `lock_on_record`. -/
def lockOnRecord (m : LockManager) (t : TxnId) (rid : Rid) (tabFd : ℤ) (mode : LockMode) :
    LockManager × Except AbortReason Bool :=
  if (m.txns t).state = .shrinking then (m, .error .lockOnShrinking)
  else
    let m := m.setState t .growing
    if tableBlocksRecord t mode (m.queue (.table tabFd)) then (m, .error .deadlockPrevention)
    else
      let id := LockDataId.record tabFd rid
      match requestRecord t mode (m.queue id) with
      | .error e => (m, .error e)
      | .ok q => (m.grant t id q, .ok true)

/-- `lock_shared_on_record`. -/
def lockSharedOnRecord (m : LockManager) (t : TxnId) (rid : Rid) (tabFd : ℤ) :
    LockManager × Except AbortReason Bool :=
  m.lockOnRecord t rid tabFd .shared

/-- `lock_exclusive_on_record`. -/
def lockExclusiveOnRecord (m : LockManager) (t : TxnId) (rid : Rid) (tabFd : ℤ) :
    LockManager × Except AbortReason Bool :=
  m.lockOnRecord t rid tabFd .exclusive

/-- `lock_shared_on_table`. -/
def lockSharedOnTable (m : LockManager) (t : TxnId) (tabFd : ℤ) :
    LockManager × Except AbortReason Bool :=
  m.lockOnTable t tabFd .shared

/-- `lock_exclusive_on_table`. -/
def lockExclusiveOnTable (m : LockManager) (t : TxnId) (tabFd : ℤ) :
    LockManager × Except AbortReason Bool :=
  m.lockOnTable t tabFd .exclusive

/-- `lock_IS_on_table`. -/
def lockISOnTable (m : LockManager) (t : TxnId) (tabFd : ℤ) :
    LockManager × Except AbortReason Bool :=
  m.lockOnTable t tabFd .intentionShared

/-- `lock_IX_on_table`. -/
def lockIXOnTable (m : LockManager) (t : TxnId) (tabFd : ℤ) :
    LockManager × Except AbortReason Bool :=
  m.lockOnTable t tabFd .intentionExclusive

/-- `unlock`. -/
def unlock (m : LockManager) (t : TxnId) (id : LockDataId) : LockManager × Bool :=
  let m := m.setState t .shrinking
  match m.lockTable.lookup id with
  | none => (m, false)
  | some q =>
    if q.requestQueue.any fun req => req.txnId == t then
      let rs := q.requestQueue.eraseP fun req => req.txnId == t
      let m :=
        (m.setQueue id ({ q with requestQueue := rs } : LockRequestQueue).updateGroupLockMode)
        |>.eraseLock t id
      (if rs.isEmpty then { m with lockTable := m.lockTable.erase id } else m, true)
    else (m, false)

/-- `release_all_locks`: unlock a copy of the lock set, then clear the set. -/
def releaseAllLocks (m : LockManager) (t : TxnId) : LockManager :=
  let m := (m.txns t).lockSet.foldl (fun m id => (m.unlock t id).1) m
  { m with txns := Function.update m.txns t { m.txns t with lockSet := [] } }

end LockManager

end Rmdb
