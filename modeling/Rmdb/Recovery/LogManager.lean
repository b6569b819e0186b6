import Mathlib.Algebra.GroupWithZero.Nat
import Rmdb.Recovery.RecoveryManager

/-!
# The log manager

A model of `LogManager` (`recovery/log_manager.cpp`).  Records go to a buffer in memory and reach
the disk when the buffer is flushed.  The log file and the buffer are lists of records here; the
bytes of a record only count for the space that it takes in the buffer.
-/

namespace Rmdb

/-- `LOG_BUFFER_SIZE`. -/
def LOG_BUFFER_SIZE : ℕ := 1024 * PAGE_SIZE

/-- `LOG_HEADER_SIZE`: type, LSN, length, transaction and previous LSN, of four bytes each. -/
def LOG_HEADER_SIZE : ℕ := 20

/-- The bytes of a name with its terminator, behind a `size_t`. -/
def nameLen (name : String) : ℕ := 8 + (name.utf8ByteSize + 1)

/-- `log_tot_len_`: images have an `int` length before them, a `Rid` takes eight bytes. -/
def LogBody.totLen : LogBody → ℕ
  | .begin => LOG_HEADER_SIZE
  | .commit => LOG_HEADER_SIZE
  | .abort => LOG_HEADER_SIZE
  | .insert tabName _ insertValue =>
    LOG_HEADER_SIZE + (4 + insertValue.length + 8) + nameLen tabName
  | .delete tabName _ deleteValue =>
    LOG_HEADER_SIZE + (4 + deleteValue.length + 8) + nameLen tabName
  | .update tabName _ updateValue nowValue =>
    LOG_HEADER_SIZE + (4 + updateValue.length + 4 + nowValue.length + 8) + nameLen tabName
  | .indexInsert ixName key _ => LOG_HEADER_SIZE + (4 + key.length + 8) + nameLen ixName
  | .indexDelete ixName key _ => LOG_HEADER_SIZE + (4 + key.length + 8) + nameLen ixName

/-- The log file, the log buffer and `global_lsn_`. -/
structure LogManager where
  disk : List LogRecord := []
  buffer : List LogRecord := []
  globalLsn : ℤ := 0

namespace LogManager

/-- The file followed by the buffer. -/
def all (m : LogManager) : List LogRecord := m.disk ++ m.buffer

/-- `offset_` of the buffer, as long as no `memcpy` has left `buffer_`, behind which it lies. -/
def offset (m : LogManager) : ℕ := (m.buffer.map fun r => r.body.totLen).sum

def isFull (m : LogManager) (appendSize : ℕ) : Bool := LOG_BUFFER_SIZE < m.offset + appendSize

def flushLogToDisk (m : LogManager) : LogManager :=
  { m with disk := m.disk ++ m.buffer, buffer := [] }

/-- `add_log_to_buffer`: a full buffer is flushed first; the record gets the next LSN, which is
returned. -/
def addLogToBuffer (m : LogManager) (logTid : TxnId) (prevLsn : ℤ) (body : LogBody) :
    LogManager × ℤ :=
  let m := if m.isFull body.totLen then m.flushLogToDisk else m
  ({ m with
    buffer := m.buffer ++ [⟨m.globalLsn, logTid, prevLsn, body⟩], globalLsn := m.globalLsn + 1 },
    m.globalLsn)

/-- The log manager after a restart that has read all of the log file (`set_next_lsn`). -/
def reopen (disk : List LogRecord) : LogManager := ⟨disk, [], disk.length⟩

variable (m : LogManager)

@[simp] theorem all_flushLogToDisk : m.flushLogToDisk.all = m.all := by
  simp [flushLogToDisk, all]

@[simp] theorem disk_flushLogToDisk : m.flushLogToDisk.disk = m.all := rfl

@[simp] theorem globalLsn_flushLogToDisk : m.flushLogToDisk.globalLsn = m.globalLsn := rfl

variable (t : TxnId) (prevLsn : ℤ) (body : LogBody)

@[simp] theorem all_addLogToBuffer : (m.addLogToBuffer t prevLsn body).1.all =
    m.all ++ [⟨m.globalLsn, t, prevLsn, body⟩] := by
  by_cases h : m.isFull body.totLen <;> simp [addLogToBuffer, h, all, flushLogToDisk]

@[simp] theorem lsn_addLogToBuffer : (m.addLogToBuffer t prevLsn body).2 = m.globalLsn := by
  by_cases h : m.isFull body.totLen <;> simp [addLogToBuffer, h]

@[simp] theorem globalLsn_addLogToBuffer :
    (m.addLogToBuffer t prevLsn body).1.globalLsn = m.globalLsn + 1 := by
  by_cases h : m.isFull body.totLen <;> simp [addLogToBuffer, h]

/-- Adding a record writes nothing, or everything that was there. -/
theorem disk_addLogToBuffer : (m.addLogToBuffer t prevLsn body).1.disk = m.disk ∨
    (m.addLogToBuffer t prevLsn body).1.disk = m.all := by
  by_cases h : m.isFull body.totLen <;> simp [addLogToBuffer, h]

end LogManager

/-- `get_next_txn_id` after a log has been read: `max_txn_id_` starts at `INVALID_TXN_ID`. -/
def getNextTxnId (logs : List LogRecord) : TxnId :=
  let maxTxnId := logs.foldl (fun m r => max m r.logTid) (-1)
  if maxTxnId = -1 then 0 else maxTxnId + 1

theorem le_foldl_max (logs : List LogRecord) (m : TxnId) :
    m ≤ logs.foldl (fun m r => max m r.logTid) m ∧
      ∀ r ∈ logs, r.logTid ≤ logs.foldl (fun m r => max m r.logTid) m := by
  induction logs generalizing m with
  | nil => simp
  | cons a logs ih =>
    obtain ⟨hm, hr⟩ := ih (max m a.logTid)
    rw [List.foldl_cons]
    refine ⟨(le_max_left _ _).trans hm, fun r hmem => ?_⟩
    rcases List.mem_cons.1 hmem with rfl | hmem
    · exact (le_max_right _ _).trans hm
    · exact hr r hmem

theorem getNextTxnId_eq (logs : List LogRecord) :
    getNextTxnId logs = logs.foldl (fun m r => max m r.logTid) (-1) + 1 := by
  simp only [getNextTxnId]
  split
  · rename_i hnone
    rw [hnone]
    rfl
  · rfl

theorem logTid_lt_getNextTxnId {logs : List LogRecord} {r : LogRecord} (h : r ∈ logs) :
    r.logTid < getNextTxnId logs := by
  rw [getNextTxnId_eq]
  exact Int.lt_add_one_of_le ((le_foldl_max logs (-1)).2 r h)

theorem getNextTxnId_mono {logs logs' : List LogRecord} (h : logs <+: logs') :
    getNextTxnId logs ≤ getNextTxnId logs' := by
  obtain ⟨l, rfl⟩ := h
  rw [getNextTxnId_eq, getNextTxnId_eq, List.foldl_append]
  exact Int.add_le_add_right (le_foldl_max l _).1 1

end Rmdb
