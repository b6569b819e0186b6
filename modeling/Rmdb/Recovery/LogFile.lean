import Rmdb.Recovery.LinkedLog
import Rmdb.Recovery.LogManager
import Rmdb.Recovery.LogReader

/-!
# The log file

The records of the log as they stand in `db.log`.  The numbers of a record are `int`s there, and a
name has its terminator.  `analyze` reads the records back when its loop over the chunks does.
-/

namespace Rmdb

/-! ## Records and their bytes -/

def StoredRid.ofRid (rid : Rid) : StoredRid := ⟨.ofInt rid.pageNo, .ofInt rid.slotNo⟩

def StoredRid.rid (rid : StoredRid) : Rid := ⟨rid.pageNo.toInt, rid.slotNo.toInt⟩

/-- The array of a name, with the terminator. -/
def storedName (name : String) : Bytes := name.toUTF8.data.toList ++ [0]

/-- `std::string(table_name_)`: what stands before the first terminator. -/
def loadedName (bytes : Bytes) : String :=
  (String.fromUTF8? ⟨(bytes.takeWhile (· ≠ 0)).toArray⟩).getD ""

def LogBody.data : LogBody → LogData
  | .begin => .begin
  | .commit => .commit
  | .abort => .abort
  | .insert tabName rid insertValue => .insert insertValue (.ofRid rid) (storedName tabName)
  | .delete tabName rid deleteValue => .delete deleteValue (.ofRid rid) (storedName tabName)
  | .update tabName rid updateValue nowValue =>
    .update updateValue nowValue (.ofRid rid) (storedName tabName)
  | .indexInsert ixName key rid => .indexInsert key (.ofRid rid) (storedName ixName)
  | .indexDelete ixName key rid => .indexDelete key (.ofRid rid) (storedName ixName)

def LogData.body : LogData → LogBody
  | .begin => .begin
  | .commit => .commit
  | .abort => .abort
  | .insert insertValue rid tableName => .insert (loadedName tableName) rid.rid insertValue
  | .delete deleteValue rid tableName => .delete (loadedName tableName) rid.rid deleteValue
  | .update updateValue nowValue rid tableName =>
    .update (loadedName tableName) rid.rid updateValue nowValue
  | .indexInsert key rid ixName => .indexInsert (loadedName ixName) key rid.rid
  | .indexDelete key rid ixName => .indexDelete (loadedName ixName) key rid.rid

/-- The record as its constructor makes it. -/
def LogRecord.entry (r : LogRecord) : LogEntry where
  lsn := .ofInt r.lsn
  logTotLen := .ofNat r.body.totLen
  logTid := .ofInt r.logTid
  prevLsn := .ofInt r.prevLsn
  data := r.body.data

/-- What recovery makes of a record that it has read. -/
def LogEntry.record (e : LogEntry) : LogRecord where
  lsn := e.lsn.toInt
  logTid := e.logTid.toInt
  prevLsn := e.prevLsn.toInt
  body := e.data.body

/-- The bytes of `db.log`. -/
def logFile (logs : List LogRecord) : Bytes := LogReader.stream (logs.map LogRecord.entry)

/-- The log can be read with the memory `m` from the start of `buffer_` on: it is shorter than 2^31
bytes, its records are shorter than the buffer and their numbers are `int`s, and no record is cut by
the end of a chunk so that its length is read wrong. -/
structure ReadsLog (m : Memory) (logs : List LogRecord) : Prop where
  short : (logFile logs).length < 2 ^ 31
  small : ∀ r ∈ logs, r.body.totLen < LOG_BUFFER_SIZE
  stored : ∀ r ∈ logs, r.entry.record = r
  cuts : LogReader.CutsOk LOG_BUFFER_SIZE m LOG_BUFFER_SIZE (logs.map LogRecord.entry)

/-! ## Reading -/

variable {logs : List LogRecord} {r : LogRecord}

theorem length_storedName (name : String) : 8 + (storedName name).length = nameLen name := by
  rw [storedName, List.length_append, Array.length_toList]
  rfl

theorem totLen_data (body : LogBody) : body.data.totLen = body.totLen := by
  cases body <;> simp only [LogBody.data, LogData.totLen, LogBody.totLen, length_storedName] <;> rfl

theorem LogRecord.built_entry (h : r.body.totLen < 2 ^ 32) : r.entry.Built := by
  rw [LogEntry.Built, LogRecord.entry, totLen_data]
  exact UInt32.toNat_ofNat_of_lt h

namespace LogReader

/-- One more record at the end. -/
theorem begun_snoc {att : List Int32} {es : List LogEntry} {e : LogEntry} :
    Begun att (es ++ [e]) ↔ Begun att es ∧
      (e.data.logType = .begin ∨ e.logTid ∈ att ∨ ∃ e' ∈ es, e'.logTid = e.logTid) := by
  induction es generalizing att with
  | nil => simp [Begun]
  | cons e' es ih =>
    rw [List.cons_append, Begun, Begun, ih, and_assoc]
    refine and_congr_right fun _ => and_congr_right fun _ => or_congr_right ?_
    rw [List.mem_cons, List.exists_mem_cons_iff, eq_comm, or_assoc, or_left_comm]

end LogReader

/-- In a linked log every record but a BEGIN comes after another one of its transaction. -/
theorem Linked.begun (h : Linked logs) : LogReader.Begun [] (logs.map LogRecord.entry) := by
  induction h with
  | nil => trivial
  | @snoc logs r _ _ _ hbegin _ ih =>
    rw [List.map_append, List.map_singleton, LogReader.begun_snoc]
    refine ⟨ih, ?_⟩
    by_cases hfirst : recordsOf r.logTid logs = []
    · refine .inl ?_
      rw [LogRecord.entry, hbegin.2 hfirst]
      rfl
    · obtain ⟨r', hr'⟩ := List.exists_mem_of_ne_nil _ hfirst
      obtain ⟨hmem, htid⟩ := List.mem_filter.1 hr'
      refine .inr (.inr ⟨r'.entry, List.mem_map_of_mem hmem, ?_⟩)
      rw [LogRecord.entry, LogRecord.entry, of_decide_eq_true htid]

/-- `analyze` reads the records of the log. -/
theorem ReadsLog.reads {m : Memory} (h : ReadsLog m logs) (hlinked : Linked logs) :
    LogReader.Reads (logFile logs) LOG_BUFFER_SIZE { buffer := m } (logs.map LogRecord.entry) := by
  have hbuilt : ∀ e ∈ logs.map LogRecord.entry, e.Built := by
    refine List.forall_mem_map.2 fun r hr => LogRecord.built_entry ((h.small r hr).trans ?_)
    decide
  have hsmall : ∀ e ∈ logs.map LogRecord.entry, e.data.totLen ≤ LOG_BUFFER_SIZE := by
    refine List.forall_mem_map.2 fun r hr => ?_
    rw [LogRecord.entry, totLen_data]
    exact Nat.le_of_lt (h.small r hr)
  have hiff : LogReader.Reads (logFile logs ++ []) LOG_BUFFER_SIZE { buffer := m }
    (logs.map LogRecord.entry) ↔ _ :=
    LogReader.reads_start_iff (by rw [List.append_nil]; exact h.short) hbuilt (by decide)
  rw [List.append_nil] at hiff
  exact hiff.2 ⟨hlinked.begun, h.cuts, LogReader.stopsAfter_nil hsmall⟩

/-- The records that are read are those of the log. -/
theorem ReadsLog.records {m : Memory} (h : ReadsLog m logs) :
    (logs.map LogRecord.entry).map LogEntry.record = logs := by
  rw [List.map_map]
  exact (List.map_congr_left h.stored).trans (List.map_id logs)

end Rmdb
