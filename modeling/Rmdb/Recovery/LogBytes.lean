import Rmdb.Defs
import Rmdb.Lib.Memory

/-!
# Log records in bytes

`LogRecord` and its subclasses (`recovery/log_manager.h`) with the fields as they are stored, and
their `serialize` and `deserialize`.  `deserialize` reads from a position in memory and trusts the
lengths that it finds there; the round trip needs the bytes of the record to stand at that position.
-/

namespace Rmdb

/-- `LogType`. -/
inductive LogType
  | update
  | insert
  | delete
  | begin
  | commit
  | abort
  | indexInsert
  | indexDelete
deriving DecidableEq, Repr

namespace LogType

def code : LogType → ℕ
  | .update => 0
  | .insert => 1
  | .delete => 2
  | .begin => 3
  | .commit => 4
  | .abort => 5
  | .indexInsert => 6
  | .indexDelete => 7

/-- The cases of the switch over the type. -/
def ofCode : ℕ → Option LogType
  | 0 => some .update
  | 1 => some .insert
  | 2 => some .delete
  | 3 => some .begin
  | 4 => some .commit
  | 5 => some .abort
  | 6 => some .indexInsert
  | 7 => some .indexDelete
  | _ => none

@[simp] theorem ofCode_code (t : LogType) : ofCode t.code = some t := by
  cases t <;> rfl

theorem code_lt (t : LogType) : t.code < 256 ^ 4 := by
  cases t <;> decide

end LogType

/-- A `Rid` as it is stored. -/
structure StoredRid where
  pageNo : Int32
  slotNo : Int32
deriving DecidableEq, Repr

/-- What the records of the different types have besides the header.  A name is the array with its
terminator, `table_name_` or `ix_name_`; the sizes of images, keys and names are those of the
arrays. -/
inductive LogData
  | begin
  | commit
  | abort
  | insert (insertValue : Bytes) (rid : StoredRid) (tableName : Bytes)
  | delete (deleteValue : Bytes) (rid : StoredRid) (tableName : Bytes)
  | update (updateValue nowValue : Bytes) (rid : StoredRid) (tableName : Bytes)
  | indexInsert (key : Bytes) (rid : StoredRid) (ixName : Bytes)
  | indexDelete (key : Bytes) (rid : StoredRid) (ixName : Bytes)
deriving DecidableEq, Repr

/-- A log record; its `log_type_` is that of its data. -/
structure LogEntry where
  lsn : Int32
  logTotLen : UInt32
  logTid : Int32
  prevLsn : Int32
  data : LogData
deriving DecidableEq, Repr

def OFFSET_LSN : ℕ := 4
def OFFSET_LOG_TOT_LEN : ℕ := 8
def OFFSET_LOG_TID : ℕ := 12
def OFFSET_PREV_LSN : ℕ := 16
def OFFSET_LOG_DATA : ℕ := 20

namespace LogData

def logType : LogData → LogType
  | .begin => .begin
  | .commit => .commit
  | .abort => .abort
  | .insert _ _ _ => .insert
  | .delete _ _ _ => .delete
  | .update _ _ _ _ => .update
  | .indexInsert _ _ _ => .indexInsert
  | .indexDelete _ _ _ => .indexDelete

/-- The `log_tot_len_` of the constructors. -/
def totLen : LogData → ℕ
  | .begin => OFFSET_LOG_DATA
  | .commit => OFFSET_LOG_DATA
  | .abort => OFFSET_LOG_DATA
  | .insert value _ name => OFFSET_LOG_DATA + (4 + value.length + 8) + (8 + name.length)
  | .delete value _ name => OFFSET_LOG_DATA + (4 + value.length + 8) + (8 + name.length)
  | .update old new _ name =>
    OFFSET_LOG_DATA + (4 + old.length + 4 + new.length + 8) + (8 + name.length)
  | .indexInsert key _ name => OFFSET_LOG_DATA + (4 + key.length + 8) + (8 + name.length)
  | .indexDelete key _ name => OFFSET_LOG_DATA + (4 + key.length + 8) + (8 + name.length)

end LogData

/-! ## Writing -/

def int32Bytes (x : Int32) : Bytes := leBytes 4 x.toUInt32.toNat

def ridBytes (rid : StoredRid) : Bytes := int32Bytes rid.pageNo ++ int32Bytes rid.slotNo

/-- An image or a key behind its `int` length. -/
def imageBytes (value : Bytes) : Bytes := leBytes 4 value.length ++ value

/-- A name behind its `size_t` length. -/
def nameBytes (name : Bytes) : Bytes := leBytes 8 name.length ++ name

/-- The part behind the header that the records with one image have in common. -/
def LogData.imageRecordBytes (value : Bytes) (rid : StoredRid) (name : Bytes) : Bytes :=
  imageBytes value ++ (ridBytes rid ++ nameBytes name)

def LogData.bytes : LogData → Bytes
  | .begin => []
  | .commit => []
  | .abort => []
  | .insert value rid name => imageRecordBytes value rid name
  | .delete value rid name => imageRecordBytes value rid name
  | .update old new rid name => imageBytes old ++ imageRecordBytes new rid name
  | .indexInsert key rid name => imageRecordBytes key rid name
  | .indexDelete key rid name => imageRecordBytes key rid name

namespace LogEntry

def header (e : LogEntry) : Bytes :=
  leBytes 4 e.data.logType.code ++ (int32Bytes e.lsn ++ (leBytes 4 e.logTotLen.toNat ++
    (int32Bytes e.logTid ++ int32Bytes e.prevLsn)))

def serialize (e : LogEntry) : Bytes := e.header ++ e.data.bytes

/-- `log_tot_len_` is what the constructor makes of the data. -/
def Built (e : LogEntry) : Prop := e.logTotLen.toNat = e.data.totLen

instance (e : LogEntry) : Decidable e.Built := inferInstanceAs (Decidable (_ = _))

end LogEntry

/-! ## Reading -/

namespace Memory

variable (m : Memory) (p : ℤ)

def word (w : ℕ) : ℕ := leNat (m.read p w)

def uint32 : UInt32 := .ofNat (m.word p 4)

def int32 : Int32 := (m.uint32 p).toInt32

def rid : StoredRid := ⟨m.int32 p, m.int32 (p + 4)⟩

/-- A negative size fails in `new`. -/
def image : Option Bytes :=
  if (m.int32 p).toInt < 0 then none else some (m.read (p + 4) (m.int32 p).toInt.toNat)

def name : Bytes := m.read (p + 8) (m.word p 8)

/-- The data of the records with one image. -/
def imageRecord (make : Bytes → StoredRid → Bytes → LogData) : Option LogData := do
  let value ← m.image p
  let q := p + 4 + value.length
  return make value (m.rid q) (m.name (q + 8))

end Memory

/-- The part behind the header of a record of the given type. -/
def LogData.deserialize (m : Memory) (p : ℤ) : LogType → Option LogData
  | .begin => some .begin
  | .commit => some .commit
  | .abort => some .abort
  | .insert => m.imageRecord p .insert
  | .delete => m.imageRecord p .delete
  | .update => do
    let old ← m.image p
    m.imageRecord (p + 4 + old.length) (.update old)
  | .indexInsert => m.imageRecord p .indexInsert
  | .indexDelete => m.imageRecord p .indexDelete

/-- `deserialize` of the class for the type. -/
def LogEntry.deserialize (m : Memory) (p : ℤ) (t : LogType) : Option LogEntry := do
  let data ← LogData.deserialize m (p + OFFSET_LOG_DATA) t
  return {
    lsn := m.int32 (p + OFFSET_LSN)
    logTotLen := m.uint32 (p + OFFSET_LOG_TOT_LEN)
    logTid := m.int32 (p + OFFSET_LOG_TID)
    prevLsn := m.int32 (p + OFFSET_PREV_LSN)
    data := data }

/-! ## Round trip -/

section RoundTrip

variable {m : Memory} {p : ℤ}

@[simp] theorem length_int32Bytes (x : Int32) : (int32Bytes x).length = 4 := length_leBytes ..

@[simp] theorem length_ridBytes (rid : StoredRid) : (ridBytes rid).length = 8 := by
  simp [ridBytes]

@[simp] theorem length_imageBytes (value : Bytes) :
    (imageBytes value).length = 4 + value.length := by
  simp [imageBytes]

@[simp] theorem length_nameBytes (name : Bytes) : (nameBytes name).length = 8 + name.length := by
  simp [nameBytes]

@[simp] theorem LogEntry.length_header (e : LogEntry) : e.header.length = OFFSET_LOG_DATA := by
  simp [LogEntry.header, OFFSET_LOG_DATA]

theorem LogEntry.length_serialize (e : LogEntry) : e.serialize.length = e.data.totLen := by
  rw [LogEntry.serialize, List.length_append, LogEntry.length_header]
  cases e.data <;> simp [LogData.bytes, LogData.imageRecordBytes, LogData.totLen] <;> omega

theorem LogData.le_totLen (d : LogData) : OFFSET_LOG_DATA ≤ d.totLen := by
  cases d <;> simp only [LogData.totLen] <;> omega

theorem word_of_holds {w n : ℕ} (h : m.Holds p (leBytes w n)) (hn : n < 256 ^ w) :
    m.word p w = n := by
  unfold Memory.Holds at h
  rw [length_leBytes] at h
  rw [Memory.word, h, leNat_leBytes hn]

theorem uint32_of_holds {x : UInt32} (h : m.Holds p (leBytes 4 x.toNat)) : m.uint32 p = x := by
  rw [Memory.uint32, word_of_holds h x.toNat_lt]
  exact UInt32.ofNat_toNat

theorem int32_of_holds {x : Int32} (h : m.Holds p (int32Bytes x)) : m.int32 p = x := by
  rw [Memory.int32, uint32_of_holds h]
  exact Int32.toInt32_toUInt32 x

theorem rid_of_holds {rid : StoredRid} (h : m.Holds p (ridBytes rid)) : m.rid p = rid := by
  obtain ⟨hpage, hslot⟩ := Memory.holds_append.1 h
  rw [length_int32Bytes] at hslot
  rw [Memory.rid, int32_of_holds hpage]
  exact congrArg (StoredRid.mk rid.pageNo) (int32_of_holds hslot)

theorem image_of_holds {value : Bytes} (h : m.Holds p (imageBytes value))
    (hlen : value.length < 2 ^ 31) : m.image p = some value := by
  obtain ⟨hsize, hbytes⟩ := Memory.holds_append.1 h
  rw [length_leBytes] at hbytes
  have hint : (m.int32 p).toInt = value.length := by
    rw [Memory.int32, Memory.uint32, word_of_holds hsize (by omega), UInt32.toInt32_ofNat']
    exact Int32.toInt_ofNat_of_lt hlen
  rw [Memory.image, if_neg (by omega), hint]
  exact congrArg some hbytes

theorem name_of_holds {name : Bytes} (h : m.Holds p (nameBytes name))
    (hlen : name.length < 2 ^ 31) : m.name p = name := by
  obtain ⟨hsize, hbytes⟩ := Memory.holds_append.1 h
  rw [length_leBytes] at hbytes
  rw [Memory.name, word_of_holds hsize (by omega)]
  exact hbytes

theorem imageRecord_of_holds {value name : Bytes} {rid : StoredRid}
    (h : m.Holds p (LogData.imageRecordBytes value rid name)) (hvalue : value.length < 2 ^ 31)
    (hname : name.length < 2 ^ 31) (make : Bytes → StoredRid → Bytes → LogData) :
    m.imageRecord p make = some (make value rid name) := by
  obtain ⟨himage, hrest⟩ := Memory.holds_append.1 h
  obtain ⟨hrid, hnm⟩ := Memory.holds_append.1 hrest
  rw [length_imageBytes] at hrid hnm
  rw [length_ridBytes] at hnm
  have hq : p + 4 + (value.length : ℤ) = p + ((4 + value.length : ℕ) : ℤ) := by
    omega
  simp only [Memory.imageRecord, image_of_holds himage hvalue, Option.bind_eq_bind,
    Option.bind_some, hq]
  rw [rid_of_holds hrid]
  exact congrArg some (congrArg (make value rid) (name_of_holds hnm hname))

theorem LogData.deserialize_of_holds {d : LogData} (h : m.Holds p d.bytes)
    (hlen : d.totLen < 2 ^ 31) : LogData.deserialize m p d.logType = some d := by
  cases d with
  | begin => rfl
  | commit => rfl
  | abort => rfl
  | insert value rid name =>
    simp only [LogData.totLen] at hlen
    exact imageRecord_of_holds h (by omega) (by omega) _
  | delete value rid name =>
    simp only [LogData.totLen] at hlen
    exact imageRecord_of_holds h (by omega) (by omega) _
  | update old new rid name =>
    simp only [LogData.totLen] at hlen
    obtain ⟨hold, hrest⟩ := Memory.holds_append.1 h
    rw [length_imageBytes] at hrest
    have hq : p + 4 + (old.length : ℤ) = p + ((4 + old.length : ℕ) : ℤ) := by
      omega
    simp only [LogData.deserialize, LogData.logType, image_of_holds hold (by omega),
      Option.bind_eq_bind, Option.bind_some, hq]
    exact imageRecord_of_holds hrest (by omega) (by omega) _
  | indexInsert key rid name =>
    simp only [LogData.totLen] at hlen
    exact imageRecord_of_holds h (by omega) (by omega) _
  | indexDelete key rid name =>
    simp only [LogData.totLen] at hlen
    exact imageRecord_of_holds h (by omega) (by omega) _

/-- What is read of the header of a record. -/
theorem LogEntry.header_of_holds {e : LogEntry} (h : m.Holds p e.header) :
    m.word p 4 = e.data.logType.code ∧ m.int32 (p + OFFSET_LSN) = e.lsn ∧
      m.uint32 (p + OFFSET_LOG_TOT_LEN) = e.logTotLen ∧ m.int32 (p + OFFSET_LOG_TID) = e.logTid ∧
      m.int32 (p + OFFSET_PREV_LSN) = e.prevLsn := by
  obtain ⟨htype, h⟩ := Memory.holds_append.1 h
  obtain ⟨hlsn, h⟩ := Memory.holds_append.1 h
  obtain ⟨hlen, h⟩ := Memory.holds_append.1 h
  obtain ⟨htid, hprev⟩ := Memory.holds_append.1 h
  simp only [length_leBytes, length_int32Bytes, Int.add_assoc] at hlsn hlen htid hprev
  exact ⟨word_of_holds htype (LogType.code_lt _), int32_of_holds hlsn, uint32_of_holds hlen,
    int32_of_holds htid, int32_of_holds hprev⟩

/-- `deserialize` gives back what `serialize` wrote. -/
theorem LogEntry.deserialize_of_holds {e : LogEntry} (h : m.Holds p e.serialize)
    (hlen : e.data.totLen < 2 ^ 31) : LogEntry.deserialize m p e.data.logType = some e := by
  obtain ⟨hheader, hdata⟩ := Memory.holds_append.1 h
  obtain ⟨-, hlsn, htot, htid, hprev⟩ := LogEntry.header_of_holds hheader
  rw [LogEntry.length_header] at hdata
  simp only [LogEntry.deserialize, LogData.deserialize_of_holds hdata hlen, hlsn, htot, htid, hprev,
    Option.bind_eq_bind, Option.bind_some]
  rfl

end RoundTrip

end Rmdb
