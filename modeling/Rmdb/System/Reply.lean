import Rmdb.System.Agreement

/-!
# Replies

What the handling of a request stores into `data_send`: the tables that `RecordPrinter`
(`record_printer.h`) draws for `select_from`, `show_tables` and `desc_table`, the lines of
`show_index`, the help text, and the replies of `client_handler` (`rmdb.cpp`) to an exception.  The
printer leaves `RECORD_COUNT_LENGTH` bytes for the line with the number of records; the other
writers look at no bound.

A character of a text is a byte of the buffer.  The rows of a query are given with the texts of
their columns.
-/

namespace Rmdb

/-- The size of `data_send`. -/
def BUFFER_LENGTH : ℕ := 8192

def RECORD_COUNT_LENGTH : ℕ := 40

/-! ## Exceptions -/

/-- The classes of `errors.h`, with the arguments of their constructors. -/
inductive RMDBError
  | internalError (msg : String)
  | unixError (strerror : String)
  | fileNotOpen (fd : ℤ)
  | fileNotClosed (filename : String)
  | fileExists (filename : String)
  | fileNotFound (filename : String)
  | recordNotFound (pageNo slotNo : ℤ)
  | invalidRecordSize (recordSize : ℤ)
  | invalidColLength (colLen : ℤ)
  | indexEntryNotFound
  | databaseNotFound (dbName : String)
  | databaseExists (dbName : String)
  | tableNotFound (tabName : String)
  | tableExists (tabName : String)
  | columnNotFound (colName : String)
  | indexNotFound (tabName : String) (colNames : List String)
  | indexExists (tabName : String) (colNames : List String)
  | invalidValueCount
  | stringOverflow
  | integerOverflow
  | invalidDateTime
  | incompatibleType (lhs rhs : String)
  | ambiguousColumn (colName : String)
  | pageNotExist (tableName : String) (pageNo : ℤ)
deriving DecidableEq, Repr

/-- Names with a separator between them. -/
def joined (separator : List Char) (names : List String) : List Char :=
  separator.intercalate (names.map String.toList)

/-- `coltype2str`. -/
def coltype2str : ColType → String
  | .int => "INT"
  | .float => "FLOAT"
  | .bigint => "BIGINT"
  | .string => "STRING"
  | .datetime => "DATETIME"

namespace RMDBError

/-- The text behind `Error: `. -/
def msg : RMDBError → List Char
  | internalError msg => msg.toList
  | unixError strerror => strerror.toList
  | fileNotOpen fd => "Invalid file descriptor: ".toList ++ intChars fd
  | fileNotClosed filename => "File is opened: ".toList ++ filename.toList
  | fileExists filename => "File already exists: ".toList ++ filename.toList
  | fileNotFound filename => "File not found: ".toList ++ filename.toList
  | recordNotFound pageNo slotNo =>
    "Record not found: (".toList ++ (intChars pageNo ++ ',' :: (intChars slotNo ++ [')']))
  | invalidRecordSize recordSize => "Invalid record size: ".toList ++ intChars recordSize
  | invalidColLength colLen => "Invalid column length: ".toList ++ intChars colLen
  | indexEntryNotFound => "Index entry not found".toList
  | databaseNotFound dbName => "Database not found: ".toList ++ dbName.toList
  | databaseExists dbName => "Database already exists: ".toList ++ dbName.toList
  | tableNotFound tabName => "Table not found: ".toList ++ tabName.toList
  | tableExists tabName => "Table already exists: ".toList ++ tabName.toList
  | columnNotFound colName => "Column not found: ".toList ++ colName.toList
  | indexNotFound tabName colNames =>
    "Index not found: ".toList ++ (tabName.toList ++
      (".(".toList ++ (joined ", ".toList colNames ++ [')'])))
  | indexExists tabName colNames =>
    "Index already exists: ".toList ++
      (tabName.toList ++ (".(".toList ++ (joined ", ".toList colNames ++ [')'])))
  | invalidValueCount => "Invalid value count".toList
  | stringOverflow => "String is too long".toList
  | integerOverflow => "Integer overflow".toList
  | invalidDateTime => "Invalid datetime".toList
  | incompatibleType lhs rhs =>
    "Incompatible type error: lhs ".toList ++ (lhs.toList ++ (", rhs ".toList ++ rhs.toList))
  | ambiguousColumn colName => "Ambiguous column: ".toList ++ colName.toList
  | pageNotExist tableName pageNo =>
    "Page ".toList ++ (intChars pageNo ++
      (" in table ".toList ++ (tableName.toList ++ "not exits".toList)))

/-- `what()`, of `get_msg_len()` bytes. -/
def what (e : RMDBError) : List Char := "Error: ".toList ++ e.msg

end RMDBError

/-- What `client_handler` catches. -/
inductive Failure
  | transactionAbort
  | error (e : RMDBError)
deriving DecidableEq, Repr

/-- What an execution throws; no exception is caught for the end of the process. -/
def ExecError.failure : ExecError → Option Failure
  | .transactionAbort => some .transactionAbort
  | .tableNotFound tabName => some (.error (.tableNotFound tabName))
  | .columnNotFound colName => some (.error (.columnNotFound colName))
  | .invalidValueCount => some (.error .invalidValueCount)
  | .incompatibleType lhs rhs =>
    some (.error (.incompatibleType (coltype2str lhs) (coltype2str rhs)))
  | .stringOverflow => some (.error .stringOverflow)
  | .indexExists tabName colNames => some (.error (.indexExists tabName colNames))
  | .assertion => none
  | .rm (.invalidRecordSize recordSize) => some (.error (.invalidRecordSize recordSize))
  | .rm (.pageNotExist pageNo) => some (.error (.pageNotExist "table" pageNo))

/-- What data definition throws; `std::out_of_range` is not caught either. -/
def SmError.failure (strerror : String) : SmError → Option Failure
  | .tableExists tabName => some (.error (.tableExists tabName))
  | .tableNotFound tabName => some (.error (.tableNotFound tabName))
  | .columnNotFound colName => some (.error (.columnNotFound colName))
  | .indexExists tabName colNames => some (.error (.indexExists tabName colNames))
  | .indexNotFound tabName colNames => some (.error (.indexNotFound tabName colNames))
  | .invalidRecordSize recordSize => some (.error (.invalidRecordSize recordSize))
  | .invalidColLength colLen => some (.error (.invalidColLength colLen))
  | .fileExists path => some (.error (.fileExists path))
  | .fileNotFound path => some (.error (.fileNotFound path))
  | .fileNotClosed path => some (.error (.fileNotClosed path))
  | .fileNotOpen fd => some (.error (.fileNotOpen fd))
  | .unixError => some (.error (.unixError strerror))
  | .outOfRange => none
  | .exec e => e.failure
  | .assertion => none

/-! ## The buffer -/

/-- `data_send` with `offset_` and `ellipsis_`: the copies into it, each with its position. -/
structure ReplyBuffer where
  stores : List (ℕ × List Char)
  offset : ℕ
  ellipsis : Bool
deriving DecidableEq, Repr

namespace ReplyBuffer

variable (b : ReplyBuffer)

/-- The buffer before a request: `client_handler` has filled it with zeros. -/
def empty : ReplyBuffer where
  stores := []
  offset := 0
  ellipsis := false

/-- A copy behind what is there. -/
def append (str : List Char) : ReplyBuffer :=
  { b with stores := b.stores ++ [(b.offset, str)], offset := b.offset + str.length }

/-- The test of `RecordPrinter`. -/
def hasRoom (str : List Char) : Bool :=
  b.ellipsis == false && decide (b.offset + RECORD_COUNT_LENGTH + str.length < BUFFER_LENGTH)

/-- A copy where there is room; the reply is cut off otherwise. -/
def appendOrCut (str : List Char) : ReplyBuffer :=
  if b.hasRoom str then b.append str else { b with ellipsis := true }

/-- The bytes that are taken: up to the end of each copy, and up to the zero behind the reply, which
`write` sends with it. -/
def bytesStored : ℕ := (b.stores.map fun store => store.1 + store.2.length).foldr max (b.offset + 1)

end ReplyBuffer

/-! ## The printer -/

namespace RecordPrinter

open ReplyBuffer

def COL_WIDTH : ℕ := 16

def printSeparator (numCols : ℕ) (b : ReplyBuffer) : ReplyBuffer :=
  ((List.range numCols).foldl (fun b _ => b.appendOrCut ('+' :: List.replicate (COL_WIDTH + 2) '-'))
    b).appendOrCut "+\n".toList

/-- A column between its bars, to the right of its place and cut to it. -/
def cell (col : List Char) : List Char :=
  let col := if COL_WIDTH < col.length then col.take (COL_WIDTH - 3) ++ "...".toList else col
  "| ".toList ++ (List.replicate (COL_WIDTH - col.length) ' ' ++ (col ++ [' ']))

/-- The end of the row is left out where there is no room for it, and the reply is not cut off by
that. -/
def printRecord (recStr : List (List Char)) (b : ReplyBuffer) : ReplyBuffer :=
  let b := recStr.foldl (fun b col => b.appendOrCut (cell col)) b
  if b.hasRoom "|\n".toList then b.append "|\n".toList else b

def printRecordCount (numRec : ℕ) (b : ReplyBuffer) : ReplyBuffer :=
  b.append ((if b.ellipsis then "... ...\n".toList else []) ++
    ("Total record(s): ".toList ++ (Nat.toDigits 10 numRec ++ ['\n'])))

end RecordPrinter

open RecordPrinter

/-! ## Statements -/

/-- `help_info`. -/
def helpInfo : List Char :=
  ["Supported SQL syntax:\n",
    "  command ;\n",
    "command:\n",
    "  CREATE TABLE table_name (column_name type [, column_name type ...])\n",
    "  DROP TABLE table_name\n",
    "  CREATE INDEX table_name (column_name)\n",
    "  DROP INDEX table_name (column_name)\n",
    "  SHOW INDEX FROM table_name\n",
    "  INSERT INTO table_name VALUES (value [, value ...])\n",
    "  DELETE FROM table_name [WHERE where_clause]\n",
    "  UPDATE table_name SET column_name = value [, column_name = value ...] [WHERE where_clause]\n",
    "  SELECT selector FROM table_name [WHERE where_clause]\n",
    "type:\n",
    "  \x7bINT | BIGINT | FLOAT | CHAR(n) | DATETIME\x7d\n",
    "where_clause:\n",
    "  condition [AND condition ...]\n",
    "condition:\n",
    "  column op \x7bcolumn | value\x7d\n",
    "column:\n",
    "  [table_name.]column_name\n",
    "op:\n",
    "  \x7b= | <> | < | > | <= | >=\x7d\n",
    "selector:\n",
    "  \x7b* | column [, column ...]\x7d\n"].flatMap String.toList

namespace SmManager

variable (s : SmManager)

def showTables (b : ReplyBuffer) : ReplyBuffer :=
  let b := printSeparator 1 (printRecord ["Tables".toList] (printSeparator 1 b))
  printSeparator 1 (s.db.tabs.foldl (fun b tab => printRecord [tab.name.toList] b) b)

def descTable (tabName : String) (b : ReplyBuffer) : Except SmError ReplyBuffer := do
  let tab ← s.db.getTable tabName
  let captions := ["Field".toList, "Type".toList, "Index".toList]
  let b := printSeparator captions.length (printRecord captions (printSeparator captions.length b))
  let b := tab.cols.foldl (fun b col =>
    printRecord [col.name.toList, (coltype2str col.type).toList,
      (if col.index then "YES" else "NO").toList] b) b
  return printSeparator captions.length b

/-- The line of an index. -/
def indexLine (tabName : String) (index : IndexEntry) : List Char :=
  "| ".toList ++ (tabName.toList ++ (" | unique | ".toList ++
    ('(' :: joined [','] ((index.cols.take index.colNum).map ColEntry.name) ++ ")".toList ++
      " |\n".toList)))

def showIndex (tabName : String) (b : ReplyBuffer) : Except SmError ReplyBuffer := do
  let tab ← s.db.getTable tabName
  return tab.indexes.foldl (fun b index => b.append (indexLine tabName index)) b

end SmManager

/-- `select_from` with the rows that the executor gives, up to an exception of it. -/
def QlManager.selectFrom (captions : List (List Char)) (rows : List (List (List Char)))
    (thrown : Option Failure) (b : ReplyBuffer) : Except (Failure × ReplyBuffer) ReplyBuffer :=
  let b := printSeparator captions.length (printRecord captions (printSeparator captions.length b))
  let b := rows.foldl (fun b columns => printRecord columns b) b
  match thrown with
  | some failure => throw (failure, b)
  | none => return printRecordCount rows.length (printSeparator captions.length b)

/-- A request as far as the reply goes.  `ddl` has the text of `strerror` if the operating system
refuses a call; `other` is any request that prints nothing, with the exception of its analysis or
execution if there is one. -/
inductive ClientRequest
  | help
  | showTables
  | showIndex (tabName : String)
  | descTable (tabName : String)
  | select (captions : List (List Char)) (rows : List (List (List Char))) (thrown : Option Failure)
  | ddl (call : DdlCall) (strerror : String)
  | other (thrown : Option Failure)

namespace ClientRequest

/-- The handling of a request up to the exception that it throws. -/
def run (s : SmManager) (b : ReplyBuffer) :
    ClientRequest → Except (Option Failure × ReplyBuffer) ReplyBuffer
  | help => return { b.append helpInfo with offset := helpInfo.length }
  | showTables => return s.showTables b
  | showIndex tabName => (s.showIndex tabName b).mapError fun e => (e.failure "", b)
  | descTable tabName => (s.descTable tabName b).mapError fun e => (e.failure "", b)
  | select captions rows thrown =>
    (QlManager.selectFrom captions rows thrown b).mapError fun e => (some e.1, e.2)
  | ddl call strerror =>
    match call.run s with
    | .ok _ => return b
    | .error e => throw (e.1.failure strerror, b)
  | other none => return b
  | other (some failure) => throw (some failure, b)

end ClientRequest

/-- The reply to an exception, from the beginning of the buffer on. -/
def tellFailure (b : ReplyBuffer) : Option Failure → ReplyBuffer
  | none => b
  | some .transactionAbort =>
    { b with stores := b.stores ++ [(0, "abort\n".toList ++ ['\x00'])], offset := 6 }
  | some (.error e) =>
    { b with stores := b.stores ++ [(0, e.what ++ ['\n', '\x00'])], offset := e.what.length + 1 }

/-- The reply of `client_handler`. -/
def clientHandler (s : SmManager) (req : ClientRequest) : ReplyBuffer :=
  match req.run s .empty with
  | .ok b => b
  | .error (failure, b) => tellFailure b failure

/-! ## Which replies fit -/

/-- The message of the exception leaves two bytes of the buffer. -/
def ShortFailure : Option Failure → Prop
  | some (.error e) => e.what.length + 2 ≤ BUFFER_LENGTH
  | _ => True

/-- The lines of the indexes are shorter than the buffer, and the message of an exception leaves two
bytes of it. -/
def ClientRequest.Small (s : SmManager) : ClientRequest → Prop
  | help => True
  | showTables => True
  | showIndex tabName =>
    match SortedMap.find TabEntry.name tabName s.db.tabs with
    | some tab =>
      (tab.indexes.map fun index => (SmManager.indexLine tabName index).length).sum < BUFFER_LENGTH
    | none => tabName.length + 26 ≤ BUFFER_LENGTH
  | descTable tabName => s.db.isTable tabName = true ∨ tabName.length + 26 ≤ BUFFER_LENGTH
  | select _ _ thrown => ShortFailure thrown
  | ddl call strerror => ∀ e s', call.run s = .error (e, s') → ShortFailure (e.failure strerror)
  | other thrown => ShortFailure thrown

/-- The number of records of a query. -/
def ClientRequest.numRec : ClientRequest → ℕ
  | select _ rows _ => rows.length
  | _ => 0

namespace ReplyBuffer

variable {b : ReplyBuffer} {str : List Char} {n : ℕ}

@[simp] theorem offset_append : (b.append str).offset = b.offset + str.length := rfl

@[simp] theorem stores_append : (b.append str).stores = b.stores ++ [(b.offset, str)] := rfl

theorem bytesStored_le_iff : b.bytesStored ≤ n ↔
    b.offset + 1 ≤ n ∧ ∀ store ∈ b.stores, store.1 + store.2.length ≤ n := by
  rw [bytesStored]
  induction b.stores with
  | nil => simp
  | cons store stores ih =>
    rw [List.map_cons, List.foldr_cons, Nat.max_le, ih, List.forall_mem_cons]
    exact and_left_comm

/-- There is room for the line with the number of records. -/
structure Room (b : ReplyBuffer) : Prop where
  offset : b.offset + RECORD_COUNT_LENGTH < BUFFER_LENGTH
  stores : ∀ store ∈ b.stores, store.1 + store.2.length ≤ BUFFER_LENGTH

theorem room_empty : Room empty where
  offset := by decide
  stores := nofun

theorem Room.append (h : Room b) (hroom : b.hasRoom str = true) : Room (b.append str) := by
  rw [hasRoom, Bool.and_eq_true, decide_eq_true_eq] at hroom
  constructor
  · rw [offset_append]
    omega
  · rw [stores_append]
    refine List.forall_mem_append.2 ⟨h.stores, List.forall_mem_singleton.2 ?_⟩
    simp only
    omega

theorem Room.appendOrCut (h : Room b) (str : List Char) : Room (b.appendOrCut str) := by
  rw [ReplyBuffer.appendOrCut]
  split
  · next hroom => exact h.append hroom
  · exact ⟨h.offset, h.stores⟩

theorem Room.bytesStored_le (h : Room b) : b.bytesStored ≤ BUFFER_LENGTH := by
  have hoffset := h.offset
  exact bytesStored_le_iff.2 ⟨by omega, h.stores⟩

end ReplyBuffer

open ReplyBuffer

theorem RecordPrinter.room_printSeparator {b : ReplyBuffer} (h : Room b) (numCols : ℕ) :
    Room (printSeparator numCols b) :=
  (List.foldlRecOn _ _ h fun _ hb _ _ => hb.appendOrCut _).appendOrCut _

theorem RecordPrinter.room_printRecord {b : ReplyBuffer} (h : Room b) (recStr : List (List Char)) :
    Room (printRecord recStr b) := by
  have hcells : Room (recStr.foldl (fun b col => b.appendOrCut (cell col)) b) :=
    List.foldlRecOn _ _ h fun _ hb _ _ => hb.appendOrCut _
  simp only [printRecord]
  split
  · next hroom => exact hcells.append hroom
  · exact hcells

/-- A line for fewer than `10 ^ 14` records has at most `RECORD_COUNT_LENGTH` bytes. -/
theorem RecordPrinter.bytesStored_printRecordCount {b : ReplyBuffer} {numRec : ℕ} (h : Room b)
    (hnum : numRec < 10 ^ 14) : (printRecordCount numRec b).bytesStored ≤ BUFFER_LENGTH := by
  have hdigits := (Nat.length_toDigits_le_iff (by decide) (by decide)).2 hnum
  have hcut : (if b.ellipsis then "... ...\n".toList else []).length ≤ 8 := by
    split
    · exact Nat.le_refl 8
    · exact Nat.zero_le 8
  have hline : ((if b.ellipsis then "... ...\n".toList else []) ++
      ("Total record(s): ".toList ++ (Nat.toDigits 10 numRec ++ ['\n']))).length ≤
        RECORD_COUNT_LENGTH := by
    have htotal : "Total record(s): ".toList.length = 17 := rfl
    rw [List.length_append, List.length_append, List.length_append, htotal, List.length_singleton,
      RECORD_COUNT_LENGTH]
    omega
  have hoffset := h.offset
  rw [printRecordCount, bytesStored_le_iff, offset_append, stores_append]
  refine ⟨by omega, List.forall_mem_append.2 ⟨h.stores, List.forall_mem_singleton.2 ?_⟩⟩
  simp only
  omega

theorem room_header {b : ReplyBuffer} (h : Room b) (captions : List (List Char)) :
    Room (printSeparator captions.length
      (printRecord captions (printSeparator captions.length b))) :=
  room_printSeparator (room_printRecord (room_printSeparator h _) _) _

theorem SmManager.room_showTables (s : SmManager) {b : ReplyBuffer} (h : Room b) :
    Room (s.showTables b) :=
  room_printSeparator (List.foldlRecOn _ _ (room_header h ["Tables".toList]) fun _ hb _ _ =>
    room_printRecord hb _) _

/-- A table is described, or it is not there. -/
theorem SmManager.descTable_spec (s : SmManager) (tabName : String) {b : ReplyBuffer} (h : Room b) :
    match SortedMap.find TabEntry.name tabName s.db.tabs with
    | some _ => ∃ b', s.descTable tabName b = .ok b' ∧ Room b'
    | none => s.descTable tabName b = .error (.tableNotFound tabName) := by
  rw [descTable, DbMeta.getTable]
  cases SortedMap.find TabEntry.name tabName s.db.tabs with
  | none => rfl
  | some tab =>
    refine ⟨_, rfl, room_printSeparator (List.foldlRecOn _ _ ?_ fun _ hb _ _ =>
      room_printRecord hb _) _⟩
    exact room_header h ["Field".toList, "Type".toList, "Index".toList]

/-- A query leaves room, or has its line with the number of records. -/
theorem QlManager.selectFrom_spec (captions : List (List Char)) {rows : List (List (List Char))}
    (thrown : Option Failure) {b : ReplyBuffer} (h : Room b) (hnum : rows.length < 10 ^ 14) :
    match QlManager.selectFrom captions rows thrown b with
    | .ok b' => thrown = none ∧ b'.bytesStored ≤ BUFFER_LENGTH
    | .error (failure, b') => thrown = some failure ∧ Room b' := by
  have hrows : Room (rows.foldl (fun b columns => printRecord columns b)
      (printSeparator captions.length (printRecord captions (printSeparator captions.length b)))) :=
    List.foldlRecOn _ _ (room_header h captions) fun _ hb _ _ => room_printRecord hb _
  cases thrown with
  | none => exact ⟨rfl, bytesStored_printRecordCount (room_printSeparator hrows _) hnum⟩
  | some failure => exact ⟨rfl, hrows⟩

/-! ## Lines without a test -/

/-- No copy goes beyond the offset. -/
def Contiguous (b : ReplyBuffer) : Prop := ∀ store ∈ b.stores, store.1 + store.2.length ≤ b.offset

theorem Contiguous.append {b : ReplyBuffer} (h : Contiguous b) (str : List Char) :
    Contiguous (b.append str) := by
  rw [Contiguous, stores_append, offset_append]
  refine List.forall_mem_append.2
    ⟨fun store hstore => ?_, List.forall_mem_singleton.2 (Nat.le_refl _)⟩
  have hstore' := h store hstore
  omega

theorem Contiguous.bytesStored_le_iff {b : ReplyBuffer} (h : Contiguous b) {n : ℕ} :
    b.bytesStored ≤ n ↔ b.offset < n := by
  rw [ReplyBuffer.bytesStored_le_iff]
  constructor
  · intro hle
    exact hle.1
  · intro hlt
    refine ⟨hlt, fun store hstore => ?_⟩
    have hstore' := h store hstore
    omega

/-- Lines one behind the other take their lengths and a zero. -/
theorem bytesStored_lines {A : Type} (line : A → List Char) (l : List A) (n : ℕ) :
    (l.foldl (fun b a => b.append (line a)) empty).bytesStored ≤ n ↔
    (l.map fun a => (line a).length).sum < n := by
  have hoffset (l : List A) (b : ReplyBuffer) :
      (l.foldl (fun b a => b.append (line a)) b).offset =
        b.offset + (l.map fun a => (line a).length).sum := by
    induction l generalizing b with
    | nil => rfl
    | cons a l ih =>
      rw [List.foldl_cons, ih, offset_append, List.map_cons, List.sum_cons, Nat.add_assoc]
  have hcont : Contiguous (l.foldl (fun b a => b.append (line a)) empty) :=
    List.foldlRecOn _ _ (nofun : Contiguous empty) fun _ hb _ _ => hb.append _
  rw [hcont.bytesStored_le_iff, hoffset, show empty.offset = 0 from rfl, Nat.zero_add]

/-! ## Exceptions -/

theorem bytesStored_tellFailure {b : ReplyBuffer} (h : Room b) (failure : Option Failure) :
    (tellFailure b failure).bytesStored ≤ BUFFER_LENGTH ↔ ShortFailure failure := by
  match failure with
  | none => exact iff_of_true h.bytesStored_le trivial
  | some .transactionAbort =>
    refine iff_of_true (bytesStored_le_iff.2 ⟨(by decide : 6 + 1 ≤ BUFFER_LENGTH), ?_⟩) trivial
    exact List.forall_mem_append.2 ⟨h.stores, List.forall_mem_singleton.2 (by decide)⟩
  | some (.error e) =>
    have hlen : (e.what ++ ['\n', '\x00']).length = e.what.length + 2 := List.length_append
    rw [tellFailure, bytesStored_le_iff, ShortFailure, List.forall_mem_append,
      List.forall_mem_singleton, hlen, Nat.zero_add]
    constructor
    · intro hle
      exact hle.2.2
    · intro hle
      exact ⟨by omega, h.stores, hle⟩

theorem length_what_tableNotFound (tabName : String) :
    (RMDBError.tableNotFound tabName).what.length = tabName.length + 24 := by
  have hwhat : (RMDBError.tableNotFound tabName).what =
      "Error: ".toList ++ ("Table not found: ".toList ++ tabName.toList) := rfl
  have hlen : "Error: ".toList.length + "Table not found: ".toList.length = 24 := rfl
  rw [hwhat, List.length_append, List.length_append, ← Nat.add_assoc, hlen, String.length_toList,
    Nat.add_comm]

theorem bytesStored_told {str : List Char} (h : str.length < BUFFER_LENGTH) :
    ({ empty.append str with offset := str.length } : ReplyBuffer).bytesStored ≤ BUFFER_LENGTH := by
  have hend : empty.offset + str.length ≤ BUFFER_LENGTH := by
    rw [show empty.offset = 0 from rfl, Nat.zero_add]
    exact Nat.le_of_lt h
  exact bytesStored_le_iff.2 ⟨h, List.forall_mem_singleton.2 hend⟩

theorem length_helpInfo : helpInfo.length < BUFFER_LENGTH := by decide +kernel

/-- A reply fits its buffer just when the lines of the indexes and the message of an exception
do. -/
theorem reply_fits_iff (s : SmManager) (req : ClientRequest) (hnum : req.numRec < 10 ^ 14) :
    (clientHandler s req).bytesStored ≤ BUFFER_LENGTH ↔ req.Small s := by
  cases req with
  | help => exact iff_of_true (bytesStored_told length_helpInfo) trivial
  | showTables => exact iff_of_true (s.room_showTables room_empty).bytesStored_le trivial
  | showIndex tabName =>
    simp only [clientHandler, ClientRequest.run, SmManager.showIndex, DbMeta.getTable,
      ClientRequest.Small]
    cases SortedMap.find TabEntry.name tabName s.db.tabs with
    | some tab => exact bytesStored_lines (SmManager.indexLine tabName) tab.indexes BUFFER_LENGTH
    | none =>
      refine (bytesStored_tellFailure room_empty (some (.error (.tableNotFound tabName)))).trans ?_
      rw [ShortFailure, length_what_tableNotFound]
  | descTable tabName =>
    have hspec := s.descTable_spec tabName room_empty
    rw [clientHandler, ClientRequest.run, ClientRequest.Small, DbMeta.isTable]
    cases hfind : SortedMap.find TabEntry.name tabName s.db.tabs with
    | some tab =>
      rw [hfind] at hspec
      obtain ⟨b, hdesc, hroom⟩ := hspec
      rw [hdesc]
      exact iff_of_true hroom.bytesStored_le (.inl rfl)
    | none =>
      rw [hfind] at hspec
      rw [hspec]
      refine (bytesStored_tellFailure room_empty (some (.error (.tableNotFound tabName)))).trans ?_
      rw [ShortFailure, length_what_tableNotFound, Option.isSome_none,
        or_iff_right Bool.false_ne_true]
  | select captions rows thrown =>
    have hspec := QlManager.selectFrom_spec captions thrown room_empty hnum
    rw [clientHandler, ClientRequest.run]
    cases hselect : QlManager.selectFrom captions rows thrown empty with
    | ok b =>
      rw [hselect] at hspec
      obtain ⟨rfl, hle⟩ := hspec
      exact iff_of_true hle trivial
    | error e =>
      rw [hselect] at hspec
      obtain ⟨rfl, hroom⟩ := hspec
      exact bytesStored_tellFailure hroom _
  | ddl call strerror =>
    rw [clientHandler, ClientRequest.run, ClientRequest.Small]
    cases hrun : call.run s with
    | ok s' =>
      refine iff_of_true room_empty.bytesStored_le ?_
      intro e s'' heq
      cases heq
    | error e =>
      refine (bytesStored_tellFailure room_empty (e.1.failure strerror)).trans ?_
      constructor
      · intro hshort e' s' heq
        rw [Except.error.inj heq] at hshort
        exact hshort
      · intro h
        exact h e.1 e.2 rfl
  | other thrown =>
    cases thrown with
    | none => exact iff_of_true room_empty.bytesStored_le trivial
    | some failure => exact bytesStored_tellFailure room_empty _

/-- An open database without tables. -/
def emptyDatabase : SmManager where
  db := ⟨"db", []⟩
  fhs _ := none
  ihs _ := none
  disk := ⟨∅, fun _ => none, fun _ => none⟩
  metaText := []

theorem reply_fits_two_rows :
    (ClientRequest.select ["id".toList] [["1".toList], ["2".toList]] none).numRec < 10 ^ 14 ∧
      (clientHandler emptyDatabase (.select ["id".toList] [["1".toList], ["2".toList]]
        none)).bytesStored ≤ BUFFER_LENGTH :=
  ⟨by decide, (reply_fits_iff emptyDatabase _ (by decide)).2 trivial⟩

/-- A name of `n` letters. -/
def nameOf (n : ℕ) : String := String.ofList (List.replicate n 'a')

theorem length_nameOf (n : ℕ) : (nameOf n).length = n := by
  rw [nameOf, String.length_ofList, List.length_replicate]

/-- With the longest name in a `SHOW INDEX FROM name;` of `BUFFER_LENGTH` bytes, the message that
there is no such table is longer than the buffer. -/
theorem not_reply_fits : ("show index from ".toList ++ ((nameOf 8175).toList ++ [';'])).length ≤
    BUFFER_LENGTH ∧
    ¬ (clientHandler emptyDatabase (.showIndex (nameOf 8175))).bytesStored ≤ BUFFER_LENGTH := by
  have hlen := length_nameOf 8175
  generalize nameOf 8175 = name at hlen ⊢
  constructor
  · have hshow : "show index from ".toList.length = 16 := rfl
    rw [List.length_append, List.length_append, hshow, String.length_toList, hlen]
    decide
  · intro hle
    have hreply : clientHandler emptyDatabase (.showIndex name) =
        tellFailure empty (some (.error (.tableNotFound name))) := rfl
    rw [hreply, bytesStored_tellFailure room_empty, ShortFailure, length_what_tableNotFound,
      hlen] at hle
    revert hle
    decide

end Rmdb
