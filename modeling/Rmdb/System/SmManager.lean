import Mathlib.Data.Finset.Basic
import Rmdb.Index.BTree
import Rmdb.Lib.Outcome
import Rmdb.System.DbMeta

/-!
# Data definition

`SmManager` (`system/sm_manager.cpp`) with the parts of `DiskManager`, `RmManager` and `IxManager`
that create, open, close and destroy the files of tables and indexes.  A function that throws leaves
the state as it is at that point.

Files and descriptors are the operating system's, which may refuse a call to create, open, close or
remove a file; then `UnixError` is thrown.  The contents of files are read and written without
failure.  A handle of a table or an index is its descriptor.
-/

namespace Rmdb

/-- The exceptions of data definition; `assertion` stands for the end of the process. -/
inductive SmError
  | tableExists (tabName : String)
  | tableNotFound (tabName : String)
  | columnNotFound (colName : String)
  | indexExists (tabName : String) (colNames : List String)
  | indexNotFound (tabName : String) (colNames : List String)
  | invalidRecordSize (recordSize : ℤ)
  | invalidColLength (colLen : ℤ)
  | fileExists (path : String)
  | fileNotFound (path : String)
  | fileNotClosed (path : String)
  | fileNotOpen (fd : ℤ)
  | unixError
  | outOfRange
  | exec (e : ExecError)
  | assertion
deriving DecidableEq, Repr

/-! ## Files -/

/-- The files of the database directory, and the open ones among them: `path2fd_` and `fd2path_`. -/
structure Directory where
  files : Finset String
  path2fd : String → Option ℤ
  fd2path : ℤ → Option String

/-- What the operating system answers in a call: whether it creates the file, the descriptors for
the file being opened a first and a second time, and whether it opens the file these times, closes a
descriptor, and removes a file. -/
structure OsAnswer where
  creates : Bool
  fd : ℤ
  fd' : ℤ
  opens : Bool := true
  opens' : Bool := true
  closes : ℤ → Bool := fun _ => true
  unlinks : String → Bool := fun _ => true

/-- The system refuses to open, close and remove nothing. -/
structure OsAnswer.Grants (os : OsAnswer) : Prop where
  opens : os.opens = true
  opens' : os.opens' = true
  closes : ∀ fd, os.closes fd = true
  unlinks : ∀ path, os.unlinks path = true

/-- Answers that grant everything, with two descriptors. -/
def OsAnswer.grant (fd fd' : ℤ) : OsAnswer := { creates := true, fd := fd, fd' := fd' }

theorem OsAnswer.grants_grant (fd fd' : ℤ) : (OsAnswer.grant fd fd').Grants :=
  ⟨rfl, rfl, fun _ => rfl, fun _ => rfl⟩

namespace Directory

variable (d : Directory)

/-- `DiskManager::create_file`. -/
def createFile (path : String) (os : OsAnswer) : Except (SmError × Directory) Directory :=
  if path ∈ d.files then throw (.fileExists path, d)
  else if os.creates then return { d with files := insert path d.files }
  else throw (.unixError, d)

/-- `DiskManager::destroy_file`. -/
def destroyFile (path : String) (os : OsAnswer) : Except (SmError × Directory) Directory :=
  if (d.path2fd path).isSome then throw (.fileNotClosed path, d)
  else if path ∈ d.files then
    if os.unlinks path then return { d with files := d.files.erase path }
    else throw (.unixError, d)
  else throw (.fileNotFound path, d)

/-- `DiskManager::open_file`. -/
def openFile (path : String) (fd : ℤ) (opens : Bool) :
    Except (SmError × Directory) (ℤ × Directory) :=
  match d.path2fd path with
  | some fd => return (fd, d)
  | none =>
    if path ∈ d.files then
      if opens then
        return (fd, { d with
          path2fd := Function.update d.path2fd path (some fd)
          fd2path := Function.update d.fd2path fd (some path) })
      else throw (.unixError, d)
    else throw (.fileNotFound path, d)

/-- `DiskManager::close_file`. -/
def closeFile (fd : ℤ) (os : OsAnswer) : Except (SmError × Directory) Directory :=
  match d.fd2path fd with
  | none => throw (.fileNotOpen fd, d)
  | some path =>
    if os.closes fd then
      return { d with
        path2fd := Function.update d.path2fd path none
        fd2path := Function.update d.fd2path fd none }
    else throw (.unixError, d)

/-- `RmManager::create_file`. -/
def createTableFile (filename : String) (recordSize : ℤ) (os : OsAnswer) :
    Except (SmError × Directory) Directory := do
  if recordSize < 1 ∨ recordSize > RM_MAX_RECORD_SIZE then throw (.invalidRecordSize recordSize, d)
  let d ← d.createFile filename os
  let (fd, d) ← d.openFile filename os.fd os.opens
  d.closeFile fd os

end Directory

/-- `IX_MAX_COL_LEN`. -/
def IX_MAX_COL_LEN : ℤ := 512

/-- The key length of an index: `col_tot_len`. -/
def colTotLen (cols : List ColEntry) : ℤ := cols.foldl (fun n col => intAdd n col.len) 0

/-- The number of pairs of a page of an index; `sizeof(IxPageHdr)` is 24 and `sizeof(Rid)` 8. -/
def btreeOrderOf (colTotLen : ℤ) : ℤ := (PAGE_SIZE - 24) / (colTotLen + 8) - 1

def ColEntry.colMeta (col : ColEntry) : ColMeta where
  tabName := col.tabName
  name := col.name
  type := col.type
  len := col.len.toNat
  offset := col.offset.toNat

/-- `IxManager::get_index_name`. -/
def indexName (filename : String) (cols : List ColEntry) : String :=
  getIndexName filename (cols.map ColEntry.colMeta)

/-- `IxManager::create_index`. -/
def Directory.createIndexFile (d : Directory) (filename : String) (cols : List ColEntry)
    (os : OsAnswer) : Except (SmError × Directory) Directory := do
  let ixName := indexName filename cols
  let d ← d.createFile ixName os
  let (fd, d) ← d.openFile ixName os.fd os.opens
  if colTotLen cols > IX_MAX_COL_LEN then throw (.invalidColLength (colTotLen cols), d)
  if btreeOrderOf (colTotLen cols) ≤ 2 then throw (.assertion, d)
  d.closeFile fd os

/-! ## The catalog -/

/-- The comparison of `is_index` and `get_index_meta`. -/
def IndexEntry.isOn (index : IndexEntry) (colNames : List String) : Bool :=
  decide (index.colNum = colNames.length) &&
    decide ((index.cols.take index.colNum).map ColEntry.name = colNames)

namespace TabEntry

variable (tab : TabEntry)

def isIndex (colNames : List String) : Bool := tab.indexes.any (·.isOn colNames)

def getIndexMeta (colNames : List String) : Except SmError IndexEntry :=
  match tab.indexes.find? (·.isOn colNames) with
  | some index => return index
  | none => throw (.indexNotFound tab.name colNames)

def getCol (colName : String) : Except SmError ColEntry :=
  match tab.cols.find? (·.name = colName) with
  | some col => return col
  | none => throw (.columnNotFound colName)

/-- The flag of the first column with this name. -/
def setFlag (colName : String) (index : Bool) : TabEntry :=
  { tab with
    cols := tab.cols.modify (tab.cols.findIdx (·.name = colName)) ({ · with index := index }) }

/-- Some index contains the column: `still_indexed`. -/
def stillIndexed (colName : String) : Bool :=
  tab.indexes.any fun index => index.cols.any (·.name = colName)

end TabEntry

namespace DbMeta

variable (db : DbMeta)

def isTable (tabName : String) : Bool := (SortedMap.find TabEntry.name tabName db.tabs).isSome

def getTable (tabName : String) : Except SmError TabEntry :=
  match SortedMap.find TabEntry.name tabName db.tabs with
  | some tab => return tab
  | none => throw (.tableNotFound tabName)

def setTable (tab : TabEntry) : DbMeta :=
  { db with tabs := SortedMap.put TabEntry.name tab db.tabs }

def eraseTable (tabName : String) : DbMeta :=
  { db with tabs := SortedMap.erase TabEntry.name tabName db.tabs }

end DbMeta

/-! ## The manager -/

/-- The catalog, the handles of tables and indexes, the files, and the text of `db.meta`. -/
structure SmManager where
  db : DbMeta
  fhs : String → Option ℤ
  ihs : String → Option ℤ
  disk : Directory
  metaText : List Char

/-- `ColDef`. -/
structure ColDef where
  name : String
  type : ColType
  len : ℤ
deriving DecidableEq, Repr

/-- `emplace`: an entry that is there stays. -/
def emplace (m : String → Option ℤ) (k : String) (fd : ℤ) : String → Option ℤ :=
  if (m k).isSome then m else Function.update m k (some fd)

/-- The columns of a table one behind the other. -/
def layOut (tabName : String) : ℤ → List ColDef → List ColEntry
  | _, [] => []
  | offset, c :: cs =>
    ⟨tabName, c.name, c.type, c.len, offset, false⟩ :: layOut tabName (intAdd offset c.len) cs

/-- The offset behind the last column: `record_size`. -/
def recordSizeOf (colDefs : List ColDef) : ℤ :=
  colDefs.foldl (fun offset c => intAdd offset c.len) 0

/-- A record of the table that `create_index` reads, or the exception of `get_record`. -/
abbrev ScannedRow := Rid × Except ExecError Bytes

namespace SmManager

variable (s : SmManager)

/-- A call that does not change the state. -/
def pureCall {α : Type} (x : Except SmError α) : Except (SmError × SmManager) α :=
  x.mapError fun e => (e, s)

/-- A call that changes the files only. -/
def diskCall {α : Type} (x : Except (SmError × Directory) α) : Except (SmError × SmManager) α :=
  x.mapError fun e => (e.1, { s with disk := e.2 })

def flushMeta : SmManager := { s with metaText := s.db.chars }

def createTable (tabName : String) (colDefs : List ColDef) (os : OsAnswer) :
    Except (SmError × SmManager) SmManager := do
  if s.db.isTable tabName then throw (.tableExists tabName, s)
  let recordSize := recordSizeOf colDefs
  let d ← s.diskCall (s.disk.createTableFile tabName recordSize os)
  let s := { s with disk := d, db := s.db.setTable ⟨tabName, layOut tabName 0 colDefs, []⟩ }
  let (fd, d) ← s.diskCall (s.disk.openFile tabName os.fd' os.opens')
  return { s with disk := d, fhs := emplace s.fhs tabName fd }.flushMeta

/-- `close_index` and `destroy_index`. -/
def discardIndex (ixName : String) (fd : ℤ) (os : OsAnswer) :
    Except (SmError × SmManager) SmManager := do
  let d ← s.diskCall (s.disk.closeFile fd os)
  let s := { s with disk := d }
  let d ← s.diskCall (s.disk.destroyFile ixName os)
  return { s with disk := d }

/-- The scan of `create_index`; the key of a record is compared by `ix_compare`. -/
def backFill (index : IndexEntry) (colNames : List String) (ixName : String) (fd : ℤ)
    (os : OsAnswer) : List ScannedRow → IxIndexHandle Bytes → Except (SmError × SmManager) SmManager
  | [], _ => return s
  | (_, .error e) :: _, _ => throw (.exec e, s)
  | (rid, .ok row) :: rows, ih =>
    let ixMeta : IndexMeta := ⟨index.tabName, index.cols.map ColEntry.colMeta⟩
    letI : Ord Bytes := ⟨ixCompare (indexColMeta ixMeta)⟩
    let key := buildIndexKey ixMeta row
    match ih.getValue key with
    | none => throw (.assertion, s)
    | some (some _) => do
      let s ← s.discardIndex ixName fd os
      throw (.indexExists index.tabName colNames, s)
    | some none =>
      match ih.insertEntry key rid with
      | none => throw (.assertion, s)
      | some (ih, _) => backFill index colNames ixName fd os rows ih

/-- The `catch (...)` around the scan: an exception goes on after the file has been discarded, if it
is there. -/
def catchAll (ixName : String) (fd : ℤ) (os : OsAnswer)
    (x : Except (SmError × SmManager) SmManager) : Except (SmError × SmManager) SmManager :=
  match x with
  | .ok s => return s
  | .error (.assertion, s) => throw (.assertion, s)
  | .error (e, s) => do
    if ixName ∈ s.disk.files then
      let s ← s.discardIndex ixName fd os
      throw (e, s)
    throw (e, s)

/-- The assignment to the flag of a column of a table. -/
def setColIndex (tabName colName : String) (index : Bool) :
    Except (SmError × SmManager) SmManager := do
  let tab ← s.pureCall (s.db.getTable tabName)
  let _ ← s.pureCall (tab.getCol colName)
  return { s with db := s.db.setTable (tab.setFlag colName index) }

/-- The last steps of `create_index`: the index is entered in `ihs_`, in the catalog and in
`db.meta`. -/
def registerIndex (tab : TabEntry) (index : IndexEntry) (ixName : String) (fd : ℤ) :
    Except (SmError × SmManager) SmManager := do
  let s := { s with
    ihs := emplace s.ihs ixName fd
    db := s.db.setTable { tab with indexes := tab.indexes ++ [index] } }
  let s ← index.cols.foldlM (fun s col => s.setColIndex tab.name col.name true) s
  return s.flushMeta

def createIndex (tabName : String) (colNames : List String) (rows : List ScannedRow)
    (os : OsAnswer) : Except (SmError × SmManager) SmManager := do
  let tab ← s.pureCall (s.db.getTable tabName)
  if tab.isIndex colNames then throw (.indexExists tabName colNames, s)
  let cols ← s.pureCall (colNames.mapM tab.getCol)
  let index : IndexEntry := ⟨tabName, colTotLen cols, colNames.length, cols⟩
  let d ← s.diskCall (s.disk.createIndexFile tabName cols os)
  let s := { s with disk := d }
  let ixName := indexName tabName cols
  let (fd, d) ← s.diskCall (s.disk.openFile ixName os.fd' os.opens')
  let s := { s with disk := d }
  if s.fhs tabName = none then throw (.outOfRange, s)
  let ih := Rmdb.createIndex Bytes (btreeOrderOf index.colTotLen).toNat
  let s ← catchAll ixName fd os (s.backFill index colNames ixName fd os rows ih)
  s.registerIndex tab index ixName fd

/-- `drop_index` by the columns of the index. -/
def dropIndexCols (tabName : String) (cols : List ColEntry) (os : OsAnswer) :
    Except (SmError × SmManager) SmManager := do
  let tab ← s.pureCall (s.db.getTable tabName)
  let colNames := cols.map ColEntry.name
  let _ ← s.pureCall (tab.getIndexMeta colNames)
  let ixName := indexName tabName cols
  let s ← match s.ihs ixName with
    | some fd => do
      let d ← s.diskCall (s.disk.closeFile fd os)
      pure { s with disk := d, ihs := Function.update s.ihs ixName none }
    | none => pure s
  let d ← s.diskCall (s.disk.destroyFile ixName os)
  let tab := { tab with indexes := tab.indexes.eraseP (·.isOn colNames) }
  let s := { s with disk := d, db := s.db.setTable tab }
  let s ← cols.foldlM (fun s col => s.setColIndex tabName col.name (tab.stillIndexed col.name)) s
  return s.flushMeta

/-- `drop_index` by the names of the columns. -/
def dropIndex (tabName : String) (colNames : List String) (os : OsAnswer) :
    Except (SmError × SmManager) SmManager := do
  let tab ← s.pureCall (s.db.getTable tabName)
  let index ← s.pureCall (tab.getIndexMeta colNames)
  s.dropIndexCols tabName index.cols os

def dropTable (tabName : String) (os : OsAnswer) : Except (SmError × SmManager) SmManager := do
  if !s.db.isTable tabName then throw (.tableNotFound tabName, s)
  let tab ← s.pureCall (s.db.getTable tabName)
  let s ← tab.indexes.foldlM (fun s index => s.dropIndexCols tabName index.cols os) s
  let s ← match s.fhs tabName with
    | some fd => do
      let d ← s.diskCall (s.disk.closeFile fd os)
      pure { s with disk := d, fhs := Function.update s.fhs tabName none }
    | none => pure s
  let d ← s.diskCall (s.disk.destroyFile tabName os)
  return { s with disk := d, db := s.db.eraseTable tabName }.flushMeta

end SmManager

/-! ## Opening a database -/

/-- `DB_META_NAME`. -/
def DB_META_NAME : String := "db.meta"

/-- `LOG_FILE_NAME`. -/
def LOG_FILE_NAME : String := "db.log"

/-- `create_db`: the files of a new directory, and the text of its catalog. -/
def createDb (dbName : String) : Finset String × List Char :=
  ({DB_META_NAME, LOG_FILE_NAME}, (⟨dbName, []⟩ : DbMeta).chars)

/-- A table and its indexes are opened; the system lets them be opened, and gives the descriptor
`fds path` to the file `path`. -/
def SmManager.openTable (fds : String → ℤ) (s : SmManager) (tab : TabEntry) :
    Except (SmError × SmManager) SmManager := do
  let (fd, d) ← s.diskCall (s.disk.openFile tab.name (fds tab.name) true)
  let s := { s with disk := d, fhs := emplace s.fhs tab.name fd }
  tab.indexes.foldlM (fun (s : SmManager) index => do
    let ixName := indexName tab.name index.cols
    let (fd, d) ← s.diskCall (s.disk.openFile ixName (fds ixName) true)
    return { s with disk := d, ihs := emplace s.ihs ixName fd }) s

/-- `open_db`, in a new process. -/
def openDb (files : Finset String) (metaText : List Char) (fds : String → ℤ) :
    Except (SmError × SmManager) SmManager := do
  let disk : Directory := ⟨files, fun _ => none, fun _ => none⟩
  match readMeta metaText with
  -- what `>>` makes of any other text is not followed
  | none => throw (.assertion, ⟨⟨"", []⟩, fun _ => none, fun _ => none, disk, metaText⟩)
  | some db =>
    let s ← db.tabs.foldlM (SmManager.openTable fds)
      ⟨db, fun _ => none, fun _ => none, disk, metaText⟩
    let (_, d) ← s.diskCall (s.disk.openFile LOG_FILE_NAME (fds LOG_FILE_NAME) true)
    return { s with disk := d }

end Rmdb
