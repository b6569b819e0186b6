import Mathlib.Data.String.Basic
import Rmdb.Execution.Meta
import Rmdb.Lib.SortedMap
import Rmdb.Lib.Words

/-!
# The catalog and its file

The metadata of a database as `db.meta` holds them (`system/sm_meta.h`): the tables in the order of
their names, with their columns and indexes, and the operators `<<` and `>>` that write and read
them.  What was written is read back as it was when every name is a word.
-/

namespace Rmdb

/-- `ColMeta`, with the flag of `desc_table`.  The parser also accepts `CHAR(-1)`. -/
structure ColEntry where
  tabName : String
  name : String
  type : ColType
  len : ℤ
  offset : ℤ
  index : Bool
deriving DecidableEq, Repr

/-- `IndexMeta`. -/
structure IndexEntry where
  tabName : String
  colTotLen : ℤ
  colNum : ℕ
  cols : List ColEntry
deriving DecidableEq, Repr

/-- `TabMeta`. -/
structure TabEntry where
  name : String
  cols : List ColEntry
  indexes : List IndexEntry
deriving DecidableEq, Repr

/-- `DbMeta`. -/
structure DbMeta where
  name : String
  tabs : List TabEntry
deriving DecidableEq, Repr

/-! ## Writing -/

/-- The number of an enumerator. -/
def ColType.code : ColType → ℕ
  | .int => 0
  | .float => 1
  | .bigint => 2
  | .string => 3
  | .datetime => 4

def ColEntry.chars (col : ColEntry) : List Char :=
  col.tabName.toList ++ ' ' :: (col.name.toList ++ ' ' :: (Nat.toDigits 10 col.type.code ++ ' ' ::
    (intChars col.len ++ ' ' :: (intChars col.offset ++ ' ' :: Nat.toDigits 10 col.index.toNat))))

def IndexEntry.chars (index : IndexEntry) : List Char :=
  index.tabName.toList ++ ' ' ::
    (intChars index.colTotLen ++ ' ' :: (Nat.toDigits 10 index.colNum ++
    index.cols.flatMap fun col => '\n' :: col.chars))

def TabEntry.chars (tab : TabEntry) : List Char :=
  tab.name.toList ++ '\n' :: (Nat.toDigits 10 tab.cols.length ++ '\n' ::
    ((tab.cols.flatMap fun col => col.chars ++ ['\n']) ++
      (Nat.toDigits 10 tab.indexes.length ++ '\n' ::
      tab.indexes.flatMap fun index => index.chars ++ ['\n'])))

def DbMeta.chars (db : DbMeta) : List Char :=
  db.name.toList ++ '\n' :: (Nat.toDigits 10 db.tabs.length ++ '\n' ::
    db.tabs.flatMap fun tab => tab.chars ++ ['\n'])

/-! ## Reading -/

def getColType : StateT (List Char) Option ColType := do
  match ← getNat with
  | 0 => return .int
  | 1 => return .float
  | 2 => return .bigint
  | 3 => return .string
  | 4 => return .datetime
  | _ => failure

def getBool : StateT (List Char) Option Bool := do
  match ← getNat with
  | 0 => return false
  | 1 => return true
  | _ => failure

def getColEntry : StateT (List Char) Option ColEntry := do
  let tabName ← getWord
  let name ← getWord
  let type ← getColType
  let len ← getInt
  let offset ← getInt
  let index ← getBool
  return ⟨tabName, name, type, len, offset, index⟩

def getIndexEntry : StateT (List Char) Option IndexEntry := do
  let tabName ← getWord
  let colTotLen ← getInt
  let colNum ← getNat
  let cols ← getMany getColEntry colNum
  return ⟨tabName, colTotLen, colNum, cols⟩

def getTabEntry : StateT (List Char) Option TabEntry := do
  let name ← getWord
  let n ← getNat
  let cols ← getMany getColEntry n
  let m ← getNat
  let indexes ← getMany getIndexEntry m
  return ⟨name, cols, indexes⟩

/-- A table read later takes the place of one of the same name. -/
def getDbMeta : StateT (List Char) Option DbMeta := do
  let name ← getWord
  let n ← getNat
  let tabs ← getMany getTabEntry n
  return ⟨name, tabs.foldl (fun m tab => SortedMap.put TabEntry.name tab m) []⟩

/-- The catalog that a text holds. -/
def readMeta (text : List Char) : Option DbMeta := (getDbMeta text).map Prod.fst

/-! ## The round trip -/

/-- Names that are read back as one word. -/
structure ColEntry.Writable (col : ColEntry) : Prop where
  tabName : IsWord col.tabName
  name : IsWord col.name

structure IndexEntry.Writable (index : IndexEntry) : Prop where
  tabName : IsWord index.tabName
  colNum : index.colNum = index.cols.length
  cols : ∀ col ∈ index.cols, col.Writable

structure TabEntry.Writable (tab : TabEntry) : Prop where
  name : IsWord tab.name
  cols : ∀ col ∈ tab.cols, col.Writable
  indexes : ∀ index ∈ tab.indexes, index.Writable

theorem finds_colType (type : ColType) : Finds getColType (Nat.toDigits 10 type.code) type := by
  cases type <;> exact (finds_nat _).bind_last (delimited_pure _).finds

theorem finds_bool (b : Bool) : Finds getBool (Nat.toDigits 10 b.toNat) b := by
  cases b <;> exact (finds_nat _).bind_last (delimited_pure _).finds

theorem finds_colEntry {col : ColEntry} (h : col.Writable) : Finds getColEntry col.chars col :=
  (finds_word h.tabName).bind_sep_finds rfl <| (finds_word h.name).bind_sep_finds rfl <|
    (finds_colType col.type).bind_sep_finds rfl <| (finds_int col.len).bind_sep_finds rfl <|
      (finds_int col.offset).bind_sep_finds rfl <|
        (finds_bool col.index).bind_last (delimited_pure col).finds

theorem finds_indexEntry {index : IndexEntry} (h : index.Writable) :
    Finds getIndexEntry index.chars index := by
  refine (finds_word h.tabName).bind_sep_finds rfl <|
    (finds_int index.colTotLen).bind_sep_finds rfl <| (finds_nat index.colNum).bind ?_ ?_
  · cases hcols : index.cols with
    | nil => simp [BlankNext]
    | cons col cols => simp [BlankNext, isBlank]
  · have hmany := finds_many (c := '\n') rfl fun col hcol => finds_colEntry (h.cols col hcol)
    rw [← h.colNum] at hmany
    exact hmany.bind_last (delimited_pure index).finds

theorem delimited_tabEntry {tab : TabEntry} (h : tab.Writable) :
    Delimited getTabEntry tab.chars tab := by
  refine (finds_word h.name).bind_sep rfl <| (finds_nat _).bind_sep rfl <|
    (delimited_many rfl fun col hcol => finds_colEntry (h.cols col hcol)).bind <|
      (finds_nat _).bind_sep rfl ?_
  have hindexes := delimited_many (c := '\n') rfl fun index hindex =>
    finds_indexEntry (h.indexes index hindex)
  exact hindexes.bind_last (delimited_pure tab)

theorem delimited_dbMeta {db : DbMeta} (hname : IsWord db.name)
    (hsorted : SortedMap.Sorted TabEntry.name db.tabs)
    (htabs : ∀ tab ∈ db.tabs, tab.Writable) : Delimited getDbMeta db.chars db := by
  have htabs := delimited_many (c := '\n') rfl fun tab htab =>
    (delimited_tabEntry (htabs tab htab)).finds
  refine (finds_word hname).bind_sep rfl <| (finds_nat _).bind_sep rfl ?_
  refine htabs.bind_last ?_
  rw [SortedMap.foldl_put hsorted]
  exact delimited_pure db

/-- What `<<` writes, `>>` reads back. -/
theorem readMeta_chars {db : DbMeta} (hname : IsWord db.name)
    (hsorted : SortedMap.Sorted TabEntry.name db.tabs)
    (htabs : ∀ tab ∈ db.tabs, tab.Writable) : readMeta db.chars = some db := by
  obtain ⟨bs, -, hrun⟩ := delimited_dbMeta hname hsorted htabs [] [] blanks_nil
  have hrun : getDbMeta db.chars = some (db, bs) := by simpa using hrun
  rw [readMeta, hrun]
  rfl

/-- The names that a column, an index, a table and a database write. -/
def ColEntry.names (col : ColEntry) : List String := [col.tabName, col.name]

def IndexEntry.names (index : IndexEntry) : List String :=
  index.tabName :: index.cols.flatMap ColEntry.names

def TabEntry.names (tab : TabEntry) : List String :=
  tab.name :: (tab.cols.flatMap ColEntry.names ++ tab.indexes.flatMap IndexEntry.names)

def DbMeta.names (db : DbMeta) : List String := db.name :: db.tabs.flatMap TabEntry.names

/-- Every index has as many columns as its `col_num` says. -/
def DbMeta.CountsAgree (db : DbMeta) : Prop :=
  ∀ tab ∈ db.tabs, ∀ index ∈ tab.indexes, index.colNum = index.cols.length

theorem ColEntry.writable_of_names {col : ColEntry} (h : ∀ s ∈ col.names, IsWord s) :
    col.Writable :=
  ⟨h _ List.mem_cons_self, h _ (List.mem_cons_of_mem _ List.mem_cons_self)⟩

theorem IndexEntry.writable_of_names {index : IndexEntry} (h : ∀ s ∈ index.names, IsWord s)
    (hcount : index.colNum = index.cols.length) : index.Writable := by
  refine ⟨h _ List.mem_cons_self, hcount, fun col hcol => ColEntry.writable_of_names fun s hs => ?_⟩
  exact h s (List.mem_cons_of_mem _ (List.mem_flatMap.mpr ⟨col, hcol, hs⟩))

theorem DbMeta.writable_of_names {db : DbMeta} (h : ∀ s ∈ db.names, IsWord s)
    (hcounts : db.CountsAgree) : IsWord db.name ∧ ∀ tab ∈ db.tabs, tab.Writable := by
  refine ⟨h _ List.mem_cons_self, fun tab htab => ?_⟩
  have htab' : ∀ s ∈ tab.names, IsWord s := fun s hs =>
    h s (List.mem_cons_of_mem _ (List.mem_flatMap.mpr ⟨tab, htab, hs⟩))
  refine ⟨htab' _ List.mem_cons_self, fun col hcol => ?_, fun index hindex => ?_⟩
  · refine ColEntry.writable_of_names fun s hs =>
      htab' s (List.mem_cons_of_mem _ (List.mem_append_left _ ?_))
    exact List.mem_flatMap.mpr ⟨col, hcol, hs⟩
  · refine IndexEntry.writable_of_names (fun s hs => ?_) (hcounts tab htab index hindex)
    refine htab' s (List.mem_cons_of_mem _ (List.mem_append_right _ ?_))
    exact List.mem_flatMap.mpr ⟨index, hindex, hs⟩

/-- In front of any text, `>>` reads the catalog that `<<` wrote and takes no word of the text
behind it. -/
theorem catalog_round_trip (db : DbMeta) (hnames : ∀ s ∈ db.names, IsWord s)
    (hsorted : SortedMap.Sorted TabEntry.name db.tabs) (hcounts : db.CountsAgree)
    (rest : List Char) :
    ∃ bs, Blanks bs ∧ getDbMeta (db.chars ++ rest) = some (db, bs ++ rest) := by
  obtain ⟨hname, htabs⟩ := DbMeta.writable_of_names hnames hcounts
  exact delimited_dbMeta hname hsorted htabs [] rest blanks_nil

/-- A table with a column, and an index on it that says it has `colNum` columns. -/
def oneIndex (colNum : ℕ) : DbMeta :=
  ⟨"db",
    [⟨"t", [⟨"t", "a", .int, 4, 0, true⟩], [⟨"t", 4, colNum, [⟨"t", "a", .int, 4, 0, true⟩]⟩]⟩]⟩

theorem isWord_oneIndex (colNum : ℕ) : ∀ s ∈ (oneIndex colNum).names, IsWord s := by
  have hwords : ∀ s ∈ ["db", "t", "t", "a", "t", "t", "a"],
      (s.toList ≠ [] ∧ s.toList.all (fun c => isBlank c == false) = true) := by decide
  intro s hs
  obtain ⟨hne, hall⟩ := hwords s hs
  exact ⟨hne, fun c hc => eq_of_beq (List.all_eq_true.1 hall c hc)⟩

theorem sorted_oneIndex (colNum : ℕ) : SortedMap.Sorted TabEntry.name (oneIndex colNum).tabs :=
  List.pairwise_singleton _ _

theorem catalog_round_trip_oneIndex :
    ∃ bs, Blanks bs ∧ getDbMeta ((oneIndex 1).chars ++ ['x']) = some (oneIndex 1, bs ++ ['x']) := by
  refine catalog_round_trip (oneIndex 1) (isWord_oneIndex 1) (sorted_oneIndex 1) ?_ ['x']
  unfold DbMeta.CountsAgree
  decide +kernel

/-- An index that says it has no columns is read without them. -/
theorem not_catalog_round_trip :
    ¬ ∀ db : DbMeta, (∀ s ∈ db.names, IsWord s) → SortedMap.Sorted TabEntry.name db.tabs →
      ∃ bs, Blanks bs ∧ getDbMeta db.chars = some (db, bs) := by
  intro h
  obtain ⟨bs, -, hread⟩ := h (oneIndex 0) (isWord_oneIndex 0) (sorted_oneIndex 0)
  have hmeta : readMeta (oneIndex 0).chars = some (oneIndex 0) := by
    rw [readMeta, hread]
    rfl
  have hother : readMeta (oneIndex 0).chars ≠ some (oneIndex 0) := by decide +kernel
  exact hother hmeta

end Rmdb
