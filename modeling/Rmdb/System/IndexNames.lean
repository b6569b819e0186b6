import Rmdb.System.Ddl

/-!
# The names of index files

`get_index_name` (`index/ix_manager.h`) joins the name of a table and the names of the columns of an
index by underscores.  Identifiers hold underscores as well (`identifier` in `parser/lex.l`), so the
name of the file only tells the words between the underscores, not which of them make a column.
`create_index` of the system manager finds no index on these columns then, and fails at the file,
which is there already.
-/

namespace Rmdb

/-- `IxManager::get_index_name` on the names of the columns. -/
def getIndexNameOf (filename : String) (indexCols : List String) : String :=
  indexCols.foldl (fun name col => name ++ "_" ++ col) filename ++ ".idx"

/-- The overload on columns uses their names only. -/
theorem getIndexName_eq (filename : String) (indexCols : List ColMeta) :
    getIndexName filename indexCols = getIndexNameOf filename (indexCols.map ColMeta.name) := by
  rw [getIndexName, getIndexNameOf, List.foldl_map]

theorem indexName_eq (filename : String) (cols : List ColEntry) :
    indexName filename cols = getIndexNameOf filename (cols.map ColEntry.name) := by
  rw [indexName, getIndexName_eq, List.map_map]
  rfl

/-- The words between the underscores of the names that an index is made of. -/
def nameWords (filename : String) (indexCols : List String) : List (List Char) :=
  (filename :: indexCols).flatMap fun name => name.toList.splitOn '_'

/-! ## What a name tells -/

section
variable {filename filename' : String} {indexCols indexCols' : List String}

/-- The words of the joined name are those of its parts. -/
theorem splitOn_foldl (filename : String) (indexCols : List String) :
    (indexCols.foldl (fun name col => name ++ "_" ++ col) filename).toList.splitOn '_' =
      nameWords filename indexCols := by
  induction indexCols generalizing filename with
  | nil => simp [nameWords]
  | cons col indexCols ih =>
    have hjoin : (filename ++ "_" ++ col).toList = filename.toList ++ '_' :: col.toList := by simp
    have hsplit := List.splitOn_append_cons_self (a := '_') filename.toList col.toList
    rw [List.foldl_cons, ih, nameWords, nameWords, List.flatMap_cons, hjoin, hsplit,
      List.flatMap_cons, List.flatMap_cons, List.append_assoc]

theorem append_idx_injective {a b : String} (h : a ++ ".idx" = b ++ ".idx") : a = b := by
  have h : a.toList ++ ".idx".toList = b.toList ++ ".idx".toList := by
    rw [← String.toList_append, h, String.toList_append]
  exact String.toList_inj.mp (List.append_cancel_right h)

/-- Two indexes have one name if and only if their names are made of the same words. -/
theorem getIndexNameOf_eq_iff :
    getIndexNameOf filename indexCols = getIndexNameOf filename' indexCols' ↔
      nameWords filename indexCols = nameWords filename' indexCols' := by
  rw [← splitOn_foldl, ← splitOn_foldl]
  constructor
  · intro h
    rw [append_idx_injective h]
  · intro h
    have hchars := congrArg (List.intercalate ['_']) h
    rw [List.intercalate_splitOn, List.intercalate_splitOn] at hchars
    rw [getIndexNameOf, getIndexNameOf, String.toList_inj.mp hchars]

/-- The names of two different indexes differ if and only if they are not made of the same words. -/
theorem index_names_differ_iff (filename filename' : String) (indexCols indexCols' : List String) :
    ((filename, indexCols) ≠ (filename', indexCols') →
        getIndexNameOf filename indexCols ≠ getIndexNameOf filename' indexCols') ↔
      (filename, indexCols) = (filename', indexCols') ∨
        nameWords filename indexCols ≠ nameWords filename' indexCols' := by
  rw [ne_eq, ne_eq, getIndexNameOf_eq_iff, ← or_iff_not_imp_left]

/-- An index on the column `c` of `a_b`, and one on the columns `b` and `c` of `a`. -/
theorem not_index_names_differ :
    ¬ ∀ (filename filename' : String) (indexCols indexCols' : List String),
      isIdentifier filename = true → isIdentifier filename' = true →
      indexCols.all isIdentifier = true → indexCols'.all isIdentifier = true →
      (filename, indexCols) ≠ (filename', indexCols') →
        getIndexNameOf filename indexCols ≠ getIndexNameOf filename' indexCols' := by
  intro h
  exact h "a_b" "a" ["c"] ["b", "c"] (by decide) (by decide) (by decide) (by decide)
    (by decide) (by decide)

/-- Names without underscores can be read off the name of the file. -/
theorem nameWords_of_not_mem (h : '_' ∉ filename.toList)
    (hcols : ∀ col ∈ indexCols, '_' ∉ col.toList) :
    nameWords filename indexCols = (filename :: indexCols).map String.toList := by
  have hword : ∀ name ∈ filename :: indexCols, name.toList.splitOn '_' = [name.toList] := by
    intro name hname
    apply List.splitOn_eq_singleton
    rcases List.mem_cons.mp hname with rfl | hname
    · exact h
    · exact hcols name hname
  rw [nameWords, List.flatMap_congr hword, List.map_eq_flatMap]

/-- Without underscores in the names of tables and columns, no two indexes have one name. -/
theorem getIndexNameOf_injective (h : '_' ∉ filename.toList)
    (hcols : ∀ col ∈ indexCols, '_' ∉ col.toList)
    (h' : '_' ∉ filename'.toList) (hcols' : ∀ col ∈ indexCols', '_' ∉ col.toList)
    (hname : getIndexNameOf filename indexCols = getIndexNameOf filename' indexCols') :
    filename = filename' ∧ indexCols = indexCols' := by
  have hwords := getIndexNameOf_eq_iff.mp hname
  rw [nameWords_of_not_mem h hcols, nameWords_of_not_mem h' hcols'] at hwords
  exact List.cons.inj (List.map_injective_iff.mpr (fun _ _ => String.toList_inj.mp) hwords)

end

/-! ## What a name that is taken does to `create_index` -/

section
variable {s : SmManager} {tab tab' : TabEntry} {index : IndexEntry} {cols : List ColEntry}
  {colNames : List String}

theorem SmInv.mem_files (h : SmInv s) (htab : tab ∈ s.db.tabs) (hindex : index ∈ tab.indexes) :
    indexName tab.name index.cols ∈ s.disk.files := by
  obtain ⟨fd, hfd⟩ := Option.isSome_iff_exists.mp ((h.ihs _).mpr ⟨tab, htab, index, hindex, rfl⟩)
  exact h.disk.exist _ fd (h.opened _ fd (.inr hfd))

/-- An index whose name is made of the words of the name of another one is refused as a file that
exists. -/
theorem SmInv.createIndex_refused (h : SmInv s) (hget : s.db.getTable tab.name = .ok tab)
    (hnew : tab.isIndex colNames = false) (hcols : colNames.mapM tab.getCol = .ok cols)
    (htab' : tab' ∈ s.db.tabs)
    (hindex : index ∈ tab'.indexes)
    (hwords : nameWords tab.name colNames = nameWords tab'.name index.colNames)
    (rows : List ScannedRow) (os : OsAnswer) :
    s.createIndex tab.name colNames rows os = .error
    (.fileExists (getIndexNameOf tab.name colNames), s) := by
  have hnames : cols.map ColEntry.name = colNames := (TabEntry.mapM_getCol_ok hcols).1
  have hpath : indexName tab.name cols = getIndexNameOf tab.name colNames := by
    rw [indexName_eq, hnames]
  have hpath' : indexName tab'.name index.cols = getIndexNameOf tab.name colNames := by
    rw [indexName_eq]
    exact (getIndexNameOf_eq_iff.mpr hwords).symm
  have hfile := h.mem_files htab' hindex
  rw [hpath'] at hfile
  have hcreate : s.disk.createIndexFile tab.name cols os =
      .error (.fileExists (getIndexNameOf tab.name colNames), s.disk) := by
    simp [Directory.createIndexFile, Directory.createFile, hpath, hfile, bind, Except.bind,
      throw, throwThe,
      MonadExceptOf.throw]
  simp [SmManager.createIndex, SmManager.pureCall, SmManager.diskCall, hget, hnew, hcols, hcreate,
    Except.mapError, bind, Except.bind]

end

end Rmdb
