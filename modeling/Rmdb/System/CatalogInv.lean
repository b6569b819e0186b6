import Rmdb.System.SmManager

/-!
# Tables and files

What holds of a table of the catalog between two calls, and of the table of open files, and how the
parts of the calls of data definition change them.
-/

namespace Rmdb

/-! ## Names -/

/-- `identifier` of the lexer. -/
def isIdentifier (name : String) : Bool :=
  match name.toList with
  | [] => false
  | c :: cs => c.isAlpha && cs.all fun d => d == '_' || d.isAlphanum

theorem isBlank_of_isAlphanum {c : Char} (h : c.isAlphanum = true) : isBlank c = false := by
  by_contra hc
  have hc : isBlank c = true := by simpa using hc
  simp only [isBlank, List.mem_cons, List.not_mem_nil, or_false, decide_eq_true_eq] at hc
  rcases hc with rfl | rfl | rfl | rfl | rfl | rfl <;> exact absurd h (by decide)

/-- The characters of an identifier. -/
theorem mem_of_isIdentifier {name : String} (h : isIdentifier name = true) :
    name.toList ≠ [] ∧ ∀ c ∈ name.toList, c = '_' ∨ c.isAlphanum = true := by
  unfold isIdentifier at h
  split at h
  · cases h
  · next c cs hcs =>
    rw [Bool.and_eq_true, List.all_eq_true] at h
    refine ⟨by simp [hcs], fun d hd => ?_⟩
    rw [hcs] at hd
    rcases List.mem_cons.mp hd with rfl | hd
    · exact .inr (by simp [Char.isAlphanum, h.1])
    · simpa using h.2 d hd

theorem isWord_of_isIdentifier {name : String} (h : isIdentifier name = true) : IsWord name := by
  obtain ⟨hne, hchars⟩ := mem_of_isIdentifier h
  refine ⟨hne, fun c hc => ?_⟩
  rcases hchars c hc with rfl | hc
  · rfl
  · exact isBlank_of_isAlphanum hc

/-- The file of an index does not have the name of a table. -/
theorem indexName_ne {filename name : String} {cols : List ColEntry}
    (h : isIdentifier name = true) : indexName filename cols ≠ name := by
  rintro rfl
  have hdot : '.' ∈ (indexName filename cols).toList := by simp [indexName, getIndexName]
  rcases (mem_of_isIdentifier h).2 _ hdot with hdot | hdot
  · cases hdot
  · cases hdot

/-! ## Tables -/

/-- The names of the columns of an index. -/
def IndexEntry.colNames (index : IndexEntry) : List String := index.cols.map ColEntry.name

/-- `create_index` takes keys of these columns: they are not too long, and a page holds enough of
them. -/
def KeysFit (cols : List ColEntry) : Prop :=
  colTotLen cols ≤ IX_MAX_COL_LEN ∧ 2 < btreeOrderOf (colTotLen cols)

/-- A table between two calls. -/
structure TabEntry.Ok (tab : TabEntry) : Prop where
  name : isIdentifier tab.name = true
  cols : ∀ col ∈ tab.cols, col.tabName = tab.name ∧ isIdentifier col.name = true
  nodup : (tab.cols.map ColEntry.name).Nodup
  indexes : ∀ index ∈ tab.indexes, index.tabName = tab.name ∧ index.colNum = index.cols.length ∧
    ∀ col ∈ index.cols, col.tabName = tab.name ∧ col.name ∈ tab.cols.map ColEntry.name
  unique : (tab.indexes.map IndexEntry.colNames).Nodup
  flags : ∀ col ∈ tab.cols, col.index = tab.stillIndexed col.name
  sized : ∀ index ∈ tab.indexes, KeysFit index.cols

/-- Only one element of the list meets the predicate. -/
theorem eraseP_eq_erase {α : Type} [DecidableEq α] {p : α → Bool} {a : α} {l : List α}
    (h : ∀ x ∈ l, p x = true ↔ x = a) : l.eraseP p = l.erase a := by
  induction l with
  | nil => rfl
  | cons x l ih =>
    obtain ⟨hx, hl⟩ := List.forall_mem_cons.mp h
    by_cases hxa : x = a
    · rw [List.eraseP_cons_of_pos (hx.mpr hxa), hxa, List.erase_cons_head]
    · rw [List.eraseP_cons_of_neg fun hp => hxa (hx.mp hp),
        List.erase_cons_tail (by simpa using hxa), ih hl]

namespace TabEntry

variable {tab : TabEntry} {index : IndexEntry} {col : ColEntry} {cols : List ColEntry}
  {name : String}
  {names : List String} {b : String → Bool}

/-- The flags of some columns set. -/
def withFlags (tab : TabEntry) (names : List String) (b : String → Bool) : TabEntry :=
  { tab with
    cols := tab.cols.map fun col =>
      if col.name ∈ names then { col with index := b col.name } else col }

/-- A table without the entry of an index, its flags as before. -/
def withoutIndex (tab : TabEntry) (index : IndexEntry) : TabEntry :=
  { tab with indexes := tab.indexes.eraseP (·.isOn index.colNames) }

/-- A table whose index has been dropped. -/
def dropIndex (tab : TabEntry) (index : IndexEntry) : TabEntry :=
  (tab.withoutIndex index).withFlags index.colNames (tab.withoutIndex index).stillIndexed

/-- A table with one more index. -/
def addIndex (tab : TabEntry) (index : IndexEntry) : TabEntry :=
  ({ tab with indexes := tab.indexes ++ [index] } : TabEntry).withFlags index.colNames fun _ => true

@[simp] theorem withFlags_name : (tab.withFlags names b).name = tab.name := rfl

@[simp] theorem withFlags_indexes : (tab.withFlags names b).indexes = tab.indexes := rfl

@[simp] theorem withFlags_colNames :
    (tab.withFlags names b).cols.map ColEntry.name = tab.cols.map ColEntry.name := by
  rw [withFlags, List.map_map]
  refine List.map_congr_left fun col _ => ?_
  rw [Function.comp_apply]
  split <;> rfl

theorem withFlags_nil : tab.withFlags [] b = tab := by simp [withFlags]

theorem withFlags_cons : (tab.withFlags [name] b).withFlags names b = tab.withFlags
    (name :: names) b := by
  simp only [withFlags, List.map_map, TabEntry.mk.injEq, true_and, and_true]
  refine List.map_congr_left fun col _ => ?_
  by_cases hname : col.name = name
  · simp [hname]
  · simp [hname]

/-- With distinct names the first column of a name is the only one. -/
theorem setFlag_eq (h : (tab.cols.map ColEntry.name).Nodup) :
    tab.setFlag name (b name) = tab.withFlags [name] b := by
  simp only [setFlag, withFlags, TabEntry.mk.injEq, true_and, and_true, List.mem_singleton]
  generalize tab.cols = cols at h ⊢
  induction cols with
  | nil => rfl
  | cons col cols ih =>
    obtain ⟨hcol, hcols⟩ := List.nodup_cons.mp h
    rw [List.findIdx_cons, List.map_cons]
    by_cases hname : col.name = name
    · have hrest : cols.map (fun c => if c.name = name then { c with index := b c.name } else c) =
          cols := by
        refine (List.map_congr_left fun c hc => if_neg ?_).trans (List.map_id cols)
        rintro rfl
        exact hcol (hname ▸ List.mem_map_of_mem hc)
      simp [hname, hrest]
    · simp [hname, ih hcols]

theorem mem_withFlags (h : col ∈ (tab.withFlags names b).cols) :
    ∃ col' ∈ tab.cols, col.tabName = col'.tabName ∧
    col.name = col'.name ∧ col.index = if col'.name ∈ names then b col'.name else col'.index := by
  obtain ⟨col', hcol', rfl⟩ := List.mem_map.mp h
  refine ⟨col', hcol', ?_⟩
  split <;> exact ⟨rfl, rfl, rfl⟩

theorem isOn_iff (h : index.colNum = index.cols.length) :
    index.isOn names = true ↔ index.colNames = names := by
  simp only [IndexEntry.isOn, IndexEntry.colNames, h, List.take_length, Bool.and_eq_true,
    decide_eq_true_eq]
  constructor
  · exact And.right
  · rintro rfl
    simp

theorem stillIndexed_iff : tab.stillIndexed name = true ↔ ∃ index ∈ tab.indexes,
    name ∈ index.colNames := by
  simp [stillIndexed, IndexEntry.colNames]

namespace Ok

theorem writable (h : tab.Ok) : tab.Writable where
  name := isWord_of_isIdentifier h.name
  cols col hcol := by
    obtain ⟨htab, hname⟩ := h.cols col hcol
    exact ⟨htab ▸ isWord_of_isIdentifier h.name, isWord_of_isIdentifier hname⟩
  indexes index hindex := by
    obtain ⟨htab, hnum, hcols⟩ := h.indexes index hindex
    refine ⟨htab ▸ isWord_of_isIdentifier h.name, hnum, fun col hcol => ?_⟩
    obtain ⟨htab, hname⟩ := hcols col hcol
    obtain ⟨col', hcol', hname⟩ := List.mem_map.mp hname
    exact ⟨htab ▸ isWord_of_isIdentifier h.name,
      hname ▸ isWord_of_isIdentifier (h.cols col' hcol').2⟩

/-- The indexes of a table change, and with them the flags of the columns in `names`. -/
theorem withIndexes {indexes : List IndexEntry} (h : tab.Ok)
    (hindexes : ∀ index ∈ indexes, index.tabName = tab.name ∧ index.colNum = index.cols.length ∧
      ∀ col ∈ index.cols, col.tabName = tab.name ∧ col.name ∈ tab.cols.map ColEntry.name)
    (hunique : (indexes.map IndexEntry.colNames).Nodup)
    (hflags : ∀ col ∈ tab.cols,
      (if col.name ∈ names then b col.name else tab.stillIndexed col.name) =
      ({ tab with indexes := indexes } : TabEntry).stillIndexed col.name)
    (hsized : ∀ index ∈ indexes, KeysFit index.cols) :
    (({ tab with indexes := indexes } : TabEntry).withFlags names b).Ok where
  name := h.name
  cols col hcol := by
    obtain ⟨col', hcol', htab, hname, -⟩ := mem_withFlags hcol
    rw [htab, hname]
    exact h.cols col' hcol'
  nodup := by
    rw [withFlags_colNames]
    exact h.nodup
  indexes index hindex := by
    rw [withFlags_colNames]
    exact hindexes index hindex
  unique := hunique
  flags col hcol := by
    obtain ⟨col', hcol', -, hname, hindex⟩ := mem_withFlags hcol
    rw [hindex, hname, h.flags col' hcol']
    exact hflags col' hcol'
  sized := hsized

end Ok

theorem getCol_ok (h : tab.getCol name = .ok col) : col ∈ tab.cols ∧ col.name = name := by
  unfold getCol at h
  split at h
  · next c hc =>
    cases h
    exact ⟨List.mem_of_find?_eq_some hc, by simpa using List.find?_some hc⟩
  · cases h

theorem exists_getCol (h : name ∈ tab.cols.map ColEntry.name) :
    ∃ col, tab.getCol name = .ok col := by
  obtain ⟨col, hcol, rfl⟩ := List.mem_map.mp h
  obtain ⟨col', hcol'⟩ : ∃ col', tab.cols.find? (·.name = col.name) = some col' := by
    rw [← Option.isSome_iff_exists, List.find?_isSome]
    exact ⟨col, hcol, by simp⟩
  exact ⟨col', by simp [getCol, hcol', pure, Except.pure]⟩

/-- The columns of the names of a new index. -/
theorem mapM_getCol_ok (h : names.mapM tab.getCol = .ok cols) :
    cols.map ColEntry.name = names ∧ ∀ col ∈ cols, col ∈ tab.cols := by
  refine ⟨?_, fun col hcol => ?_⟩
  · induction names generalizing cols with
    | nil =>
      cases h
      rfl
    | cons name names ih =>
      rw [List.mapM_cons] at h
      obtain ⟨col, hcol, h⟩ := exists_of_bind_ok h
      obtain ⟨rest, hrest, h⟩ := exists_of_bind_ok h
      cases h
      rw [List.map_cons, (getCol_ok hcol).2, ih hrest]
  · obtain ⟨name, -, hname⟩ := exists_of_mem_mapM h col hcol
    exact (getCol_ok hname).1

theorem getIndexMeta_error {e : SmError} (h : tab.getIndexMeta names = .error e) :
    e = .indexNotFound tab.name names := by
  unfold getIndexMeta at h
  split at h <;> cases h
  rfl

namespace Ok

theorem isIndex_iff (h : tab.Ok) :
    tab.isIndex names = true ↔ names ∈ tab.indexes.map IndexEntry.colNames := by
  rw [isIndex, List.any_eq_true, List.mem_map]
  exact exists_congr fun index => and_congr_right fun hindex =>
    isOn_iff (h.indexes index hindex).2.1

theorem getIndexMeta_ok (h : tab.Ok) (hget : tab.getIndexMeta names = .ok index) :
    index ∈ tab.indexes ∧ index.colNames = names := by
  unfold getIndexMeta at hget
  split at hget
  · next ix hix =>
    cases hget
    have hmem := List.mem_of_find?_eq_some hix
    exact ⟨hmem, (isOn_iff (h.indexes _ hmem).2.1).mp (by simpa using List.find?_some hix)⟩
  · cases hget

theorem exists_getIndexMeta (h : tab.Ok) (hindex : index ∈ tab.indexes) :
    ∃ index', tab.getIndexMeta index.colNames = .ok index' := by
  obtain ⟨ix, hix⟩ : ∃ ix, tab.indexes.find? (·.isOn index.colNames) = some ix := by
    rw [← Option.isSome_iff_exists, List.find?_isSome]
    exact ⟨index, hindex, (isOn_iff (h.indexes index hindex).2.1).mpr rfl⟩
  exact ⟨ix, by simp [getIndexMeta, hix, pure, Except.pure]⟩

/-- The indexes that stay when one is dropped. -/
theorem mem_withoutIndex (h : tab.Ok) (hindex : index ∈ tab.indexes) {ix : IndexEntry} :
    ix ∈ (tab.withoutIndex index).indexes ↔ ix ∈ tab.indexes ∧ ix ≠ index := by
  have hon : ∀ ix ∈ tab.indexes, ix.isOn index.colNames = true ↔ ix = index := fun ix hix => by
    rw [isOn_iff (h.indexes ix hix).2.1]
    exact ⟨fun heq => List.inj_on_of_nodup_map h.unique hix hindex heq, fun heq => heq ▸ rfl⟩
  have hnodup : tab.indexes.Nodup := h.unique.of_map
  rw [withoutIndex, eraseP_eq_erase hon, hnodup.mem_erase_iff, and_comm]

theorem stillIndexed_append (tab : TabEntry) (index : IndexEntry) (name : String) :
    ({ tab with indexes := tab.indexes ++ [index] } : TabEntry).stillIndexed name =
      (tab.stillIndexed name || decide (name ∈ index.colNames)) := by
  rw [Bool.eq_iff_iff, stillIndexed_iff, Bool.or_eq_true, stillIndexed_iff, decide_eq_true_eq]
  simp only [List.mem_append, List.mem_singleton, or_and_right, exists_or, exists_eq_left]

/-- The table after `create_index`. -/
theorem addIndex (h : tab.Ok) (hnew : tab.isIndex names = false)
    (hcols : names.mapM tab.getCol = .ok cols)
    (hfit : KeysFit cols) : (tab.addIndex ⟨tab.name, colTotLen cols, names.length, cols⟩).Ok := by
  obtain ⟨hnames, hmem⟩ := mapM_getCol_ok hcols
  refine h.withIndexes (fun index hindex => ?_) ?_ (fun col _ => ?_) fun index hindex => ?_
  · rcases List.mem_append.mp hindex with hindex | hindex
    · exact h.indexes index hindex
    · rw [List.mem_singleton.mp hindex]
      refine ⟨rfl, ?_, fun col hcol =>
        ⟨(h.cols col (hmem col hcol)).1, List.mem_map_of_mem (hmem col hcol)⟩⟩
      show names.length = cols.length
      rw [← hnames, List.length_map]
  · rw [List.map_append, List.map_singleton]
    refine List.nodup_append'.mpr ⟨h.unique, List.nodup_singleton _, ?_⟩
    rw [List.disjoint_singleton]
    show cols.map ColEntry.name ∉ _
    rw [hnames, ← h.isIndex_iff, hnew]
    exact Bool.false_ne_true
  · rw [stillIndexed_append]
    split
    · next hcol => rw [decide_eq_true hcol, Bool.or_true]
    · next hcol => rw [decide_eq_false hcol, Bool.or_false]
  · rcases List.mem_append.mp hindex with hindex | hindex
    · exact h.sized index hindex
    · rw [List.mem_singleton.mp hindex]
      exact hfit

/-- The table after `drop_index`. -/
theorem dropIndex (h : tab.Ok) (hindex : index ∈ tab.indexes) : (tab.dropIndex index).Ok := by
  have hsub : (tab.withoutIndex index).indexes.Sublist tab.indexes := List.eraseP_sublist
  refine h.withIndexes (fun ix hix => h.indexes ix (hsub.mem hix)) ((hsub.map _).nodup h.unique)
    (fun col _ => ?_)
    fun ix hix => h.sized ix (hsub.mem hix)
  split
  · rfl
  · next hcol =>
    rw [Bool.eq_iff_iff, stillIndexed_iff, stillIndexed_iff]
    refine exists_congr fun ix => ?_
    show _ ↔ ix ∈ (tab.withoutIndex index).indexes ∧ _
    rw [h.mem_withoutIndex hindex]
    constructor
    · rintro ⟨hix, hname⟩
      exact ⟨⟨hix, fun heq => hcol (heq ▸ hname)⟩, hname⟩
    · rintro ⟨⟨hix, -⟩, hname⟩
      exact ⟨hix, hname⟩

end Ok

end TabEntry

/-! ## Files -/

/-- The two tables of open files belong together, and the open files are there. -/
structure Directory.Ok (d : Directory) : Prop where
  inverse : ∀ path fd, d.path2fd path = some fd ↔ d.fd2path fd = some path
  exist : ∀ path fd, d.path2fd path = some fd → path ∈ d.files

namespace Directory

variable {d : Directory} {path : String} {fd : ℤ} {os : OsAnswer}

/-- The directory with one more file. -/
def withFile (d : Directory) (path : String) : Directory := { d with files := insert path d.files }

/-- The directory with one more file open. -/
def withOpen (d : Directory) (path : String) (fd : ℤ) : Directory :=
  { d with
    path2fd := Function.update d.path2fd path (some fd)
    fd2path := Function.update d.fd2path fd (some path) }

/-- The directory without an open file. -/
def without (d : Directory) (path : String) (fd : ℤ) : Directory where
  files := d.files.erase path
  path2fd := Function.update d.path2fd path none
  fd2path := Function.update d.fd2path fd none

namespace Ok

theorem path2fd_eq_none (h : d.Ok) (hpath : path ∉ d.files) : d.path2fd path = none := by
  cases hfd : d.path2fd path with
  | none => rfl
  | some fd => exact absurd (h.exist path fd hfd) hpath

theorem withFile (h : d.Ok) : (d.withFile path).Ok where
  inverse := h.inverse
  exist p fd hp := Finset.mem_insert_of_mem (h.exist p fd hp)

theorem withOpen (h : d.Ok) (hfile : path ∈ d.files) (hpath : d.path2fd path = none)
    (hfd : d.fd2path fd = none) : (d.withOpen path fd).Ok where
  inverse p fd' := by
    by_cases hp : p = path <;> by_cases hfd' : fd' = fd
    · simp [Directory.withOpen, hp, hfd']
    · have hne : d.fd2path fd' ≠ some path := fun hc => by simp [(h.inverse _ _).mpr hc] at hpath
      simp [Directory.withOpen, hp, hfd', hne, Ne.symm hfd']
    · have hne : d.path2fd p ≠ some fd := fun hc => by simp [(h.inverse _ _).mp hc] at hfd
      simp [Directory.withOpen, hp, hfd', hne, Ne.symm hp]
    · simp [Directory.withOpen, hp, hfd', h.inverse]
  exist p fd' hp := by
    by_cases hpp : p = path
    · exact hpp ▸ hfile
    · exact h.exist p fd' (by simpa [Directory.withOpen, hpp] using hp)

theorem without (h : d.Ok) (hfd : d.path2fd path = some fd) : (d.without path fd).Ok where
  inverse p fd' := by
    by_cases hp : p = path <;> by_cases hfd' : fd' = fd
    · simp [Directory.without, hp, hfd']
    · have hne : d.fd2path fd' ≠ some path :=
        fun hc => hfd' (by simpa [hfd] using ((h.inverse _ _).mpr hc).symm)
      simp [Directory.without, hp, hfd', hne]
    · have hne : d.path2fd p ≠ some fd := fun hc =>
        hp (by simpa [(h.inverse _ _).mp hfd] using ((h.inverse _ _).mp hc).symm)
      simp [Directory.without, hp, hfd', hne]
    · simp [Directory.without, hp, hfd', h.inverse]
  exist p fd' hp := by
    by_cases hpp : p = path
    · simp [Directory.without, hpp] at hp
    · have hp : d.path2fd p = some fd' := by simpa [Directory.without, hpp] using hp
      exact Finset.mem_erase.mpr ⟨hpp, h.exist p fd' hp⟩

end Ok

/-- An open file stays open when another is opened. -/
theorem withOpen_path2fd {p : String} {fd' : ℤ} (hp : d.path2fd p = some fd)
    (hpath : d.path2fd path = none) : (d.withOpen path fd').path2fd p = some fd := by
  have hne : p ≠ path := by
    rintro rfl
    rw [hpath] at hp
    cases hp
  simpa [withOpen, hne] using hp

theorem openFile_eq (hfile : path ∈ d.files) (hpath : d.path2fd path = none) :
    d.openFile path fd true = .ok (fd, d.withOpen path fd) := by
  simp [openFile, hpath, hfile, withOpen, pure, Except.pure]

/-- Closing a file undoes opening it. -/
theorem closeFile_withOpen (hos : os.Grants) (hpath : d.path2fd path = none)
    (hfd : d.fd2path fd = none) : (d.withOpen path fd).closeFile fd os = .ok d := by
  have hpaths : Function.update (Function.update d.path2fd path (some fd)) path none =
      d.path2fd := by
    rw [Function.update_idem, ← hpath, Function.update_eq_self]
  have hfds : Function.update (Function.update d.fd2path fd (some path)) fd none = d.fd2path := by
    rw [Function.update_idem, ← hfd, Function.update_eq_self]
  simp [closeFile, withOpen, hos.closes, hpaths, hfds, pure, Except.pure]

/-- Destroying a file undoes creating it. -/
theorem destroyFile_withFile (hos : os.Grants) (hfile : path ∉ d.files)
    (hpath : d.path2fd path = none) : (d.withFile path).destroyFile path os = .ok d := by
  simp [destroyFile, withFile, hos.unlinks, hpath, Finset.erase_insert hfile, pure, Except.pure]

/-- An open file is closed and destroyed. -/
theorem Ok.closeFile_destroyFile (h : d.Ok) (hos : os.Grants) (hfd : d.path2fd path = some fd) :
    ∃ d', d.closeFile fd os = .ok d' ∧ d'.destroyFile path os = .ok (d.without path fd) := by
  have hpath : d.fd2path fd = some path := (h.inverse _ _).mp hfd
  refine ⟨{ d with path2fd := _, fd2path := _ }, by
    simp only [closeFile, hpath, hos.closes, if_true]; rfl, ?_⟩
  rw [destroyFile, if_neg (by simp), if_pos (h.exist path fd hfd), if_pos (hos.unlinks path)]
  rfl

theorem createFile_cases (d : Directory) (path : String) (os : OsAnswer) :
    (∃ e, e ≠ .assertion ∧ (path ∈ d.files ∨ os.creates = false) ∧
      d.createFile path os = .error (e, d)) ∨
      path ∉ d.files ∧ os.creates = true ∧ d.createFile path os = .ok (d.withFile path) := by
  by_cases hfile : path ∈ d.files
  · exact .inl ⟨.fileExists path, by simp, .inl hfile, by rw [createFile, if_pos hfile]; rfl⟩
  by_cases hos : os.creates = true
  · exact .inr ⟨hfile, hos, by rw [createFile, if_neg hfile, if_pos hos]; rfl⟩
  · exact .inl ⟨.unixError, by simp,
      .inr (by simpa using hos), by rw [createFile, if_neg hfile, if_neg hos]; rfl⟩

theorem createTableFile_cases (h : d.Ok) (hos : os.Grants) (hfd : d.fd2path os.fd = none)
    (path : String) (recordSize : ℤ) :
    (∃ e, e ≠ .assertion ∧ d.createTableFile path recordSize os = .error (e, d)) ∨
      path ∉ d.files ∧ d.createTableFile path recordSize os = .ok (d.withFile path) := by
  by_cases hsize : recordSize < 1 ∨ recordSize > RM_MAX_RECORD_SIZE
  · exact .inl ⟨.invalidRecordSize recordSize, by simp, by rw [createTableFile, if_pos hsize]; rfl⟩
  rcases d.createFile_cases path os with ⟨e, he, -, hcreate⟩ | ⟨hfile, -, hcreate⟩
  · exact .inl ⟨e, he, by simp [createTableFile, hsize, hcreate, bind, Except.bind]⟩
  · have hpath := h.path2fd_eq_none hfile
    have hopen : (d.withFile path).openFile path os.fd true =
      .ok (os.fd, (d.withFile path).withOpen path os.fd) :=
      openFile_eq (Finset.mem_insert_self path d.files) hpath
    have hclose : ((d.withFile path).withOpen path os.fd).closeFile os.fd os =
      .ok (d.withFile path) :=
      closeFile_withOpen hos hpath hfd
    exact .inr
      ⟨hfile, by
      simp [createTableFile, hsize, hcreate, hos.opens, hopen, hclose, bind, Except.bind]⟩

/-- Where the key of a new index is too long, its file stays behind, open. -/
theorem createIndexFile_cases (h : d.Ok) (hgrants : os.Grants) (hfd : d.fd2path os.fd = none)
    (filename : String) (cols : List ColEntry) (hpath : path = indexName filename cols) :
    (∃ e, e ≠ .assertion ∧ (path ∈ d.files ∨ os.creates = false) ∧
      d.createIndexFile filename cols os = .error (e, d)) ∨
    (path ∉ d.files ∧ os.creates = true ∧ colTotLen cols > IX_MAX_COL_LEN ∧
      d.createIndexFile filename cols os =
      .error (.invalidColLength (colTotLen cols), (d.withFile path).withOpen path os.fd)) ∨
    (btreeOrderOf (colTotLen cols) ≤ 2 ∧ ∃ d', d.createIndexFile filename cols os =
      .error (.assertion, d')) ∨
    (path ∉ d.files ∧ os.creates = true ∧ KeysFit cols ∧
      d.createIndexFile filename cols os = .ok (d.withFile path)) := by
  rcases d.createFile_cases path os with ⟨e, he, hno, hcreate⟩ | ⟨hfile, hos, hcreate⟩
  · exact .inl ⟨e, he, hno, by simp [createIndexFile, ← hpath, hcreate, bind, Except.bind]⟩
  have hnone := h.path2fd_eq_none hfile
  have hopen : (d.withFile path).openFile path os.fd true =
    .ok (os.fd, (d.withFile path).withOpen path os.fd) :=
    openFile_eq (Finset.mem_insert_self path d.files) hnone
  have hclose : ((d.withFile path).withOpen path os.fd).closeFile os.fd os =
    .ok (d.withFile path) :=
    closeFile_withOpen hgrants hnone hfd
  by_cases hlen : colTotLen cols > IX_MAX_COL_LEN
  · refine .inr (.inl ⟨hfile, hos, hlen, ?_⟩)
    simp [createIndexFile, ← hpath, hcreate, hgrants.opens, hopen, hlen, bind, Except.bind, throw,
      throwThe, MonadExceptOf.throw]
  by_cases horder : btreeOrderOf (colTotLen cols) ≤ 2
  · refine .inr (.inr (.inl ⟨horder, (d.withFile path).withOpen path os.fd, ?_⟩))
    simp [createIndexFile, ← hpath, hcreate, hgrants.opens, hopen, hlen, horder, bind, Except.bind,
      throw, throwThe,
      MonadExceptOf.throw]
  · refine .inr (.inr (.inr ⟨hfile, hos, ⟨not_lt.mp hlen, not_le.mp horder⟩, ?_⟩))
    simp [createIndexFile, ← hpath, hcreate, hgrants.opens, hopen, hlen, horder, hclose, bind,
      Except.bind]

end Directory

end Rmdb
