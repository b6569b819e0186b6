import Rmdb.Lib.Run
import Rmdb.System.CatalogInv

/-!
# Catalog, handles and files over the calls of data definition

The tables and indexes of the catalog are those with a handle, and the handles are those of open
files; the text of `db.meta` is that of the catalog.  As long as the system refuses to open, close
and remove no file, a call that throws leaves all of this as it was, except that `create_index`
leaves the file of an index whose key is too long behind, open.
-/

namespace Rmdb

/-- Some index of the catalog has its entries in the file. -/
def DbMeta.HasIndex (db : DbMeta) (path : String) : Prop :=
  ∃ tab ∈ db.tabs, ∃ index ∈ tab.indexes, indexName tab.name index.cols = path

/-- A catalog between two calls: no two indexes have one file. -/
structure DbMeta.Ok (db : DbMeta) : Prop where
  name : IsWord db.name
  sorted : SortedMap.Sorted TabEntry.name db.tabs
  tabs : ∀ tab ∈ db.tabs, tab.Ok
  names : ∀ tab ∈ db.tabs, ∀ index ∈ tab.indexes, ∀ tab' ∈ db.tabs, ∀ index' ∈ tab'.indexes,
    indexName tab.name index.cols = indexName tab'.name index'.cols → tab.name = tab'.name ∧
      index = index'

/-- What holds between two calls. -/
structure SmInv (s : SmManager) : Prop where
  catalog : s.db.Ok
  disk : s.disk.Ok
  fhs : ∀ path, (s.fhs path).isSome = true ↔ ∃ tab ∈ s.db.tabs, tab.name = path
  ihs : ∀ path, (s.ihs path).isSome = true ↔ s.db.HasIndex path
  opened : ∀ path fd, s.fhs path = some fd ∨ s.ihs path = some fd → s.disk.path2fd path = some fd
  metaText : s.metaText = s.db.chars

section
variable {s s' : SmManager} {tab tab' : TabEntry} {tabName colName path : String}
  {index : IndexEntry}
  {cols : List ColEntry} {colNames : List String} {b : String → Bool} {fd : ℤ} {os : OsAnswer}
  {db : DbMeta}

/-! ## Handles -/

theorem isSome_emplace {m : String → Option ℤ} {k n : String} :
    (emplace m k fd n).isSome = true ↔ n = k ∨ (m n).isSome = true := by
  unfold emplace
  split
  · next hk =>
    refine ⟨.inr, ?_⟩
    rintro (rfl | h)
    · exact hk
    · exact h
  · by_cases hn : n = k
    · simp [hn]
    · simp [hn]

theorem emplace_eq_some {m : String → Option ℤ} {k n : String} {fd' : ℤ}
    (h : emplace m k fd n = some fd') : n = k ∧ fd' = fd ∨ m n = some fd' := by
  unfold emplace at h
  split at h
  · exact .inr h
  · by_cases hn : n = k
    · subst hn
      rw [Function.update_self] at h
      exact .inl ⟨rfl, (Option.some.inj h).symm⟩
    · exact .inr (by simpa [hn] using h)

theorem isSome_update_none {m : String → Option ℤ} {k n : String} :
    (Function.update m k none n).isSome = true ↔ n ≠ k ∧ (m n).isSome = true := by
  by_cases hn : n = k
  · simp [hn]
  · simp [hn]

theorem update_none_eq_some {m : String → Option ℤ} {k n : String}
    (h : Function.update m k none n = some fd) : n ≠ k ∧ m n = some fd := by
  by_cases hn : n = k
  · simp [hn] at h
  · exact ⟨hn, by simpa [hn] using h⟩

/-! ## The catalog -/

namespace DbMeta

theorem getTable_ok (h : db.getTable tabName = .ok tab) : tab ∈ db.tabs ∧ tab.name = tabName := by
  unfold getTable at h
  split at h
  · next t ht =>
    cases h
    exact ⟨List.mem_of_find?_eq_some ht, by simpa using List.find?_some ht⟩
  · cases h

theorem getTable_eq (h : SortedMap.find TabEntry.name tabName db.tabs = some tab) :
    db.getTable tabName = .ok tab := by
  rw [getTable, h]
  rfl

theorem getTable_error {e : SmError} (h : db.getTable tabName = .error e) :
    e = .tableNotFound tabName := by
  unfold getTable at h
  split at h <;> cases h
  rfl

/-- The indexes after a table has changed. -/
theorem hasIndex_setTable (hsorted : SortedMap.Sorted TabEntry.name db.tabs) :
    (db.setTable tab').HasIndex path ↔
    (∃ index ∈ tab'.indexes, indexName tab'.name index.cols = path) ∨
      ∃ tab ∈ db.tabs, tab.name ≠ tab'.name ∧ ∃ index ∈ tab.indexes,
      indexName tab.name index.cols = path := by
  constructor
  · rintro ⟨tab, htab, hindex⟩
    rcases (SortedMap.mem_put hsorted).mp htab with rfl | ⟨htab, hne⟩
    · exact .inl hindex
    · exact .inr ⟨tab, htab, hne, hindex⟩
  · rintro (hindex | ⟨tab, htab, hne, hindex⟩)
    · exact ⟨tab', (SortedMap.mem_put hsorted).mpr (.inl rfl), hindex⟩
    · exact ⟨tab, (SortedMap.mem_put hsorted).mpr (.inr ⟨htab, hne⟩), hindex⟩

/-- The names of the tables after a table has changed. -/
theorem exists_name_setTable (tab' : TabEntry) (hsorted : SortedMap.Sorted TabEntry.name db.tabs)
    (htab : tab ∈ db.tabs) (hname : tab.name = tab'.name) :
    (∃ t ∈ (db.setTable tab').tabs, t.name = path) ↔ ∃ t ∈ db.tabs, t.name = path := by
  constructor
  · rintro ⟨t, ht, rfl⟩
    rcases (SortedMap.mem_put hsorted).mp ht with rfl | ⟨ht, -⟩
    · exact ⟨tab, htab, hname⟩
    · exact ⟨t, ht, rfl⟩
  · rintro ⟨t, ht, rfl⟩
    by_cases heq : t.name = tab'.name
    · exact ⟨tab', (SortedMap.mem_put hsorted).mpr (.inl rfl), heq.symm⟩
    · exact ⟨t, (SortedMap.mem_put hsorted).mpr (.inr ⟨ht, heq⟩), rfl⟩

namespace Ok

theorem find_eq (h : db.Ok) (htab : tab ∈ db.tabs) :
    SortedMap.find TabEntry.name tab.name db.tabs = some tab :=
  (SortedMap.find_eq_some h.sorted).mpr ⟨htab, rfl⟩

theorem hasIndex_iff (h : db.Ok) (htab : tab ∈ db.tabs) :
    db.HasIndex path ↔ (∃ index ∈ tab.indexes, indexName tab.name index.cols = path) ∨
      ∃ tab' ∈ db.tabs, tab'.name ≠ tab.name ∧ ∃ index ∈ tab'.indexes,
      indexName tab'.name index.cols = path := by
  constructor
  · rintro ⟨tab', htab', hindex⟩
    by_cases hname : tab'.name = tab.name
    · obtain rfl := h.sorted.unique htab' htab hname
      exact .inl hindex
    · exact .inr ⟨tab', htab', hname, hindex⟩
  · rintro (hindex | ⟨tab', htab', -, hindex⟩)
    · exact ⟨tab, htab, hindex⟩
    · exact ⟨tab', htab', hindex⟩

/-- A table changes; at most one of its indexes is new, with a file of its own. -/
theorem setTable (h : db.Ok) (htab' : tab'.Ok) (new : IndexEntry)
    (hindexes : ∀ index ∈ tab'.indexes,
      (∃ tab ∈ db.tabs, tab.name = tab'.name ∧ index ∈ tab.indexes) ∨
      index = new ∧ ¬ db.HasIndex (indexName tab'.name index.cols)) : (db.setTable tab').Ok := by
  have horigin : ∀ t ∈ (db.setTable tab').tabs, ∀ index ∈ t.indexes,
      (∃ tab ∈ db.tabs, tab.name = t.name ∧ index ∈ tab.indexes) ∨
        (t.name = tab'.name ∧ index = new) ∧ ¬ db.HasIndex (indexName t.name index.cols) := by
    intro t ht index hindex
    rcases (SortedMap.mem_put h.sorted).mp ht with rfl | ⟨ht, -⟩
    · rcases hindexes index hindex with hold | ⟨hnew, hno⟩
      · exact .inl hold
      · exact .inr ⟨⟨rfl, hnew⟩, hno⟩
    · exact .inl ⟨t, ht, rfl, hindex⟩
  refine ⟨h.name, h.sorted.put, fun t ht => ?_,
    fun t ht index hindex t' ht' index' hindex' heq => ?_⟩
  · rcases (SortedMap.mem_put h.sorted).mp ht with rfl | ⟨ht, -⟩
    · exact htab'
    · exact h.tabs t ht
  · rcases horigin t ht index hindex with ⟨u, hu, hname, hmem⟩ | ⟨⟨hname, hnew⟩, hno⟩ <;>
      rcases horigin t' ht' index' hindex' with ⟨u', hu', hname', hmem'⟩ | ⟨⟨hname', hnew'⟩, hno'⟩
    · rw [← hname, ← hname'] at heq ⊢
      exact h.names u hu index hmem u' hu' index' hmem' heq
    · exact absurd ⟨u, hu, index, hmem, by rw [hname, heq]⟩ hno'
    · exact absurd ⟨u', hu', index', hmem', by rw [hname', heq]⟩ hno
    · exact ⟨hname.trans hname'.symm, hnew.trans hnew'.symm⟩

theorem eraseTable (h : db.Ok) : (db.eraseTable tabName).Ok where
  name := h.name
  sorted := h.sorted.erase
  tabs t ht := h.tabs t (SortedMap.mem_erase.mp ht).1
  names t ht index hindex t' ht' :=
    h.names t (SortedMap.mem_erase.mp ht).1 index hindex t' (SortedMap.mem_erase.mp ht').1

end Ok

end DbMeta

/-- The flags of columns of one table are set one after the other. -/
theorem foldlM_setColIndex (s : SmManager) (db : DbMeta) (tab : TabEntry)
    (hnodup : (tab.cols.map ColEntry.name).Nodup)
    (hcols : ∀ col ∈ cols, col.name ∈ tab.cols.map ColEntry.name) :
    cols.foldlM (fun s col => s.setColIndex tab.name col.name (b col.name))
    { s with db := db.setTable tab } =
      .ok { s with db := db.setTable (tab.withFlags (cols.map ColEntry.name) b) } := by
  induction cols generalizing tab with
  | nil =>
    rw [List.map_nil, TabEntry.withFlags_nil]
    rfl
  | cons col cols ih =>
    obtain ⟨hcol, hcols⟩ := List.forall_mem_cons.mp hcols
    obtain ⟨c, hc⟩ := TabEntry.exists_getCol hcol
    have hget : (db.setTable tab).getTable tab.name = .ok tab :=
      DbMeta.getTable_eq SortedMap.find_put
    have hset : (db.setTable tab).setTable (tab.withFlags [col.name] b) =
        db.setTable (tab.withFlags [col.name] b) := by
      simp only [DbMeta.setTable, DbMeta.mk.injEq, true_and]
      exact SortedMap.put_put rfl
    have hstep : SmManager.setColIndex { s with db := db.setTable tab } tab.name col.name
      (b col.name) = .ok { s with db := db.setTable (tab.withFlags [col.name] b) } := by
      simp only [SmManager.setColIndex, SmManager.pureCall, hget, hc, Except.mapError, bind,
        Except.bind, TabEntry.setFlag_eq hnodup, hset]
      rfl
    have hrest := ih (tab.withFlags [col.name] b) (by rwa [TabEntry.withFlags_colNames])
      (by rwa [TabEntry.withFlags_colNames])
    rw [TabEntry.withFlags_cons] at hrest
    rw [List.foldlM_cons, hstep]
    exact hrest

namespace SmInv

/-- The file of an index of the catalog is open. -/
theorem exists_handle (h : SmInv s) (htab : tab ∈ s.db.tabs) (hindex : index ∈ tab.indexes) :
    ∃ fd, s.ihs (indexName tab.name index.cols) = some fd := by
  rw [← Option.isSome_iff_exists, h.ihs]
  exact ⟨tab, htab, index, hindex, rfl⟩

theorem exists_table_handle (h : SmInv s) (htab : tab ∈ s.db.tabs) :
    ∃ fd, s.fhs tab.name = some fd := by
  rw [← Option.isSome_iff_exists, h.fhs]
  exact ⟨tab, htab, rfl⟩

/-- A file is opened that no handle names. -/
theorem opened_withOpen (h : SmInv s) {p : String} {fd' : ℤ} (hpath : s.disk.path2fd path = none)
    (hp : s.fhs p = some fd ∨ s.ihs p = some fd) :
    ((s.disk.withFile path).withOpen path fd').path2fd p = some fd :=
  Directory.withOpen_path2fd (d := s.disk.withFile path) (h.opened p fd hp) hpath

end SmInv

/-! ## Tables -/

theorem map_name_layOut (tabName : String) (offset : ℤ) (colDefs : List ColDef) :
    (layOut tabName offset colDefs).map ColEntry.name = colDefs.map ColDef.name := by
  induction colDefs generalizing offset with
  | nil => rfl
  | cons c cs ih => rw [layOut, List.map_cons, List.map_cons, ih]

theorem mem_layOut {col : ColEntry} {offset : ℤ} {colDefs : List ColDef}
    (h : col ∈ layOut tabName offset colDefs) : col.tabName = tabName ∧ col.index = false := by
  induction colDefs generalizing offset with
  | nil => cases h
  | cons c cs ih =>
    rcases List.mem_cons.mp h with rfl | h
    · exact ⟨rfl, rfl⟩
    · exact ih h

/-- The columns of a table that can be created. -/
structure ValidTable (tabName : String) (colDefs : List ColDef) : Prop where
  name : isIdentifier tabName = true
  cols : ∀ c ∈ colDefs, isIdentifier c.name = true
  nodup : (colDefs.map ColDef.name).Nodup

theorem ValidTable.ok {colDefs : List ColDef} (h : ValidTable tabName colDefs) :
    (⟨tabName, layOut tabName 0 colDefs, []⟩ : TabEntry).Ok where
  name := h.name
  cols col hcol := by
    have hname : col.name ∈ colDefs.map ColDef.name := by
      rw [← map_name_layOut tabName 0]
      exact List.mem_map_of_mem hcol
    obtain ⟨c, hc, hname⟩ := List.mem_map.mp hname
    exact ⟨(mem_layOut hcol).1, hname ▸ h.cols c hc⟩
  nodup := by
    rw [map_name_layOut]
    exact h.nodup
  indexes := by simp
  unique := by simp
  flags col hcol := (mem_layOut hcol).2
  sized := by simp

namespace SmInv

/-- `create_table` adds a table, or throws and changes nothing. -/
theorem createTable (h : SmInv s) (hos : os.Grants) {colDefs : List ColDef}
    (hvalid : ValidTable tabName colDefs)
    (hfd : s.disk.fd2path os.fd = none) (hfd' : s.disk.fd2path os.fd' = none) :
    Yields (fun s' => SmInv s' ∧ s.fhs tabName = none ∧ ∃ fd, s'.fhs = emplace s.fhs tabName fd)
      (fun e s' => e ≠ .assertion ∧ s' = s) (s.createTable tabName colDefs os) := by
  by_cases htable : s.db.isTable tabName = true
  · have hrun : s.createTable tabName colDefs os = .error (.tableExists tabName, s) := by
      rw [SmManager.createTable, if_pos htable]
      rfl
    rw [hrun]
    exact ⟨by simp, rfl⟩
  rcases Directory.createTableFile_cases h.disk hos hfd tabName (recordSizeOf colDefs) with
    ⟨e, he, hcreate⟩ | ⟨hfile, hcreate⟩
  · have hrun : s.createTable tabName colDefs os = .error (e, s) := by
      simp [SmManager.createTable, htable, hcreate, SmManager.diskCall, Except.mapError, bind,
        Except.bind]
    rw [hrun]
    exact ⟨he, rfl⟩
  have hpath := h.disk.path2fd_eq_none hfile
  have hmem : tabName ∈ (s.disk.withFile tabName).files :=
    Finset.mem_insert_self tabName s.disk.files
  have hopen : (s.disk.withFile tabName).openFile tabName os.fd' true = .ok (os.fd', _) :=
    Directory.openFile_eq hmem hpath
  have hrun : s.createTable tabName colDefs os = .ok
      { db := s.db.setTable ⟨tabName, layOut tabName 0 colDefs, []⟩
        fhs := emplace s.fhs tabName os.fd'
        ihs := s.ihs
        disk := (s.disk.withFile tabName).withOpen tabName os.fd'
        metaText := (s.db.setTable ⟨tabName, layOut tabName 0 colDefs, []⟩).chars } := by
    simp [SmManager.createTable, htable, hcreate, hos.opens', hopen, SmManager.diskCall,
      Except.mapError, bind, Except.bind, SmManager.flushMeta, pure, Except.pure]
  have hnew : ∀ tab ∈ s.db.tabs, tab.name ≠ tabName := by
    rw [← SortedMap.find_eq_none]
    simpa [DbMeta.isTable] using htable
  have hnone : s.fhs tabName = none := by
    by_contra hne
    obtain ⟨tab, htab, hname⟩ := (h.fhs tabName).mp (Option.isSome_iff_ne_none.mpr hne)
    exact hnew tab htab hname
  rw [hrun]
  refine ⟨?_, hnone, os.fd', rfl⟩
  exact {
    catalog := h.catalog.setTable hvalid.ok ⟨tabName, 0, 0, []⟩ (by simp)
    disk := h.disk.withFile.withOpen hmem hpath hfd'
    fhs := fun path => by
      rw [isSome_emplace, h.fhs]
      constructor
      · rintro (rfl | ⟨tab, htab, rfl⟩)
        · exact ⟨_, (SortedMap.mem_put h.catalog.sorted).mpr (.inl rfl), rfl⟩
        · exact ⟨tab, (SortedMap.mem_put h.catalog.sorted).mpr (.inr ⟨htab, hnew tab htab⟩), rfl⟩
      · rintro ⟨tab, htab, rfl⟩
        rcases (SortedMap.mem_put h.catalog.sorted).mp htab with rfl | ⟨htab, -⟩
        · exact .inl rfl
        · exact .inr ⟨tab, htab, rfl⟩
    ihs := fun path => by
      rw [h.ihs, DbMeta.hasIndex_setTable h.catalog.sorted]
      constructor
      · rintro ⟨tab, htab, hindex⟩
        exact .inr ⟨tab, htab, hnew tab htab, hindex⟩
      · rintro (⟨index, hindex, -⟩ | ⟨tab, htab, -, hindex⟩)
        · cases hindex
        · exact ⟨tab, htab, hindex⟩
    opened := fun path fd hhandle => by
      rcases hhandle with hfh | hih
      · rcases emplace_eq_some hfh with ⟨rfl, rfl⟩ | hfh
        · exact Function.update_self ..
        · exact h.opened_withOpen hpath (.inl hfh)
      · exact h.opened_withOpen hpath (.inr hih)
    metaText := rfl }

/-! ## Dropping -/

/-- The open file of a handle is closed and destroyed; every other handle keeps its file. -/
theorem opened_without (h : SmInv s) {p : String} {fd' : ℤ} (hne : p ≠ path)
    (hp : s.fhs p = some fd ∨ s.ihs p = some fd) :
    (s.disk.without path fd').path2fd p = some fd := by
  have hold := h.opened p fd hp
  simpa [Directory.without, hne] using hold

theorem dropIndexCols_eq (h : SmInv s) (hos : os.Grants) (htab : tab ∈ s.db.tabs)
    (hindex : index ∈ tab.indexes)
    (hpath : path = indexName tab.name index.cols) (hfd : s.ihs path = some fd) :
    s.dropIndexCols tab.name index.cols os = .ok
      { db := s.db.setTable (tab.dropIndex index)
        fhs := s.fhs
        ihs := Function.update s.ihs path none
        disk := s.disk.without path fd
        metaText := (s.db.setTable (tab.dropIndex index)).chars } := by
  have hok := h.catalog.tabs tab htab
  obtain ⟨ix, hix⟩ := hok.exists_getIndexMeta hindex
  obtain ⟨d, hclose, hdestroy⟩ := h.disk.closeFile_destroyFile hos (h.opened _ _ (.inr hfd))
  have hget := DbMeta.getTable_eq (h.catalog.find_eq htab)
  have hflags : index.cols.foldlM (fun s col => SmManager.setColIndex s tab.name col.name
      ((tab.withoutIndex index).stillIndexed col.name))
        ⟨s.db.setTable (tab.withoutIndex index), s.fhs,
        Function.update s.ihs path none, s.disk.without path fd,
          s.metaText⟩ = .ok ⟨s.db.setTable (tab.dropIndex index),
        s.fhs, Function.update s.ihs path none, s.disk.without path fd, s.metaText⟩ :=
    foldlM_setColIndex ⟨s.db, s.fhs, Function.update s.ihs path none, s.disk.without path fd,
      s.metaText⟩ s.db
      (tab.withoutIndex index) hok.nodup fun col hcol => ((hok.indexes index hindex).2.2 col hcol).2
  rw [TabEntry.withoutIndex, IndexEntry.colNames] at hflags
  rw [IndexEntry.colNames] at hix
  simp only [SmManager.dropIndexCols, SmManager.pureCall, SmManager.diskCall, hget, hix, ← hpath,
    hfd, hclose, hdestroy, Except.mapError, bind, Except.bind, pure, Except.pure]
  simp only [hflags]
  rfl

/-- An index of the catalog can be dropped, and only it. -/
theorem dropIndexCols (h : SmInv s) (hos : os.Grants) (htab : tab ∈ s.db.tabs)
    (hindex : index ∈ tab.indexes) :
    ∃ s', s.dropIndexCols tab.name index.cols os = .ok s' ∧ SmInv s' ∧ s'.fhs = s.fhs ∧
      ∃ tab' ∈ s'.db.tabs, tab'.name = tab.name ∧ ∀ ix, ix ∈ tab'.indexes ↔ ix ∈ tab.indexes ∧
      ix ≠ index := by
  have hok := h.catalog.tabs tab htab
  obtain ⟨fd, hfd⟩ := h.exists_handle htab hindex
  obtain ⟨path, hpath⟩ : ∃ path, path = indexName tab.name index.cols := ⟨_, rfl⟩
  rw [← hpath] at hfd
  have hmem : ∀ ix, ix ∈ (tab.dropIndex index).indexes ↔ ix ∈ tab.indexes ∧ ix ≠ index := fun ix =>
    hok.mem_withoutIndex hindex
  have htable : ∀ name, name = path → s.fhs name ≠ none → False := by
    rintro name rfl hne
    obtain ⟨t, ht, hname⟩ := (h.fhs name).mp (Option.isSome_iff_ne_none.mpr hne)
    exact indexName_ne (hname ▸ (h.catalog.tabs t ht).name) hpath.symm
  refine ⟨_, h.dropIndexCols_eq hos htab hindex hpath hfd, ?_, rfl, tab.dropIndex index,
    (SortedMap.mem_put h.catalog.sorted).mpr (.inl rfl), rfl, hmem⟩
  exact {
    catalog := h.catalog.setTable (hok.dropIndex hindex) index fun ix hix =>
      .inl ⟨tab, htab, rfl, ((hmem ix).mp hix).1⟩
    disk := h.disk.without (h.opened _ _ (.inr hfd))
    fhs := fun name => by
      rw [h.fhs, DbMeta.exists_name_setTable (tab.dropIndex index) h.catalog.sorted htab rfl]
    ihs := fun name => by
      rw [isSome_update_none, h.ihs, DbMeta.hasIndex_setTable h.catalog.sorted,
        h.catalog.hasIndex_iff htab]
      constructor
      · rintro ⟨hne, ⟨ix, hix, rfl⟩ | hother⟩
        · exact .inl ⟨ix, (hmem ix).mpr ⟨hix, fun heq => hne (by rw [hpath, heq])⟩, rfl⟩
        · exact .inr hother
      · rintro (⟨ix, hix, rfl⟩ | ⟨t, ht, hname, ix, hix, rfl⟩)
        · obtain ⟨hix, hne⟩ := (hmem ix).mp hix
          refine ⟨fun heq => hne ?_, .inl ⟨ix, hix, rfl⟩⟩
          exact (h.catalog.names tab htab ix hix tab htab index hindex (heq.trans hpath)).2
        · refine ⟨fun heq => hname ?_, .inr ⟨t, ht, hname, ix, hix, rfl⟩⟩
          exact (h.catalog.names t ht ix hix tab htab index hindex (heq.trans hpath)).1
    opened := fun name fd' hhandle => by
      rcases hhandle with hfh | hih
      · have hfh : s.fhs name = some fd' := hfh
        exact h.opened_without (fun heq => htable name heq (by simp [hfh])) (.inl hfh)
      · obtain ⟨hne, hih⟩ := update_none_eq_some hih
        exact h.opened_without hne (.inr hih)
    metaText := rfl }

/-- `drop_index` drops an index, or throws and changes nothing. -/
theorem dropIndex (h : SmInv s) (hos : os.Grants) (tabName : String) (colNames : List String) :
    Yields (fun s' => SmInv s' ∧ s'.fhs = s.fhs) (fun e s' => e ≠ .assertion ∧ s' = s)
      (s.dropIndex tabName colNames os) := by
  cases hget : s.db.getTable tabName with
  | error e =>
    have hrun : s.dropIndex tabName colNames os = .error (e, s) := by
      simp [SmManager.dropIndex, SmManager.pureCall, hget, Except.mapError, bind, Except.bind]
    rw [hrun, DbMeta.getTable_error hget]
    exact ⟨by simp, rfl⟩
  | ok tab =>
    obtain ⟨htab, rfl⟩ := DbMeta.getTable_ok hget
    cases hmeta : tab.getIndexMeta colNames with
    | error e =>
      have hrun : s.dropIndex tab.name colNames os = .error (e, s) := by
        simp [SmManager.dropIndex, SmManager.pureCall, hget, hmeta, Except.mapError, bind,
          Except.bind]
      rw [hrun, TabEntry.getIndexMeta_error hmeta]
      exact ⟨by simp, rfl⟩
    | ok index =>
      obtain ⟨hindex, -⟩ := (h.catalog.tabs tab htab).getIndexMeta_ok hmeta
      obtain ⟨s', hdrop, hinv, hfhs, -⟩ := h.dropIndexCols hos htab hindex
      have hrun : s.dropIndex tab.name colNames os = .ok s' := by
        simp [SmManager.dropIndex, SmManager.pureCall, hget, hmeta, hdrop, Except.mapError, bind,
          Except.bind]
      rw [hrun]
      exact ⟨hinv, hfhs⟩

/-- The loop of `drop_table` over a copy of the indexes. -/
theorem dropIndexes (h : SmInv s) (hos : os.Grants) (htab : tab ∈ s.db.tabs)
    {indexes : List IndexEntry} (hnodup : indexes.Nodup)
    (hindexes : ∀ index, index ∈ tab.indexes ↔ index ∈ indexes) :
    ∃ s', indexes.foldlM (fun s index => SmManager.dropIndexCols s tab.name index.cols os) s =
    .ok s' ∧ SmInv s' ∧
      s'.fhs = s.fhs ∧ ∃ tab' ∈ s'.db.tabs, tab'.name = tab.name ∧ tab'.indexes = [] := by
  induction indexes generalizing s tab with
  | nil =>
    refine ⟨s, rfl, h, rfl, tab, htab, rfl, List.eq_nil_iff_forall_not_mem.mpr
      fun index hindex => ?_⟩
    cases (hindexes index).mp hindex
  | cons index indexes ih =>
    obtain ⟨hindex, hnodup⟩ := List.nodup_cons.mp hnodup
    obtain ⟨s₁, hrun, hinv, hfhs, tab₁, htab₁, hname, hmem⟩ :=
      h.dropIndexCols hos htab ((hindexes index).mpr List.mem_cons_self)
    have hrest : ∀ ix, ix ∈ tab₁.indexes ↔ ix ∈ indexes := by
      intro ix
      rw [hmem, hindexes, List.mem_cons]
      constructor
      · rintro ⟨rfl | hix, hne⟩
        · exact absurd rfl hne
        · exact hix
      · exact fun hix => ⟨.inr hix, fun heq => hindex (heq ▸ hix)⟩
    obtain ⟨s', hloop, hinv', hfhs', htab'⟩ := ih hinv htab₁ hnodup hrest
    rw [hname] at hloop htab'
    exact ⟨s', by rw [List.foldlM_cons, hrun]; exact hloop, hinv', hfhs'.trans hfhs, htab'⟩

/-- The last steps of `drop_table`, for a table without an index. -/
theorem eraseTable (h : SmInv s) (htab : tab ∈ s.db.tabs) (hindexes : tab.indexes = [])
    (hfd : s.fhs tab.name = some fd) :
    SmInv
      { db := s.db.eraseTable tab.name
        fhs := Function.update s.fhs tab.name none
        ihs := s.ihs
        disk := s.disk.without tab.name fd
        metaText := (s.db.eraseTable tab.name).chars } where
  catalog := h.catalog.eraseTable
  disk := h.disk.without (h.opened _ _ (.inl hfd))
  fhs path := by
    rw [isSome_update_none, h.fhs]
    constructor
    · rintro ⟨hne, t, ht, rfl⟩
      exact ⟨t, SortedMap.mem_erase.mpr ⟨ht, hne⟩, rfl⟩
    · rintro ⟨t, ht, rfl⟩
      obtain ⟨ht, hne⟩ := SortedMap.mem_erase.mp ht
      exact ⟨hne, t, ht, rfl⟩
  ihs path := by
    rw [h.ihs, h.catalog.hasIndex_iff htab]
    constructor
    · rintro (⟨index, hindex, -⟩ | ⟨t, ht, hne, hindex⟩)
      · rw [hindexes] at hindex
        cases hindex
      · exact ⟨t, SortedMap.mem_erase.mpr ⟨ht, hne⟩, hindex⟩
    · rintro ⟨t, ht, hindex⟩
      obtain ⟨ht, hne⟩ := SortedMap.mem_erase.mp ht
      exact .inr ⟨t, ht, hne, hindex⟩
  opened path fd' hhandle := by
    rcases hhandle with hfh | hih
    · obtain ⟨hne, hfh⟩ := update_none_eq_some hfh
      exact h.opened_without hne (.inl hfh)
    · have hih : s.ihs path = some fd' := hih
      obtain ⟨t, ht, index, hindex, rfl⟩ := (h.ihs path).mp (by simp [hih])
      exact h.opened_without (indexName_ne (h.catalog.tabs tab htab).name) (.inr hih)
  metaText := rfl

/-- `drop_table` drops a table with its indexes, or throws and changes nothing. -/
theorem dropTable (h : SmInv s) (hos : os.Grants) (tabName : String) :
    Yields (fun s' => SmInv s' ∧ s.fhs tabName ≠ none ∧ s'.fhs = Function.update s.fhs tabName none)
      (fun e s' => e ≠ .assertion ∧ s' = s) (s.dropTable tabName os) := by
  cases hfind : SortedMap.find TabEntry.name tabName s.db.tabs with
  | none =>
    have hrun : s.dropTable tabName os = .error (.tableNotFound tabName, s) := by
      rw [SmManager.dropTable, if_pos (by simp [DbMeta.isTable, hfind])]
      rfl
    rw [hrun]
    exact ⟨by simp, rfl⟩
  | some tab =>
    have hget := DbMeta.getTable_eq hfind
    obtain ⟨htab, rfl⟩ := DbMeta.getTable_ok hget
    obtain ⟨s₁, hloop, hinv, hfhs, tab₁, htab₁, hname, hindexes⟩ :=
      h.dropIndexes hos htab (h.catalog.tabs tab htab).unique.of_map fun _ => Iff.rfl
    obtain ⟨fd, hfd⟩ := hinv.exists_table_handle htab₁
    have herase := hinv.eraseTable htab₁ hindexes hfd
    obtain ⟨d, hclose, hdestroy⟩ := hinv.disk.closeFile_destroyFile hos (hinv.opened _ _ (.inl hfd))
    rw [hname] at hfd hdestroy herase
    have hrun : s.dropTable tab.name os = .ok
        { db := s₁.db.eraseTable tab.name
          fhs := Function.update s₁.fhs tab.name none
          ihs := s₁.ihs
          disk := s₁.disk.without tab.name fd
          metaText := (s₁.db.eraseTable tab.name).chars } := by
      simp [SmManager.dropTable, DbMeta.isTable, hfind, hget, hloop, hfd, hclose, hdestroy,
        SmManager.pureCall,
        SmManager.diskCall, SmManager.flushMeta, Except.mapError, bind, Except.bind, pure,
          Except.pure]
    rw [hrun]
    refine ⟨herase, ?_, by rw [hfhs]⟩
    rw [← hfhs, hfd]
    simp

end SmInv

/-! ## Indexes -/

/-- The state while the entries of a new index are inserted. -/
def SmManager.filling (s : SmManager) (path : String) (fd : ℤ) : SmManager :=
  { s with disk := (s.disk.withFile path).withOpen path fd }

/-- Discarding the file undoes creating and opening it. -/
theorem discardIndex_filling (hos : os.Grants) (hfile : path ∉ s.disk.files)
    (hpath : s.disk.path2fd path = none)
    (hfd : s.disk.fd2path fd = none) : (s.filling path fd).discardIndex path fd os = .ok s := by
  have hclose : ((s.disk.withFile path).withOpen path fd).closeFile fd os =
    .ok (s.disk.withFile path) :=
    Directory.closeFile_withOpen hos hpath hfd
  have hdestroy := Directory.destroyFile_withFile hos hfile hpath
  simp [SmManager.discardIndex, SmManager.filling, SmManager.diskCall, hclose, hdestroy,
    Except.mapError, bind, Except.bind, pure, Except.pure]

/-- The scan ends, finds a key twice and discards the file, or stops at a record that cannot be
read. -/
theorem backFill_cases (hos : os.Grants) (hfile : path ∉ s.disk.files)
    (hpath : s.disk.path2fd path = none)
    (hfd : s.disk.fd2path fd = none) (rows : List ScannedRow) (ih : IxIndexHandle Bytes) :
    (s.filling path fd).backFill index colNames path fd os rows ih = .ok (s.filling path fd) ∨
    (s.filling path fd).backFill index colNames path fd os rows ih = .error
    (.indexExists index.tabName colNames, s) ∨
    (∃ e, (s.filling path fd).backFill index colNames path fd os rows ih =
      .error (.exec e, s.filling path fd)) ∨
    (s.filling path fd).backFill index colNames path fd os rows ih = .error
    (.assertion, s.filling path fd) := by
  induction rows generalizing ih with
  | nil => exact .inl rfl
  | cons row rows hrows =>
    obtain ⟨rid, _ | rec⟩ := row
    · exact .inr (.inr (.inl ⟨_, rfl⟩))
    rw [SmManager.backFill]
    split
    · exact .inr (.inr (.inr rfl))
    · refine .inr (.inl ?_)
      rw [discardIndex_filling hos hfile hpath hfd]
      rfl
    · split
      · exact .inr (.inr (.inr rfl))
      · next ih' _ _ => exact hrows ih'

/-- After the scan with its cleanup the file is there and open, or all is as before the call. -/
theorem catchAll_cases (hos : os.Grants) (hfile : path ∉ s.disk.files)
    (hpath : s.disk.path2fd path = none)
    (hfd : s.disk.fd2path fd = none) (rows : List ScannedRow) (ih : IxIndexHandle Bytes) :
    SmManager.catchAll path fd os ((s.filling path fd).backFill index colNames path fd os rows ih) =
    .ok (s.filling path fd) ∨ (∃ e, e ≠ .assertion ∧
      SmManager.catchAll path fd os ((s.filling path fd).backFill index colNames path fd os rows
        ih) = .error (e, s)) ∨
    ∃ s', SmManager.catchAll path fd os
    ((s.filling path fd).backFill index colNames path fd os rows ih) =
      .error (.assertion, s') := by
  rcases backFill_cases hos hfile hpath hfd rows ih with hfill | hfill | ⟨e, hfill⟩ | hfill <;>
    rw [hfill]
  · exact .inl rfl
  · refine .inr (.inl ⟨.indexExists index.tabName colNames, by simp, ?_⟩)
    simp [SmManager.catchAll, hfile, throw, throwThe, MonadExceptOf.throw]
  · refine .inr (.inl ⟨.exec e, by simp, ?_⟩)
    have hmem : path ∈ (s.filling path fd).disk.files := Finset.mem_insert_self path s.disk.files
    simp [SmManager.catchAll, hmem, discardIndex_filling hos hfile hpath hfd, throw, throwThe,
      MonadExceptOf.throw, bind, Except.bind]
  · exact .inr (.inr ⟨_, rfl⟩)

/-- The call reaches the check of the key length, and the key is too long. -/
def SmManager.KeyTooLong (s : SmManager) (tabName : String) (colNames : List String)
    (os : OsAnswer) : Prop :=
  ∃ tab cols, s.db.getTable tabName = .ok tab ∧ tab.isIndex colNames = false ∧
    colNames.mapM tab.getCol = .ok cols ∧
    indexName tabName cols ∉ s.disk.files ∧ os.creates = true ∧ colTotLen cols > IX_MAX_COL_LEN

/-- What `create_index` does when it throws. -/
def SmManager.Refused (s : SmManager) (tabName : String) (colNames : List String) (os : OsAnswer)
    (e : SmError) (s' : SmManager) : Prop :=
  e = .assertion ∨ (¬ s.KeyTooLong tabName colNames os ∧ s' = s) ∨
    (s.KeyTooLong tabName colNames os ∧ ∃ path ∉ s.disk.files, s' = s.filling path os.fd)

namespace SmInv

/-- The state with a new file that no handle names. -/
theorem filling (h : SmInv s) (hfile : path ∉ s.disk.files) (hfd : s.disk.fd2path fd = none) :
    SmInv (s.filling path fd) where
  catalog := h.catalog
  disk := h.disk.withFile.withOpen (Finset.mem_insert_self path s.disk.files)
    (h.disk.path2fd_eq_none hfile) hfd
  fhs := h.fhs
  ihs := h.ihs
  opened _ _ hhandle := h.opened_withOpen (h.disk.path2fd_eq_none hfile) hhandle
  metaText := h.metaText

/-- The state after `create_index`. -/
theorem addIndex (h : SmInv s) (htab : tab ∈ s.db.tabs) (hnew : tab.isIndex colNames = false)
    (hcols : colNames.mapM tab.getCol = .ok cols) (hpath : path = indexName tab.name cols)
    (hindex : index = ⟨tab.name, colTotLen cols, colNames.length, cols⟩) (hfit : KeysFit cols)
    (hfile : path ∉ s.disk.files) (hfd : s.disk.fd2path fd = none) :
    SmInv
      { db := s.db.setTable (tab.addIndex index)
        fhs := s.fhs
        ihs := emplace s.ihs path fd
        disk := (s.disk.withFile path).withOpen path fd
        metaText := (s.db.setTable (tab.addIndex index)).chars } := by
  have hfill := h.filling hfile hfd
  have hno : ¬ s.db.HasIndex path := by
    rw [← h.ihs]
    intro hsome
    obtain ⟨fd', hfd'⟩ := Option.isSome_iff_exists.mp hsome
    exact hfile (h.disk.exist path fd' (h.opened path fd' (.inr hfd')))
  have hcolsIndex : index.cols = cols := by rw [hindex]
  have hok : (tab.addIndex index).Ok := by
    rw [hindex]
    exact (h.catalog.tabs tab htab).addIndex hnew hcols hfit
  exact {
    catalog := h.catalog.setTable hok index fun ix hix => by
      rcases List.mem_append.mp hix with hix | hix
      · exact .inl ⟨tab, htab, rfl, hix⟩
      · rw [List.mem_singleton.mp hix]
        refine .inr ⟨rfl, ?_⟩
        rwa [hcolsIndex, show (tab.addIndex index).name = tab.name from rfl, ← hpath]
    disk := hfill.disk
    fhs := fun name => by
      rw [h.fhs, DbMeta.exists_name_setTable (tab.addIndex index) h.catalog.sorted htab rfl]
    ihs := fun name => by
      rw [isSome_emplace, h.ihs, DbMeta.hasIndex_setTable h.catalog.sorted,
        h.catalog.hasIndex_iff htab]
      constructor
      · rintro (rfl | ⟨ix, hix, rfl⟩ | hother)
        · exact .inl ⟨index, List.mem_append_right _
            (List.mem_singleton_self index), by rw [hcolsIndex, hpath]; rfl⟩
        · exact .inl ⟨ix, List.mem_append_left _ hix, rfl⟩
        · exact .inr hother
      · rintro (⟨ix, hix, rfl⟩ | hother)
        · rcases List.mem_append.mp hix with hix | hix
          · exact .inr (.inl ⟨ix, hix, rfl⟩)
          · rw [List.mem_singleton.mp hix, hcolsIndex, hpath]
            exact .inl rfl
        · exact .inr (.inr hother)
    opened := fun name fd' hhandle => by
      rcases hhandle with hfh | hih
      · exact hfill.opened name fd' (.inl hfh)
      · rcases emplace_eq_some hih with ⟨rfl, rfl⟩ | hih
        · exact Function.update_self ..
        · exact hfill.opened name fd' (.inr hih)
    metaText := rfl }

end SmInv

theorem keyTooLong_iff (os : OsAnswer) (hget : s.db.getTable tabName = .ok tab)
    (hnew : tab.isIndex colNames = false)
    (hcols : colNames.mapM tab.getCol = .ok cols) (hpath : path = indexName tabName cols) :
    s.KeyTooLong tabName colNames os ↔ path ∉ s.disk.files ∧ os.creates = true ∧
    colTotLen cols > IX_MAX_COL_LEN := by
  subst hpath
  constructor
  · rintro ⟨tab', cols', htab', -, hcols', hlong⟩
    rw [hget] at htab'
    cases htab'
    rw [hcols] at hcols'
    cases hcols'
    exact hlong
  · exact fun hlong => ⟨tab, cols, hget, hnew, hcols, hlong⟩

/-- The checks before the index manager is called. -/
theorem createIndex_checks (s : SmManager) (tabName : String) (colNames : List String)
    (rows : List ScannedRow) (os : OsAnswer) :
    (¬ s.KeyTooLong tabName colNames os ∧ ∃ e, s.createIndex tabName colNames rows os =
      .error (e, s)) ∨ ∃ tab cols, s.db.getTable tabName = .ok tab ∧ tab.isIndex colNames = false ∧
        colNames.mapM tab.getCol = .ok cols := by
  cases hget : s.db.getTable tabName with
  | error e =>
    refine .inl ⟨?_, e, ?_⟩
    · rintro ⟨tab, cols, htab, -⟩
      rw [hget] at htab
      cases htab
    · simp [SmManager.createIndex, SmManager.pureCall, hget, Except.mapError, bind, Except.bind]
  | ok tab =>
    cases hindex : tab.isIndex colNames with
    | true =>
      refine .inl ⟨?_, .indexExists tabName colNames, ?_⟩
      · rintro ⟨tab', cols, htab', hno, -⟩
        rw [hget] at htab'
        cases htab'
        rw [hindex] at hno
        cases hno
      · simp [SmManager.createIndex, SmManager.pureCall, hget, hindex, Except.mapError, bind,
          Except.bind, throw, throwThe, MonadExceptOf.throw]
    | false =>
      cases hcols : colNames.mapM tab.getCol with
      | error e =>
        refine .inl ⟨?_, e, ?_⟩
        · rintro ⟨tab', cols, htab', -, hcols', -⟩
          rw [hget] at htab'
          cases htab'
          rw [hcols] at hcols'
          cases hcols'
        · simp [SmManager.createIndex, SmManager.pureCall, hget, hindex, hcols, Except.mapError,
            bind, Except.bind]
      | ok cols => exact .inr ⟨tab, cols, rfl, hindex, hcols⟩

namespace SmInv

theorem registerIndex_eq (h : SmInv s) (htab : tab ∈ s.db.tabs)
    (hcols : ∀ col ∈ index.cols, col.name ∈ tab.cols.map ColEntry.name) :
    (s.filling path fd).registerIndex tab index path fd = .ok
      { db := s.db.setTable (tab.addIndex index)
        fhs := s.fhs
        ihs := emplace s.ihs path fd
        disk := (s.disk.withFile path).withOpen path fd
        metaText := (s.db.setTable (tab.addIndex index)).chars } := by
  have hflags := foldlM_setColIndex
    (b := fun _ => true) { s.filling path fd with ihs := emplace s.ihs path fd } s.db
    { tab with indexes := tab.indexes ++ [index] } (h.catalog.tabs tab htab).nodup hcols
  simp only [SmManager.filling] at hflags
  simp only [SmManager.registerIndex, SmManager.filling, hflags, bind, Except.bind]
  rfl

/-- With the new file there, `create_index` scans the table and registers the index. -/
theorem createIndex_eq (h : SmInv s) (hos : os.Grants) (hget : s.db.getTable tabName = .ok tab)
    (hnew : tab.isIndex colNames = false)
    (hcols : colNames.mapM tab.getCol = .ok cols) (hpath : path = indexName tabName cols)
    (hindex : index = ⟨tabName, colTotLen cols, colNames.length, cols⟩)
    (hfile : path ∉ s.disk.files)
    (hcreate : s.disk.createIndexFile tabName cols os = .ok (s.disk.withFile path))
    (rows : List ScannedRow) : s.createIndex tabName colNames rows os =
      (SmManager.catchAll path os.fd' os
        ((s.filling path os.fd').backFill index colNames path os.fd' os rows
        (Rmdb.createIndex Bytes (btreeOrderOf index.colTotLen).toNat))) >>= fun s =>
          s.registerIndex tab index path os.fd' := by
  obtain ⟨htab, rfl⟩ := DbMeta.getTable_ok hget
  have hopen : (s.disk.withFile path).openFile path os.fd' true =
      .ok (os.fd', (s.disk.withFile path).withOpen path os.fd') :=
    Directory.openFile_eq (Finset.mem_insert_self path s.disk.files) (h.disk.path2fd_eq_none hfile)
  obtain ⟨fh, hfh⟩ := h.exists_table_handle htab
  simp [SmManager.createIndex, SmManager.pureCall, SmManager.diskCall, hget, hnew, hcols,
    hcreate, ← hpath, hos.opens', hopen, hfh,
    Except.mapError, bind, Except.bind, SmManager.filling, hindex]

/-- `create_index` adds an index, or throws; then nothing has changed unless the key is too long. -/
theorem createIndex (h : SmInv s) (hgrants : os.Grants) (hfd : s.disk.fd2path os.fd = none)
    (hfd' : s.disk.fd2path os.fd' = none)
    (tabName : String) (colNames : List String) (rows : List ScannedRow) :
    Yields (fun s' => SmInv s' ∧ s'.fhs = s.fhs) (s.Refused tabName colNames os)
      (s.createIndex tabName colNames rows os) := by
  rcases createIndex_checks s tabName colNames rows os with
    ⟨hno, e, hrun⟩ | ⟨tab, cols, hget, hnew, hcols⟩
  · rw [hrun]
    exact .inr (.inl ⟨hno, rfl⟩)
  obtain ⟨htab, rfl⟩ := DbMeta.getTable_ok hget
  obtain ⟨path, hpath⟩ : ∃ path, path = indexName tab.name cols := ⟨_, rfl⟩
  have hlong := keyTooLong_iff os hget hnew hcols hpath
  rcases Directory.createIndexFile_cases h.disk hgrants hfd tab.name cols hpath with
    ⟨e, he, hno, hcreate⟩ | ⟨hfile, hos, hlen, hcreate⟩ | ⟨-, d, hcreate⟩ | ⟨hfile, hos,
      hfit, hcreate⟩
  · have hrun : s.createIndex tab.name colNames rows os = .error (e, s) := by
      simp [SmManager.createIndex, SmManager.pureCall, SmManager.diskCall, hget, hnew, hcols,
        hcreate, Except.mapError, bind, Except.bind]
    rw [hrun]
    refine .inr (.inl ⟨?_, rfl⟩)
    rw [hlong]
    rintro ⟨hfile, hos, -⟩
    rcases hno with hno | hno
    · exact hfile hno
    · rw [hno] at hos
      cases hos
  · have hrun : s.createIndex tab.name colNames rows os =
        .error (.invalidColLength (colTotLen cols), s.filling path os.fd) := by
      simp [SmManager.createIndex, SmManager.pureCall, SmManager.diskCall, hget, hnew, hcols,
        hcreate, Except.mapError, bind, Except.bind, SmManager.filling]
    rw [hrun]
    exact .inr (.inr ⟨hlong.mpr ⟨hfile, hos, hlen⟩, path, hfile, rfl⟩)
  · have hrun : s.createIndex tab.name colNames rows os =
        .error (.assertion, { s with disk := d }) := by
      simp [SmManager.createIndex, SmManager.pureCall, SmManager.diskCall, hget, hnew, hcols,
        hcreate, Except.mapError, bind, Except.bind]
    rw [hrun]
    exact .inl rfl
  obtain ⟨index, hindex⟩ : ∃ index : IndexEntry,
    index = ⟨tab.name, colTotLen cols, colNames.length, cols⟩ := ⟨_, rfl⟩
  have hnone := h.disk.path2fd_eq_none hfile
  have hrun := h.createIndex_eq hgrants hget hnew hcols hpath hindex hfile hcreate rows
  rcases catchAll_cases hgrants hfile hnone hfd' rows
    (Rmdb.createIndex Bytes (btreeOrderOf index.colTotLen).toNat) with
    hfill | ⟨e, he, hfill⟩ | ⟨s', hfill⟩ <;> rw [hrun, hfill]
  · have hregister : (s.filling path os.fd').registerIndex tab index path os.fd' = .ok _ :=
      h.registerIndex_eq htab fun col hcol => by
        rw [hindex] at hcol
        exact List.mem_map_of_mem ((TabEntry.mapM_getCol_ok hcols).2 col hcol)
    have hadd := h.addIndex htab hnew hcols hpath hindex hfit hfile hfd'
    rw [show (Except.ok (s.filling path os.fd') >>= fun s =>
      s.registerIndex tab index path os.fd') = .ok _ from hregister]
    exact ⟨hadd, rfl⟩
  · refine .inr (.inl ⟨?_, rfl⟩)
    rw [hlong]
    exact fun hlong => absurd hlong.2.2 (not_lt.mpr hfit.1)
  · exact .inl rfl

end SmInv

end

end Rmdb
