import Rmdb.System.Ddl

/-!
# Runs of data definition

An open database comes from `open_db`: on the directory that `create_db` makes, or on the one that
an earlier process left.  From there any calls of data definition follow, each of which returns or
throws.  Where the system refuses to open, close or remove a file in the middle of a call, the
catalog and the handles part.
-/

namespace Rmdb

/-! ## Calls -/

/-- The calls of data definition, with the records that the scan of `create_index` meets and the
answers of the operating system. -/
inductive DdlCall
  | createTable (tabName : String) (colDefs : List ColDef) (os : OsAnswer)
  | dropTable (tabName : String) (os : OsAnswer)
  | createIndex (tabName : String) (colNames : List String) (rows : List ScannedRow) (os : OsAnswer)
  | dropIndex (tabName : String) (colNames : List String) (os : OsAnswer)

namespace DdlCall

def run (s : SmManager) : DdlCall → Except (SmError × SmManager) SmManager
  | .createTable tabName colDefs os => s.createTable tabName colDefs os
  | .dropTable tabName os => s.dropTable tabName os
  | .createIndex tabName colNames rows os => s.createIndex tabName colNames rows os
  | .dropIndex tabName colNames os => s.dropIndex tabName colNames os

/-- The answers of the operating system. -/
def os : DdlCall → OsAnswer
  | .createTable _ _ os => os
  | .dropTable _ os => os
  | .createIndex _ _ _ os => os
  | .dropIndex _ _ os => os

/-- Names in `create_table` are identifiers and those of its columns differ; a file being opened
gets a descriptor that no open file has. -/
def Legal (s : SmManager) : DdlCall → Prop
  | .createTable tabName colDefs os =>
    ValidTable tabName colDefs ∧ s.disk.fd2path os.fd = none ∧ s.disk.fd2path os.fd' = none
  | .dropTable _ _ => True
  | .createIndex _ _ _ os => s.disk.fd2path os.fd = none ∧ s.disk.fd2path os.fd' = none
  | .dropIndex _ _ _ => True

end DdlCall

/-- A call returns or throws. -/
def DdlStep (s : SmManager) (call : DdlCall) (s' : SmManager) : Prop :=
  call.Legal s ∧ (call.run s = .ok s' ∨ ∃ e, e ≠ .assertion ∧ call.run s = .error (e, s'))

/-- The system refuses to open, close and remove no file in the call. -/
def SystemGrants (_ : SmManager) (call : DdlCall) : Prop := call.os.Grants

/-- No two files get one descriptor. -/
def Apart (fds : String → ℤ) (files : Finset String) : Prop :=
  ∀ p ∈ files, ∀ q ∈ files, fds p = fds q → p = q

/-- An open database, before the first call.  `create_db` passes the name to a shell, which takes
one word. -/
inductive Opened : SmManager → Prop
  | create {dbName : String} {fds : String → ℤ} {s : SmManager} : IsWord dbName →
      Apart fds (createDb dbName).1 →
      openDb (createDb dbName).1 (createDb dbName).2 fds = .ok s → Opened s
  | reopen {s s' s'' : SmManager} {calls : List DdlCall} {fds : String → ℤ} : Opened s →
      Run (Meeting SystemGrants DdlStep) s calls s' → Apart fds s'.disk.files →
        openDb s'.disk.files s'.metaText fds = .ok s'' → Opened s''

theorem SmInv.step {s s' : SmManager} {call : DdlCall} (h : SmInv s)
    (hstep : Meeting SystemGrants DdlStep s call s') : SmInv s' := by
  obtain ⟨hos, hlegal, hrun⟩ := hstep
  have hyields : Yields SmInv (fun e s' => e ≠ .assertion → SmInv s') (call.run s) := by
    cases call with
    | createTable tabName colDefs os =>
      exact (h.createTable hos hlegal.1 hlegal.2.1 hlegal.2.2).mono (fun _ => And.left)
        fun e s' herr _ => herr.2 ▸ h
    | dropTable tabName os =>
      exact (h.dropTable hos tabName).mono (fun _ => And.left) fun e s' herr _ => herr.2 ▸ h
    | createIndex tabName colNames rows os =>
      refine (h.createIndex hos hlegal.1 hlegal.2 tabName colNames rows).mono (fun _ => And.left)
        fun e s' herr he => ?_
      rcases herr with herr | ⟨-, rfl⟩ | ⟨-, path, hfile, rfl⟩
      · exact absurd herr he
      · exact h
      · exact h.filling hfile hlegal.1
    | dropIndex tabName colNames os =>
      exact (h.dropIndex hos tabName colNames).mono (fun _ => And.left)
        fun e s' herr _ => herr.2 ▸ h
  rcases hrun with hok | ⟨e, he, herr⟩
  · exact hyields.of_ok hok
  · exact hyields.of_error herr he

/-! ## Opening -/

/-- A state of `open_db` on a directory: the files `T` are open as tables, and `I` as indexes. -/
structure Opening (fds : String → ℤ) (files : Finset String) (db : DbMeta) (metaText : List Char)
    (T I : String → Prop) (s : SmManager) : Prop where
  db : s.db = db
  metaText : s.metaText = metaText
  files : s.disk.files = files
  disk : s.disk.Ok
  fds : ∀ path fd, s.disk.path2fd path = some fd → fd = fds path
  fhs : ∀ path, (s.fhs path).isSome = true ↔ T path
  ihs : ∀ path, (s.ihs path).isSome = true ↔ I path
  opened : ∀ path fd, s.fhs path = some fd ∨ s.ihs path = some fd → s.disk.path2fd path = some fd

theorem exists_mem_cons_or {α : Type} {Q : α → Prop} {R : Prop} {a : α} {l : List α} :
    (∃ x ∈ l, Q x) ∨ Q a ∨ R ↔ (∃ x ∈ a :: l, Q x) ∨ R := by
  rw [List.exists_mem_cons_iff, or_assoc, or_left_comm]

namespace Opening

variable {fds : String → ℤ} {files : Finset String} {db : DbMeta} {metaText : List Char}
  {T I : String → Prop}
  {s : SmManager} {path : String} {tab : TabEntry}

theorem congr {T' I' : String → Prop} (h : Opening fds files db metaText T I s)
    (hT : ∀ p, T p ↔ T' p) (hI : ∀ p, I p ↔ I' p) : Opening fds files db metaText T' I' s :=
  { h with fhs := fun p => (h.fhs p).trans (hT p), ihs := fun p => (h.ihs p).trans (hI p) }

/-- One more file is opened. -/
theorem openFile (h : Opening fds files db metaText T I s) (hfds : Apart fds files)
    (hpath : path ∈ files) :
    ∃ d, s.disk.openFile path (fds path) true = .ok (fds path, d) ∧
    d.path2fd path = some (fds path) ∧ Opening fds files db metaText T I { s with disk := d } := by
  cases hopen : s.disk.path2fd path with
  | some fd =>
    obtain rfl := h.fds path fd hopen
    exact ⟨s.disk, by simp [Directory.openFile, hopen, pure, Except.pure], hopen, h⟩
  | none =>
    have hfile : path ∈ s.disk.files := h.files ▸ hpath
    have hfd : s.disk.fd2path (fds path) = none := by
      by_contra hne
      obtain ⟨p, hp⟩ := Option.ne_none_iff_exists'.mp hne
      have hp := (h.disk.inverse _ _).mpr hp
      have hfile' : p ∈ files := h.files ▸ h.disk.exist p _ hp
      rw [← hfds path hpath p hfile' (h.fds p _ hp), hopen] at hp
      cases hp
    refine ⟨s.disk.withOpen path (fds path), Directory.openFile_eq hfile hopen,
      Function.update_self .., ?_⟩
    exact {
      db := h.db
      metaText := h.metaText
      files := h.files
      disk := h.disk.withOpen hfile hopen hfd
      fds := fun p fd hp => by
        by_cases hpp : p = path
        · subst hpp
          have hfd : fds p = fd := by simpa [Directory.withOpen] using hp
          exact hfd.symm
        · exact h.fds p fd (by simpa [Directory.withOpen, hpp] using hp)
      fhs := h.fhs
      ihs := h.ihs
      opened := fun p fd hp => Directory.withOpen_path2fd (h.opened p fd hp) hopen }

theorem openTableFile (h : Opening fds files db metaText T I s)
    (hpath : s.disk.path2fd path = some (fds path)) :
    Opening fds files db metaText (fun p => path = p ∨ T p) I
    { s with fhs := emplace s.fhs path (fds path) } where
  db := h.db
  metaText := h.metaText
  files := h.files
  disk := h.disk
  fds := h.fds
  fhs p := by rw [isSome_emplace, h.fhs, eq_comm]
  ihs := h.ihs
  opened p fd hp := by
    rcases hp with hp | hp
    · rcases emplace_eq_some hp with ⟨rfl, rfl⟩ | hp
      · exact hpath
      · exact h.opened p fd (.inl hp)
    · exact h.opened p fd (.inr hp)

theorem openIndexFile (h : Opening fds files db metaText T I s)
    (hpath : s.disk.path2fd path = some (fds path)) :
    Opening fds files db metaText T (fun p => path = p ∨ I p)
    { s with ihs := emplace s.ihs path (fds path) } where
  db := h.db
  metaText := h.metaText
  files := h.files
  disk := h.disk
  fds := h.fds
  fhs := h.fhs
  ihs p := by rw [isSome_emplace, h.ihs, eq_comm]
  opened p fd hp := by
    rcases hp with hp | hp
    · exact h.opened p fd (.inl hp)
    · rcases emplace_eq_some hp with ⟨rfl, rfl⟩ | hp
      · exact hpath
      · exact h.opened p fd (.inr hp)

/-- The loop over the indexes of a table. -/
theorem openIndexes (h : Opening fds files db metaText T I s) (hfds : Apart fds files)
    (tabName : String)
    {indexes : List IndexEntry} (hfiles : ∀ index ∈ indexes, indexName tabName index.cols ∈ files) :
    ∃ s', indexes.foldlM (fun (s : SmManager) index => do
        let ixName := indexName tabName index.cols
        let (fd, d) ← s.diskCall (s.disk.openFile ixName (fds ixName) true)
        return { s with disk := d, ihs := emplace s.ihs ixName fd }) s = .ok s' ∧
      Opening fds files db metaText T
        (fun p => (∃ index ∈ indexes, indexName tabName index.cols = p) ∨ I p) s' := by
  induction indexes generalizing s I with
  | nil =>
    refine ⟨s, rfl, ?_⟩
    simpa using h
  | cons index indexes ih =>
    obtain ⟨hfile, hfiles⟩ := List.forall_mem_cons.mp hfiles
    obtain ⟨d, hopen, hpath, hd⟩ := h.openFile hfds hfile
    obtain ⟨s', hrun, hs'⟩ := ih (hd.openIndexFile hpath) hfiles
    refine ⟨s', ?_, ?_⟩
    · rw [List.foldlM_cons]
      simp only [hopen, SmManager.diskCall, Except.mapError, bind, Except.bind, pure,
        Except.pure] at hrun ⊢
      exact hrun
    · exact hs'.congr (fun _ => Iff.rfl) fun _ => exists_mem_cons_or

/-- A table with its indexes is opened. -/
theorem openTable (h : Opening fds files db metaText T I s) (hfds : Apart fds files)
    (hfile : tab.name ∈ files)
    (hfiles : ∀ index ∈ tab.indexes, indexName tab.name index.cols ∈ files) :
    ∃ s', s.openTable fds tab = .ok s' ∧ Opening fds files db metaText (fun p => tab.name = p ∨ T p)
      (fun p => (∃ index ∈ tab.indexes, indexName tab.name index.cols = p) ∨ I p) s' := by
  obtain ⟨d, hopen, hpath, hd⟩ := h.openFile hfds hfile
  obtain ⟨s', hrun, hs'⟩ := (hd.openTableFile hpath).openIndexes hfds tab.name hfiles
  refine ⟨s', ?_, hs'⟩
  simp only [SmManager.openTable, hopen, SmManager.diskCall, Except.mapError, bind,
    Except.bind] at hrun ⊢
  exact hrun

/-- The loop over the tables. -/
theorem openTables (h : Opening fds files db metaText T I s) (hfds : Apart fds files)
    {tabs : List TabEntry}
    (hfiles : ∀ tab ∈ tabs, tab.name ∈ files ∧ ∀ index ∈ tab.indexes,
      indexName tab.name index.cols ∈ files) :
    ∃ s', tabs.foldlM (SmManager.openTable fds) s = .ok s' ∧
      Opening fds files db metaText (fun p => (∃ tab ∈ tabs, tab.name = p) ∨ T p)
        (fun p => (∃ tab ∈ tabs, ∃ index ∈ tab.indexes, indexName tab.name index.cols = p) ∨
          I p) s' := by
  induction tabs generalizing s T I with
  | nil =>
    refine ⟨s, rfl, ?_⟩
    simpa using h
  | cons tab tabs ih =>
    obtain ⟨⟨hfile, hindexes⟩, hfiles⟩ := List.forall_mem_cons.mp hfiles
    obtain ⟨s₁, hrun₁, hs₁⟩ := h.openTable hfds hfile hindexes
    obtain ⟨s', hrun, hs'⟩ := ih hs₁ hfiles
    refine ⟨s', ?_, ?_⟩
    · rw [List.foldlM_cons, hrun₁]
      exact hrun
    · exact hs'.congr (fun _ => exists_mem_cons_or) fun _ => exists_mem_cons_or

end Opening

/-- `open_db` on a directory with the files of a catalog and its text makes that catalog. -/
theorem smInv_of_openDb {files : Finset String} {db : DbMeta} {fds : String → ℤ} {s : SmManager}
    (hdb : db.Ok)
    (hfiles : ∀ tab ∈ db.tabs, tab.name ∈ files ∧ ∀ index ∈ tab.indexes,
      indexName tab.name index.cols ∈ files)
    (hfds : Apart fds files) (hopen : openDb files db.chars fds = .ok s) : SmInv s ∧ s.db = db := by
  have hread := readMeta_chars hdb.name hdb.sorted fun tab htab => (hdb.tabs tab htab).writable
  have hstart : Opening fds files db db.chars (fun _ => False) (fun _ => False)
      ⟨db, fun _ => none, fun _ => none, ⟨files, fun _ => none, fun _ => none⟩, db.chars⟩ :=
    ⟨rfl, rfl, rfl, ⟨by simp, by simp⟩, by simp, by simp, by simp, by simp⟩
  obtain ⟨s₁, hrun, hs₁⟩ := hstart.openTables hfds hfiles
  simp only [or_false] at hs₁
  have hlog : LOG_FILE_NAME ∈ files := by
    by_contra hlog
    have hlog₁ : LOG_FILE_NAME ∉ s₁.disk.files := by rwa [hs₁.files]
    have hnone := hs₁.disk.path2fd_eq_none hlog₁
    simp [openDb, hread, hrun, Directory.openFile, hnone, hlog₁, SmManager.diskCall,
      Except.mapError, bind, Except.bind,
      throw, throwThe, MonadExceptOf.throw] at hopen
  obtain ⟨d, hopenLog, -, hd⟩ := hs₁.openFile hfds hlog
  have hrun' : openDb files db.chars fds = .ok { s₁ with disk := d } := by
    simp [openDb, hread, hrun, hopenLog, SmManager.diskCall, Except.mapError, bind, Except.bind,
      pure, Except.pure]
  rw [hrun'] at hopen
  cases hopen
  have hdbEq : s₁.db = db := hd.db
  refine ⟨?_, hdbEq⟩
  exact {
    catalog := hdbEq ▸ hdb
    disk := hd.disk
    fhs := fun path => by
      rw [hd.fhs]
      exact hdbEq ▸ Iff.rfl
    ihs := fun path => by
      rw [hd.ihs]
      exact hdbEq ▸ Iff.rfl
    opened := hd.opened
    metaText := hd.metaText.trans (hdbEq ▸ rfl) }

/-- The files of the catalog are there. -/
theorem SmInv.files {s : SmManager} (h : SmInv s) (tab : TabEntry) (htab : tab ∈ s.db.tabs) :
    tab.name ∈ s.disk.files ∧ ∀ index ∈ tab.indexes,
    indexName tab.name index.cols ∈ s.disk.files := by
  obtain ⟨fd, hfd⟩ := h.exists_table_handle htab
  refine ⟨h.disk.exist _ _ (h.opened _ _ (.inl hfd)), fun index hindex => ?_⟩
  obtain ⟨fd, hfd⟩ := h.exists_handle htab hindex
  exact h.disk.exist _ _ (h.opened _ _ (.inr hfd))

theorem Opened.smInv {s : SmManager} (h : Opened s) : SmInv s := by
  induction h with
  | create hname hfds hopen =>
    have hdb : DbMeta.Ok ⟨_, []⟩ := ⟨hname, List.Pairwise.nil, by simp, by simp⟩
    exact (smInv_of_openDb hdb (by simp) hfds hopen).1
  | reopen _ hrun hfds hopen ih =>
    have hinv := hrun.invariant (fun _ _ _ hstep h => SmInv.step h hstep) ih
    rw [hinv.metaText] at hopen
    exact (smInv_of_openDb hinv.catalog hinv.files hfds hopen).1

/-- In every run from an open database in which the system refuses nothing. -/
theorem smInv_of_run {s s' : SmManager} {calls : List DdlCall} (hopen : Opened s)
    (hrun : Run (Meeting SystemGrants DdlStep) s calls s') : SmInv s' :=
  hrun.invariant (fun _ _ _ hstep h => SmInv.step h hstep) hopen.smInv

/-! ## Agreement -/

/-- The catalog, the handles and `db.meta` agree. -/
structure CatalogAgrees (s : SmManager) : Prop where
  tables : ∀ name, (s.fhs name).isSome = true ↔ ∃ tab ∈ s.db.tabs, tab.name = name
  indexes : ∀ name, (s.ihs name).isSome = true ↔
    ∃ tab ∈ s.db.tabs, ∃ index ∈ tab.indexes, indexName tab.name index.cols = name
  unique : ∀ tab ∈ s.db.tabs, (tab.indexes.map IndexEntry.colNames).Nodup
  flags : ∀ tab ∈ s.db.tabs, ∀ col ∈ tab.cols, col.index = true ↔ ∃ index ∈ tab.indexes,
    col.name ∈ index.colNames
  metaText : readMeta s.metaText = some s.db

/-- After any calls of data definition on an open database in which the system refuses to open,
close and remove no file, the catalog, the handles and `db.meta` agree. -/
theorem catalog_agrees {s s' : SmManager} {calls : List DdlCall} (hopen : Opened s)
    (hrun : Run (Meeting SystemGrants DdlStep) s calls s') : CatalogAgrees s' := by
  have h := smInv_of_run hopen hrun
  exact {
    tables := h.fhs
    indexes := h.ihs
    unique := fun tab htab => (h.catalog.tabs tab htab).unique
    flags := fun tab htab col hcol => by
      rw [(h.catalog.tabs tab htab).flags col hcol, TabEntry.stillIndexed_iff]
    metaText := by
      rw [h.metaText]
      exact readMeta_chars h.catalog.name h.catalog.sorted fun tab htab =>
        (h.catalog.tabs tab htab).writable }

/-- A new database with the table `t (a CHAR(300))`. -/
theorem exists_oneTable {p : SmManager → Bool}
    (h : ((openDb (createDb "db").1 (createDb "db").2 fun path =>
      if path = LOG_FILE_NAME then 3 else 4).toOption.any
      fun s => decide (s.disk.fd2path 4 = none) &&
        (s.createTable "t" [⟨"a", .string, 300⟩] (.grant 4 4)).toOption.any p) = true) :
    ∃ s₀ s, Opened s₀ ∧ Run (Meeting SystemGrants DdlStep) s₀
    [.createTable "t" [⟨"a", .string, 300⟩] (.grant 4 4)] s ∧ p s = true := by
  obtain ⟨s₀, hopen, h⟩ := exists_ok_of_any h
  rw [Bool.and_eq_true, decide_eq_true_eq] at h
  obtain ⟨s, hcreate, hp⟩ := exists_ok_of_any h.2
  have hvalid : ValidTable "t" [⟨"a", .string, 300⟩] := ⟨by decide, by decide, by decide⟩
  refine ⟨s₀, s, .create (isWord_of_isIdentifier (by decide)) (by unfold Apart; decide) hopen, ?_,
    hp⟩
  exact .single ⟨OsAnswer.grants_grant 4 4, ⟨hvalid, h.1, h.1⟩, .inl hcreate⟩

/-- A table gets an index, which is dropped again. -/
theorem catalog_agrees_one_index : ∃ s s', Opened s ∧ Run (Meeting SystemGrants DdlStep) s
    ([.createTable "t" [⟨"a", .string, 300⟩] (.grant 4 4)] ++
      [.createIndex "t" ["a"] [] (.grant 5 5)] ++
      [.dropIndex "t" ["a"] (.grant 6 6)]) s' ∧ CatalogAgrees s' := by
  have hrun : ((openDb (createDb "db").1 (createDb "db").2 fun path =>
    if path = LOG_FILE_NAME then 3 else 4).toOption.any
      fun s => decide (s.disk.fd2path 4 = none) &&
        (s.createTable "t" [⟨"a", .string, 300⟩] (.grant 4 4)).toOption.any fun s =>
          decide (s.disk.fd2path 5 = none) &&
          (s.createIndex "t" ["a"] [] (.grant 5 5)).toOption.any fun s =>
            (s.dropIndex "t" ["a"] (.grant 6 6)).toOption.any fun _ => true) = true := by
              decide +kernel
  obtain ⟨s₀, s, hopen, hrun, h⟩ := exists_oneTable hrun
  rw [Bool.and_eq_true, decide_eq_true_eq] at h
  obtain ⟨hfd, h⟩ := h
  obtain ⟨s₁, hcreate, h⟩ := exists_ok_of_any h
  obtain ⟨s', hdrop, -⟩ := exists_ok_of_any h
  have hstep : Meeting SystemGrants DdlStep s (.createIndex "t" ["a"] [] (.grant 5 5)) s₁ :=
    ⟨OsAnswer.grants_grant 5 5, ⟨hfd, hfd⟩, .inl hcreate⟩
  have hstep' : Meeting SystemGrants DdlStep s₁ (.dropIndex "t" ["a"] (.grant 6 6)) s' :=
    ⟨OsAnswer.grants_grant 6 6, trivial, .inl hdrop⟩
  have hrun' := (hrun.snoc hstep).snoc hstep'
  exact ⟨s₀, s', hopen, hrun', catalog_agrees hopen hrun'⟩

/-- Where the system refuses to open the file of a new table the second time, the table is in the
catalog and has no handle. -/
theorem not_catalog_agrees : ¬ ∀ (s s' : SmManager) (calls : List DdlCall), Opened s →
    Run DdlStep s calls s' → CatalogAgrees s' := by
  intro hall
  let os : OsAnswer := { OsAnswer.grant 4 4 with opens' := false }
  have hrun : ((openDb (createDb "db").1 (createDb "db").2 fun path =>
    if path = LOG_FILE_NAME then 3 else 4).toOption.any
      fun s => decide (s.disk.fd2path 4 = none) &&
        match s.createTable "t" [⟨"a", .string, 300⟩]
          { OsAnswer.grant 4 4 with opens' := false } with
        | .ok _ => false
        | .error (e, s') => decide (e = .unixError) &&
          (decide (s'.fhs "t" = none) && s'.db.isTable "t")) = true := by decide +kernel
  obtain ⟨s, hopen, h⟩ := exists_ok_of_any hrun
  rw [Bool.and_eq_true, decide_eq_true_eq] at h
  obtain ⟨hfd, h⟩ := h
  split at h
  · cases h
  · next e s' hthrow =>
    simp only [Bool.and_eq_true, decide_eq_true_eq] at h
    obtain ⟨rfl, hnone, htable⟩ := h
    have hvalid : ValidTable "t" [⟨"a", .string, 300⟩] := ⟨by decide, by decide, by decide⟩
    have hopened : Opened s :=
      .create (isWord_of_isIdentifier (by decide)) (by unfold Apart; decide) hopen
    have hstep : DdlStep s (.createTable "t" [⟨"a", .string, 300⟩] os) s' :=
      ⟨⟨hvalid, hfd, hfd⟩, .inr ⟨.unixError, by simp, hthrow⟩⟩
    obtain ⟨tab, htab⟩ := Option.isSome_iff_exists.1 htable
    have hsome := ((hall s s' _ hopened (.single hstep)).tables "t").2
      ⟨tab, List.mem_of_find?_eq_some htab, by simpa using List.find?_some htab⟩
    rw [hnone] at hsome
    cases hsome

/-! ## Refused indexes -/

/-- The catalog, the handles of indexes, the files and the open files are the same. -/
structure SameCatalog (s s' : SmManager) : Prop where
  db : s'.db = s.db
  ihs : s'.ihs = s.ihs
  files : s'.disk.files = s.disk.files
  path2fd : s'.disk.path2fd = s.disk.path2fd
  fd2path : s'.disk.fd2path = s.disk.fd2path

/-- Where the system refuses nothing, a `create_index` that throws changes nothing exactly if it
does not get as far as a key that is too long. -/
theorem refused_index_changes_nothing_iff {s₀ s s' : SmManager} {calls : List DdlCall}
    {tabName : String}
    {colNames : List String} {rows : List ScannedRow} {os : OsAnswer} {e : SmError}
    (hopen : Opened s₀)
    (hrun : Run (Meeting SystemGrants DdlStep) s₀ calls s) (hos : os.Grants)
    (hlegal : (DdlCall.createIndex tabName colNames rows os).Legal s)
    (hthrow : s.createIndex tabName colNames rows os = .error (e, s')) (he : e ≠ .assertion) :
    SameCatalog s s' ↔ ¬ s.KeyTooLong tabName colNames os := by
  have h := smInv_of_run hopen hrun
  rcases (h.createIndex hos hlegal.1 hlegal.2 tabName colNames rows).of_error hthrow with
    herr | ⟨hno, rfl⟩ | ⟨hlong, path, hfile, rfl⟩
  · exact absurd herr he
  · exact ⟨fun _ => hno, fun _ => ⟨rfl, rfl, rfl, rfl, rfl⟩⟩
  · constructor
    · intro hsame
      have hfiles : insert path s.disk.files = s.disk.files := hsame.files
      exact absurd (Finset.insert_eq_self.mp hfiles) hfile
    · exact fun hno => absurd hlong hno

/-- A record of the table is locked: nothing has changed, and the key is short enough. -/
theorem refused_index_changes_nothing_locked : ∃ s₀ s s' e, Opened s₀ ∧
    Run (Meeting SystemGrants DdlStep) s₀ [.createTable "t" [⟨"a", .string, 300⟩] (.grant 4 4)] s ∧
    s.createIndex "t" ["a"] [(⟨1, 0⟩, .error .transactionAbort)] (.grant 5 5) = .error (e, s') ∧
    (SameCatalog s s' ↔ ¬ s.KeyTooLong "t" ["a"] (.grant 5 5)) := by
  have hrun : ((openDb (createDb "db").1 (createDb "db").2 fun path =>
    if path = LOG_FILE_NAME then 3 else 4).toOption.any
      fun s => decide (s.disk.fd2path 4 = none) &&
        (s.createTable "t" [⟨"a", .string, 300⟩] (.grant 4 4)).toOption.any fun s =>
          decide (s.disk.fd2path 5 = none) &&
          match s.createIndex "t" ["a"] [(⟨1, 0⟩, .error .transactionAbort)] (.grant 5 5) with
          | .ok _ => false
          | .error (e, _) => decide (e ≠ .assertion)) = true := by decide +kernel
  obtain ⟨s₀, s, hopen, hrun, h⟩ := exists_oneTable hrun
  rw [Bool.and_eq_true, decide_eq_true_eq] at h
  obtain ⟨hfd, h⟩ := h
  split at h
  · cases h
  · next e s' hthrow =>
    exact ⟨s₀, s, s', e, hopen, hrun, hthrow,
      refused_index_changes_nothing_iff hopen hrun (OsAnswer.grants_grant 5 5) ⟨hfd, hfd⟩ hthrow
        (of_decide_eq_true h)⟩

/-- The column `a CHAR(300)` twice is too long: the file of the index stays. -/
theorem not_refused_index_changes_nothing :
    ¬ ∀ (s₀ s s' : SmManager) (calls : List DdlCall) (tabName : String)
    (colNames : List String) (rows : List ScannedRow) (os : OsAnswer) (e : SmError), Opened s₀ →
    Run (Meeting SystemGrants DdlStep) s₀ calls s → os.Grants →
    (DdlCall.createIndex tabName colNames rows os).Legal s →
    s.createIndex tabName colNames rows os = .error (e, s') →
    e ≠ .assertion → SameCatalog s s' := by
  intro hall
  have hrun : ((openDb (createDb "db").1 (createDb "db").2 fun path =>
    if path = LOG_FILE_NAME then 3 else 4).toOption.any
      fun s => decide (s.disk.fd2path 4 = none) &&
        (s.createTable "t" [⟨"a", .string, 300⟩] (.grant 4 4)).toOption.any fun s =>
          decide (s.disk.fd2path 5 = none) &&
          match s.createIndex "t" ["a", "a"] [] (.grant 5 5) with
          | .ok _ => false
          | .error (e, s') => decide (e = .invalidColLength 600) &&
            (decide ("t_a_a.idx" ∈ s'.disk.files) && decide ("t_a_a.idx" ∉ s.disk.files))) =
              true := by decide +kernel
  obtain ⟨s₀, s, hopen, hrun, h⟩ := exists_oneTable hrun
  rw [Bool.and_eq_true, decide_eq_true_eq] at h
  obtain ⟨hfd, h⟩ := h
  split at h
  · cases h
  · next e s' hthrow =>
    simp only [Bool.and_eq_true, decide_eq_true_eq] at h
    obtain ⟨rfl, hnew, hold⟩ := h
    have hsame := hall s₀ s s' _ "t" ["a", "a"] [] (.grant 5 5) _ hopen hrun
      (OsAnswer.grants_grant 5 5) ⟨hfd, hfd⟩ hthrow (by simp)
    rw [hsame.files] at hnew
    exact hold hnew

end Rmdb
