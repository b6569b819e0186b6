import Rmdb.Record.Probes
import Rmdb.Recovery.RecoveryManager
import Rmdb.System.IndexFill

/-!
# Indexes in recovery

`analyze` closes, destroys, creates and opens again every index of the tables that the log names in
INSERT, UPDATE and DELETE records, and `rebuild_indexes_from_table`, at the end of `undo`, does so
once more and inserts the records of the tables.  A table that is not in the catalog makes
`get_table` throw.

The calls of the system are answered in the state in which they are made.
-/

namespace Rmdb

/-- The records that `RmScan` comes by in a file, as `get_record` reads them. -/
def RmFile.scannedRows (f : RmFile) : List (Rid × Bytes) :=
  (RmScan.ridsFrom f (RmScan.pagesLeft f RM_FIRST_RECORD_PAGE) RM_FIRST_RECORD_PAGE (-1)).filterMap
    fun rid =>
    (f.records rid).map fun row => (rid, row)

theorem RmFile.live_of_records {f : RmFile} {rid : Rid} {row : Bytes}
    (h : f.records rid = some row) : f.Live rid := by
  have hvalid := validRid_of_records h
  refine ⟨hvalid, ?_⟩
  by_contra hset
  have hunused : (f.slotAt rid).used = false := Bool.eq_false_of_not_eq_true hset
  rw [records_of_validRid hvalid, Slot.val_of_not_used hunused] at h
  cases h

/-- These are the records of the file. -/
theorem RmFile.mem_scannedRows {f : RmFile} {rid : Rid} {row : Bytes} :
    (rid, row) ∈ f.scannedRows ↔ f.records rid = some row := by
  constructor
  · intro h
    obtain ⟨rid', -, hrow⟩ := List.mem_filterMap.1 h
    obtain ⟨row', hrecord, heq⟩ := Option.map_eq_some_iff.1 hrow
    obtain ⟨rfl, rfl⟩ := Prod.mk.inj heq
    exact hrecord
  · intro h
    have hlive := RmFile.live_of_records h
    exact List.mem_filterMap.2 ⟨rid, RmScan.mem_ridsFrom_first.2 hlive, by rw [h]; rfl⟩

namespace SmManager

/-- An index is closed, destroyed, created and opened. -/
def recreateIndex (os : SmManager → OsAnswer) (s : SmManager) (tabName : String)
    (cols : List ColEntry) : Except (SmError × SmManager) SmManager := do
  let ixName := indexName tabName cols
  let answer := os s
  let s ← match s.ihs ixName with
    | some fd => do
      let d ← s.diskCall (s.disk.closeFile fd answer)
      pure { s with disk := d, ihs := Function.update s.ihs ixName none }
    | none => pure s
  let d ← s.diskCall (s.disk.destroyFile ixName answer)
  let s := { s with disk := d }
  let answer := os s
  let d ← s.diskCall (s.disk.createIndexFile tabName cols answer)
  let s := { s with disk := d }
  let (fd, d) ← s.diskCall (s.disk.openFile ixName answer.fd' answer.opens')
  return { s with disk := d, ihs := emplace s.ihs ixName fd }

/-- The last loop of `analyze`, over the tables in some order. -/
def resetIndexes (os : SmManager → OsAnswer) (tables : List String) (s : SmManager) :
    Except (SmError × SmManager) SmManager :=
  tables.foldlM (fun s tabName => do
    let tab ← s.pureCall (s.db.getTable tabName)
    tab.indexes.foldlM (fun s index => s.recreateIndex os tab.name index.cols) s) s

/-- The trees of indexes by the names of their files. -/
abbrev Trees := String → Option (IxIndexHandle Bytes)

/-- The loop of `rebuild_indexes_from_table` over the indexes of a table with the file `f`. -/
def rebuildTable (os : SmManager → OsAnswer) (f : RmFile) (tab : TabEntry) (s : SmManager)
    (trees : Trees) : Except (SmError × SmManager) (SmManager × Trees) :=
  tab.indexes.foldlM (fun (s, trees) index => do
    let s ← s.recreateIndex os tab.name index.cols
    let btreeOrder := (btreeOrderOf (colTotLen index.cols)).toNat
    match rebuildIndex ⟨index.tabName, index.cols.map ColEntry.colMeta⟩ btreeOrder
      f.scannedRows with
    | none => throw (.assertion, s)
    | some ih =>
      return (s, Function.update trees (indexName tab.name index.cols) (some ih))) (s, trees)

/-- `rebuild_indexes_from_table`. -/
def rebuildIndexes (os : SmManager → OsAnswer) (tabs : Tables) (tables : List String)
    (s : SmManager) : Except (SmError × SmManager) (SmManager × Trees) :=
  tables.foldlM (fun (s, trees) tabName =>
    match tabs tabName with
    | none => return (s, trees)
    | some f => do
      let tab ← s.pureCall (s.db.getTable tabName)
      s.rebuildTable os f tab trees) (s, fun _ => none)

end SmManager

/-! ## The system -/

/-- A file being opened gets a descriptor that no open file has. -/
def FreshFds (os : SmManager → OsAnswer) : Prop :=
  ∀ s : SmManager, s.disk.Ok → s.disk.fd2path (os s).fd = none ∧ s.disk.fd2path (os s).fd' = none

/-- The system refuses to create, open, close and remove no file. -/
structure GrantsAll (os : SmManager → OsAnswer) : Prop where
  creates : ∀ s, (os s).creates = true
  grants : ∀ s, (os s).Grants

section

variable {s : SmManager} {os : SmManager → OsAnswer} {tab : TabEntry} {index : IndexEntry}

/-! ## One index -/

/-- The file of an index is made when there is none and the keys fit. -/
theorem Directory.createIndexFile_eq {d : Directory} {os : OsAnswer} {filename path : String}
    {cols : List ColEntry} (hd : d.Ok) (hgrants : os.Grants) (hcreates : os.creates = true)
    (hfresh : d.fd2path os.fd = none) (hpath : path = indexName filename cols)
    (hfile : path ∉ d.files) (hkeys : KeysFit cols) :
    d.createIndexFile filename cols os = .ok (d.withFile path) := by
  obtain ⟨hlen, horder⟩ := hkeys
  rcases Directory.createIndexFile_cases hd hgrants hfresh filename cols hpath with
    ⟨e, -, hno, -⟩ | ⟨-, -, hlong, -⟩ | ⟨hsmall, -⟩ | ⟨-, -, -, hcreate⟩
  · rcases hno with hno | hno
    · exact absurd hno hfile
    · rw [hcreates] at hno
      cases hno
  · exact absurd hlong (not_lt.2 hlen)
  · exact absurd hsmall (not_le.2 horder)
  · exact hcreate

/-- An index of the catalog can be created anew: handles and files are there as before. -/
theorem SmInv.recreateIndex (h : SmInv s) (hfresh : FreshFds os) (hgrants : GrantsAll os)
    (htab : tab ∈ s.db.tabs) (hindex : index ∈ tab.indexes) :
    ∃ s', s.recreateIndex os tab.name index.cols = .ok s' ∧ SmInv s' ∧ s'.db = s.db ∧
    s'.fhs = s.fhs := by
  have hok := h.catalog.tabs tab htab
  obtain ⟨path, hpath⟩ : ∃ path, path = indexName tab.name index.cols := ⟨_, rfl⟩
  obtain ⟨fd, hfd⟩ := h.exists_handle htab hindex
  rw [← hpath] at hfd
  have hopened := h.opened path fd (.inr hfd)
  obtain ⟨d, hclose, hdestroy⟩ := h.disk.closeFile_destroyFile (hgrants.grants s) hopened
  -- the state without the file of the index
  obtain ⟨s₁, hs₁⟩ : ∃ s₁ : SmManager, s₁ =
      { s with disk := s.disk.without path fd, ihs := Function.update s.ihs path none } := ⟨_, rfl⟩
  have hdisk₁ : s₁.disk.Ok := hs₁ ▸ h.disk.without hopened
  have hfile₁ : path ∉ s₁.disk.files := by rw [hs₁]; exact Finset.notMem_erase path _
  have hpath₁ := hdisk₁.path2fd_eq_none hfile₁
  obtain ⟨hfresh₁, hfresh₁'⟩ := hfresh s₁ hdisk₁
  have hcreate : s₁.disk.createIndexFile tab.name index.cols (os s₁) =
      .ok (s₁.disk.withFile path) :=
    Directory.createIndexFile_eq hdisk₁ (hgrants.grants s₁) (hgrants.creates s₁) hfresh₁ hpath
      hfile₁ (hok.sized index hindex)
  have hopen : (s₁.disk.withFile path).openFile path (os s₁).fd' true =
      .ok ((os s₁).fd', (s₁.disk.withFile path).withOpen path (os s₁).fd') :=
    Directory.openFile_eq (Finset.mem_insert_self path s₁.disk.files) hpath₁
  have hrun : s.recreateIndex os tab.name index.cols = .ok { s₁ with
      disk := (s₁.disk.withFile path).withOpen path (os s₁).fd'
      ihs := emplace s₁.ihs path (os s₁).fd' } := by
    have hdisk : s₁.disk = s.disk.without path fd := by rw [hs₁]
    rw [hdisk] at hcreate hopen
    simp only [SmManager.recreateIndex, ← hpath, hfd, SmManager.diskCall, hclose, hdestroy,
      Except.mapError, bind, Except.bind, pure, Except.pure]
    rw [← hs₁]
    simp only [hcreate, (hgrants.grants s₁).opens', hopen, hdisk]
    rw [hs₁]
  refine ⟨_, hrun, ?_, by rw [hs₁], by rw [hs₁]⟩
  have hkeep {p : String} {fd' : ℤ} (hne : p ≠ path)
    (hp : s.fhs p = some fd' ∨ s.ihs p = some fd') :
      ((s₁.disk.withFile path).withOpen path (os s₁).fd').path2fd p = some fd' := by
    refine Directory.withOpen_path2fd (d := s₁.disk.withFile path) ?_ hpath₁
    rw [hs₁]
    change (s.disk.without path fd).path2fd p = some fd'
    exact h.opened_without hne hp
  refine
    { catalog := by rw [hs₁]; exact h.catalog
      disk := hdisk₁.withFile.withOpen (Finset.mem_insert_self path s₁.disk.files) hpath₁ hfresh₁'
      fhs := by rw [hs₁]; exact h.fhs
      ihs := fun p => ?_
      opened := fun p fd' hp => ?_
      metaText := by rw [hs₁]; exact h.metaText }
  · rw [isSome_emplace, hs₁]
    change p = path ∨ (Function.update s.ihs path none p).isSome = true ↔ s.db.HasIndex p
    rw [isSome_update_none, ← h.ihs]
    by_cases hp : p = path
    · simp [hp, hfd]
    · simp [hp]
  · rcases hp with hp | hp
    · have htable : s.fhs p = some fd' := by rw [hs₁] at hp; exact hp
      refine hkeep ?_ (.inl htable)
      rintro rfl
      obtain ⟨t, ht, hname⟩ := (h.fhs p).1 (by rw [htable]; rfl)
      exact indexName_ne (hname ▸ (h.catalog.tabs t ht).name) hpath.symm
    · rcases emplace_eq_some hp with ⟨rfl, rfl⟩ | hp
      · exact Function.update_self ..
      · rw [hs₁] at hp
        obtain ⟨hne, hp⟩ := update_none_eq_some hp
        exact hkeep hne (.inr hp)

/-! ## The passes -/

theorem SmInv.resetTable (h : SmInv s) (hfresh : FreshFds os) (hgrants : GrantsAll os)
    (htab : tab ∈ s.db.tabs) {indexes : List IndexEntry}
    (hindexes : ∀ index ∈ indexes, index ∈ tab.indexes) :
    ∃ s', indexes.foldlM (fun s index => SmManager.recreateIndex os s tab.name index.cols) s =
    .ok s' ∧ SmInv s' ∧ s'.db = s.db ∧ s'.fhs = s.fhs := by
  induction indexes generalizing s with
  | nil => exact ⟨s, rfl, h, rfl, rfl⟩
  | cons index indexes ih =>
    obtain ⟨hindex, hindexes⟩ := List.forall_mem_cons.1 hindexes
    obtain ⟨s₁, hrun, hinv, hdb, hfhs⟩ := h.recreateIndex hfresh hgrants htab hindex
    obtain ⟨s', hloop, hinv', hdb', hfhs'⟩ := ih hinv (hdb ▸ htab) hindexes
    refine ⟨s', ?_, hinv', hdb'.trans hdb, hfhs'.trans hfhs⟩
    rw [List.foldlM_cons, hrun]
    exact hloop

/-- The last loop of `analyze` ends when the tables are in the catalog. -/
theorem SmInv.resetIndexes (h : SmInv s) (hfresh : FreshFds os) (hgrants : GrantsAll os)
    {tables : List String}
    (htables : ∀ tabName ∈ tables, ∃ tab ∈ s.db.tabs, tab.name = tabName) :
    ∃ s', s.resetIndexes os tables = .ok s' ∧ SmInv s' ∧ s'.db = s.db ∧ s'.fhs = s.fhs := by
  unfold SmManager.resetIndexes
  induction tables generalizing s with
  | nil => exact ⟨s, rfl, h, rfl, rfl⟩
  | cons tabName tables ih =>
    obtain ⟨⟨tab, htab, rfl⟩, hrest⟩ := List.forall_mem_cons.1 htables
    obtain ⟨s₁, hrun, hinv, hdb, hfhs⟩ := h.resetTable hfresh hgrants htab fun _ hindex => hindex
    obtain ⟨s', hloop, hinv', hdb', hfhs'⟩ := ih hinv (hdb ▸ hrest)
    have hget := DbMeta.getTable_eq (h.catalog.find_eq htab)
    refine ⟨s', ?_, hinv', hdb'.trans hdb, hfhs'.trans hfhs⟩
    rw [List.foldlM_cons]
    simp only [SmManager.pureCall, hget, Except.mapError, bind, Except.bind, hrun] at hloop ⊢
    exact hloop

open IxIndexHandle in
/-- Inserting records into a new tree ends, whatever their keys are. -/
theorem exists_rebuildIndex (index : IndexMeta) (btreeOrder : ℕ) (horder : 4 ≤ btreeOrder + 1)
    (rows : List (Rid × Bytes)) : ∃ ih, rebuildIndex index btreeOrder rows = some ih := by
  let _ : Ord Bytes := ⟨ixCompare (indexColMeta index)⟩
  have hloop (f : IxIndexHandle Bytes) (T : Set ℤ) (ht : ℤ → ℕ) (hb : f.Balanced T ht none)
      (l : List (Bytes × Rid)) : ∃ ih, f.rebuildLoop l = some ih := by
    induction l generalizing f T ht with
    | nil => exact ⟨f, rfl⟩
    | cons e l ih =>
      obtain ⟨f', r, T', ht', hinsert, -, hb'⟩ := hb.insertEntry e.1 e.2
      obtain ⟨t, hrest⟩ := ih f' T' ht' hb'
      refine ⟨t, ?_⟩
      rw [rebuildLoop, List.foldlM_cons, hinsert]
      exact hrest
  exact hloop _ _ _ (balanced_createIndex horder) (indexEntries index rows)

theorem SmInv.rebuildTable (h : SmInv s) (hfresh : FreshFds os) (hgrants : GrantsAll os)
    (f : RmFile) (htab : tab ∈ s.db.tabs) (trees : SmManager.Trees) :
    ∃ s' trees', s.rebuildTable os f tab trees = .ok (s', trees') ∧ SmInv s' ∧ s'.db = s.db ∧
    s'.fhs = s.fhs := by
  unfold SmManager.rebuildTable
  have hsized := (h.catalog.tabs tab htab).sized
  generalize hall : tab.indexes = indexes at hsized
  have hindexes : ∀ index ∈ indexes, index ∈ tab.indexes := fun index hindex => hall ▸ hindex
  clear hall
  induction indexes generalizing s trees with
  | nil => exact ⟨s, trees, rfl, h, rfl, rfl⟩
  | cons index indexes ih =>
    obtain ⟨hindex, hindexes⟩ := List.forall_mem_cons.1 hindexes
    obtain ⟨⟨-, horder⟩, hsized⟩ := List.forall_mem_cons.1 hsized
    obtain ⟨s₁, hrun, hinv, hdb, hfhs⟩ := h.recreateIndex hfresh hgrants htab hindex
    obtain ⟨tree, htree⟩ := exists_rebuildIndex ⟨index.tabName, index.cols.map ColEntry.colMeta⟩
      (btreeOrderOf (colTotLen index.cols)).toNat (by omega) f.scannedRows
    obtain ⟨s', trees', hloop, hinv', hdb', hfhs'⟩ := ih hinv (hdb ▸ htab)
      (Function.update trees (indexName tab.name index.cols) (some tree)) hsized hindexes
    refine ⟨s', trees', ?_, hinv', hdb'.trans hdb, hfhs'.trans hfhs⟩
    rw [List.foldlM_cons]
    simp only [hrun, htree, bind, Except.bind, pure, Except.pure] at hloop ⊢
    exact hloop

/-- `rebuild_indexes_from_table` ends. -/
theorem SmInv.rebuildIndexes (h : SmInv s) (hfresh : FreshFds os) (hgrants : GrantsAll os)
    (tabs : Tables)
    {tables : List String} (htables : ∀ tabName ∈ tables, ∃ tab ∈ s.db.tabs, tab.name = tabName) :
    ∃ s' trees, s.rebuildIndexes os tabs tables = .ok (s', trees) ∧ SmInv s' ∧ s'.db = s.db ∧
    s'.fhs = s.fhs := by
  unfold SmManager.rebuildIndexes
  generalize (fun _ => none : SmManager.Trees) = trees₀
  induction tables generalizing s trees₀ with
  | nil => exact ⟨s, trees₀, rfl, h, rfl, rfl⟩
  | cons tabName tables ih =>
    obtain ⟨⟨tab, htab, rfl⟩, hrest⟩ := List.forall_mem_cons.1 htables
    rw [List.foldlM_cons]
    cases hf : tabs tab.name with
    | none => exact ih h hrest trees₀
    | some f =>
      obtain ⟨s₁, trees₁, hrun, hinv, hdb, hfhs⟩ := h.rebuildTable hfresh hgrants f htab trees₀
      obtain ⟨s', trees, hloop, hinv', hdb', hfhs'⟩ := ih hinv (hdb ▸ hrest) trees₁
      have hget := DbMeta.getTable_eq (h.catalog.find_eq htab)
      refine ⟨s', trees, ?_, hinv', hdb'.trans hdb, hfhs'.trans hfhs⟩
      simp only [SmManager.pureCall, hget, Except.mapError, bind, Except.bind, hrun] at hloop ⊢
      exact hloop

end

end Rmdb
