import Rmdb.Index.Build
import Rmdb.System.Agreement

/-!
# Building an index from a table

`SmManager::create_index` and `rebuild_indexes_from_table` (`recovery/log_recovery.cpp`) insert the
keys of the records of a table in the order of the scan.  Where the keys are distinct, the index
that both leave holds exactly the records, and its leaves list them in the order of their keys;
where two records share a key, `create_index` throws and the database is as before.
-/

namespace Rmdb

open Levels

/-- What is inserted into an index for the records of a table. -/
def indexEntries (index : IndexMeta) (rows : List (Rid × Bytes)) : List (Bytes × Rid) :=
  rows.map fun r => (buildIndexKey index r.2, r.1)

/-- The tree that `create_index` builds; `some none` when a key is already there. -/
def fillIndex (index : IndexMeta) (btreeOrder : ℕ) (rows : List (Rid × Bytes)) :
    Option (Option (IxIndexHandle Bytes)) :=
  letI : Ord Bytes := ⟨ixCompare (indexColMeta index)⟩
  (createIndex Bytes btreeOrder).backFillLoop (indexEntries index rows)

/-- The tree that `rebuild_indexes_from_table` builds. -/
def rebuildIndex (index : IndexMeta) (btreeOrder : ℕ) (rows : List (Rid × Bytes)) :
    Option (IxIndexHandle Bytes) :=
  letI : Ord Bytes := ⟨ixCompare (indexColMeta index)⟩
  (createIndex Bytes btreeOrder).rebuildLoop (indexEntries index rows)

/-- `get_value` with the comparison of the index. -/
def lookupIndex (index : IndexMeta) (ih : IxIndexHandle Bytes) (key : Bytes) :
    Option (Option Rid) :=
  letI : Ord Bytes := ⟨ixCompare (indexColMeta index)⟩
  ih.getValue key

/-- The index holds the keys of the records: `get_value` finds them, and the leaves from the first
to the last one list them in the order of the keys. -/
structure IndexesRows (index : IndexMeta) (rows : List (Rid × Bytes))
    (ih : IxIndexHandle Bytes) : Prop where
  getValue : ∀ key rid, key.length = ((indexColMeta index).map Prod.snd).sum →
    (lookupIndex index ih key = some (some rid) ↔ ∃ row, (rid, row) ∈ rows ∧
      buildIndexKey index row = key)
  leaves : ∃ leaves, ih.LeafChain leaves ∧
    (flat ih.pairs leaves).Pairwise (fun e e' => ixCompare (indexColMeta index) e.1 e'.1 = .lt) ∧
    (flat ih.pairs leaves).Perm (indexEntries index rows)

section

variable {index : IndexMeta} {cols : List KeyCol} {rows : List (Rid × Bytes)}

theorem length_buildIndexKey (index : IndexMeta) (row : Bytes) :
    (buildIndexKey index row).length = ((indexColMeta index).map Prod.snd).sum := by
  rw [buildIndexKey, List.length_flatMap, indexColMeta, List.map_map]
  refine congrArg List.sum (List.map_congr_left fun col _ => ?_)
  simp [slice]

theorem keyEmbedding_bytes (cols : List KeyCol) :
    let _ : Ord Bytes := ⟨ixCompare (keyCols cols)⟩
    KeyEmbedding (Key.bytes : Key cols → Bytes) := by
  refine @KeyEmbedding.mk _ _ _ ⟨ixCompare (keyCols cols)⟩ _ (fun a b => rfl) fun a b h => ?_
  cases a
  cases b
  cases h
  rfl

theorem map_fst_indexEntries (index : IndexMeta) (rows : List (Rid × Bytes)) :
    (indexEntries index rows).map Prod.fst = rows.map fun r => buildIndexKey index r.2 :=
  List.map_map

/-- The entries with their keys as keys of the columns. -/
theorem exists_keys (hcols : indexColMeta index = keyCols cols) (rows : List (Rid × Bytes)) :
    ∃ es : List (Key cols × Rid), mapPairs Key.bytes es = indexEntries index rows := by
  have hlen (row : Bytes) : (buildIndexKey index row).length = (cols.map KeyCol.len).sum := by
    rw [length_buildIndexKey, hcols, keyCols, List.map_map]
    rfl
  refine ⟨rows.map fun r => (⟨buildIndexKey index r.2, hlen r.2⟩, r.1), ?_⟩
  rw [mapPairs, List.map_map]
  rfl

/-- The tree that both loops build from records with distinct keys, over the keys of the columns. -/
theorem fillIndex_holds (hcols : indexColMeta index = keyCols cols) {btreeOrder : ℕ}
    (horder : 4 ≤ btreeOrder + 1) (hkeys : (rows.map fun r => buildIndexKey index r.2).Nodup) :
    ∃ (es : List (Key cols × Rid)) (f : IxIndexHandle (Key cols)), mapPairs Key.bytes es =
    indexEntries index rows ∧
      f.Holds es ∧ fillIndex index btreeOrder rows = some (some (f.mapKeys Key.bytes)) ∧
      rebuildIndex index btreeOrder rows = some (f.mapKeys Key.bytes) := by
  obtain ⟨es, hes⟩ := exists_keys hcols rows
  let _ : Ord Bytes := ⟨ixCompare (keyCols cols)⟩
  have hg : KeyEmbedding (Key.bytes : Key cols → Bytes) := keyEmbedding_bytes cols
  have hnodup : ((es ++ []).map Prod.fst).Nodup := by
    rw [List.append_nil, ← List.nodup_map_iff hg.injective, List.map_map]
    rw [← map_fst_indexEntries, ← hes, mapPairs, List.map_map] at hkeys
    exact hkeys
  obtain ⟨f, hfill, hrebuild, hholds⟩ :=
    (IxIndexHandle.holds_createIndex (K := Key cols) horder).loops hnodup
  rw [List.append_nil] at hholds
  refine ⟨es, f, hes, hholds, ?_, ?_⟩
  · rw [fillIndex, hcols, ← hes, ← createIndex_mapKeys (Key.bytes : Key cols → Bytes)]
    exact (IxIndexHandle.backFillLoop_mapKeys hg _ _).trans (by rw [hfill]; rfl)
  · rw [rebuildIndex, hcols, ← hes, ← createIndex_mapKeys (Key.bytes : Key cols → Bytes)]
    exact (IxIndexHandle.rebuildLoop_mapKeys hg _ _).trans (by rw [hrebuild]; rfl)

/-- Records with distinct keys are indexed. -/
theorem fillIndex_distinct (hcols : indexColMeta index = keyCols cols) {btreeOrder : ℕ}
    (horder : 4 ≤ btreeOrder + 1) (hkeys : (rows.map fun r => buildIndexKey index r.2).Nodup) :
    ∃ ih, fillIndex index btreeOrder rows = some (some ih) ∧
    rebuildIndex index btreeOrder rows = some ih ∧ IndexesRows index rows ih := by
  obtain ⟨es, f, hes, hholds, hfill, hrebuild⟩ := fillIndex_holds hcols horder hkeys
  let _ : Ord Bytes := ⟨ixCompare (keyCols cols)⟩
  have hg : KeyEmbedding (Key.bytes : Key cols → Bytes) := keyEmbedding_bytes cols
  refine ⟨f.mapKeys Key.bytes, hfill, hrebuild, ?_, ?_⟩
  · intro key rid hlen
    have hlen : key.length = (cols.map KeyCol.len).sum := by
      rw [hlen, hcols, keyCols, List.map_map]
      rfl
    have hget : lookupIndex index (f.mapKeys Key.bytes) key = f.getValue ⟨key, hlen⟩ := by
      rw [lookupIndex, hcols]
      exact IxIndexHandle.getValue_mapKeys hg f ⟨key, hlen⟩
    have hmem : (⟨key, hlen⟩, rid) ∈ es ↔ (key, rid) ∈ indexEntries index rows := by
      have hpair : Function.Injective fun e : Key cols × Rid => (e.1.bytes, e.2) :=
        hg.injective.prodMap Function.injective_id
      rw [← hes, mapPairs]
      exact (List.mem_map_of_injective hpair).symm
    rw [hget, hholds.getValue_iff, hmem, indexEntries, List.mem_map]
    constructor
    · rintro ⟨⟨rid', row⟩, hrow, heq⟩
      obtain ⟨hkey, rfl⟩ := Prod.mk.inj heq
      exact ⟨row, hrow, hkey⟩
    · rintro ⟨row, hrow, rfl⟩
      exact ⟨(rid, row), hrow, rfl⟩
  · obtain ⟨leaves, hchain, hsorted, hperm⟩ := hholds.leaves
    have hflat : flat (f.mapKeys Key.bytes).pairs leaves =
      mapPairs Key.bytes (flat f.pairs leaves) :=
      (List.map_flatMap ..).symm
    refine ⟨leaves, ⟨hchain.linked, hchain.first, hchain.last⟩, ?_, ?_⟩
    · rw [hflat, hcols, mapPairs, List.pairwise_map]
      exact hsorted.imp fun hlt => compare_lt_iff_lt.2 hlt
    · rw [hflat, ← hes]
      exact hperm.map _

/-- Of two records with one key, the second one is found out. -/
theorem fillIndex_shared (hcols : indexColMeta index = keyCols cols) {btreeOrder : ℕ}
    (horder : 4 ≤ btreeOrder + 1)
    (hkeys : ¬ (rows.map fun r => buildIndexKey index r.2).Nodup) :
    fillIndex index btreeOrder rows = some none := by
  obtain ⟨es, hes⟩ := exists_keys hcols rows
  let _ : Ord Bytes := ⟨ixCompare (keyCols cols)⟩
  have hg : KeyEmbedding (Key.bytes : Key cols → Bytes) := keyEmbedding_bytes cols
  have hnodup : ¬ ((es ++ []).map Prod.fst).Nodup := by
    rw [List.append_nil, ← List.nodup_map_iff hg.injective, List.map_map]
    rw [← map_fst_indexEntries, ← hes, mapPairs, List.map_map] at hkeys
    exact hkeys
  have hshared := (IxIndexHandle.holds_createIndex (K := Key cols) horder).backFillLoop_shared
    List.nodup_nil hnodup
  rw [fillIndex, hcols, ← hes, ← createIndex_mapKeys (Key.bytes : Key cols → Bytes)]
  exact (IxIndexHandle.backFillLoop_mapKeys hg _ _).trans (by rw [hshared]; rfl)

/-! ## The calls -/

variable {s s₀ : SmManager} {path tabName : String} {fd : ℤ} {entry : IndexEntry}
  {colNames : List String}
  {tab : TabEntry} {cs : List ColEntry} {os : OsAnswer} {calls : List DdlCall}

/-- The records of a table, all of which can be read. -/
def readRows (rows : List (Rid × Bytes)) : List ScannedRow := rows.map fun r => (r.1, .ok r.2)

/-- The scan of `create_index` in terms of the tree that it builds. -/
theorem backFill_eq (hos : os.Grants) (hfile : path ∉ s.disk.files)
    (hpath : s.disk.path2fd path = none)
    (hfd : s.disk.fd2path fd = none)
    (hindex : index = ⟨entry.tabName, entry.cols.map ColEntry.colMeta⟩)
    (rows : List (Rid × Bytes)) (ih : IxIndexHandle Bytes) :
    let _ : Ord Bytes := ⟨ixCompare (indexColMeta index)⟩
    (s.filling path fd).backFill entry colNames path fd os (readRows rows) ih =
      match ih.backFillLoop (indexEntries index rows) with
      | none => .error (.assertion, s.filling path fd)
      | some none => .error (.indexExists entry.tabName colNames, s)
      | some (some _) => .ok (s.filling path fd) := by
  subst hindex
  intro _
  induction rows generalizing ih with
  | nil => rfl
  | cons row rows hrows =>
    obtain ⟨rid, row⟩ := row
    have hread : readRows ((rid, row) :: rows) = (rid, .ok row) :: readRows rows := rfl
    have hentries (index : IndexMeta) : indexEntries index ((rid, row) :: rows) =
      (buildIndexKey index row, rid) :: indexEntries index rows := rfl
    rw [hread, hentries, SmManager.backFill, IxIndexHandle.backFillLoop]
    cases hget : ih.getValue (buildIndexKey
      ⟨entry.tabName, entry.cols.map ColEntry.colMeta⟩ row) with
    | none => rfl
    | some found =>
      cases found with
      | some rid' =>
        simp only [discardIndex_filling hos hfile hpath hfd]
        rfl
      | none =>
        cases hinsert : ih.insertEntry
          (buildIndexKey ⟨entry.tabName, entry.cols.map ColEntry.colMeta⟩ row) rid with
        | none => rfl
        | some r => exact hrows r.1

/-- The columns `cs` of a table are columns of a key. -/
def AreKeyCols (cs : List ColEntry) (cols : List KeyCol) : Prop :=
  cs.map (fun c => (c.type, c.len)) = cols.map fun c => (c.type, (c.len : ℤ))

theorem AreKeyCols.indexColMeta_eq (h : AreKeyCols cs cols) (tabName : String) :
    indexColMeta ⟨tabName, cs.map ColEntry.colMeta⟩ = keyCols cols := by
  have hnat := congrArg (List.map fun c : ColType × ℤ => (c.1, c.2.toNat)) h
  rw [List.map_map, List.map_map] at hnat
  rw [indexColMeta, List.map_map, keyCols]
  exact hnat

theorem AreKeyCols.colTotLen_eq (h : AreKeyCols cs cols)
    (hlen : ((cols.map KeyCol.len).sum : ℕ) ≤ IX_MAX_COL_LEN) :
    colTotLen cs = (cols.map KeyCol.len).sum := by
  rw [IX_MAX_COL_LEN] at hlen
  have hloop (n : ℕ) (hn : n + (cols.map KeyCol.len).sum ≤ 512) :
      cs.foldl (fun n col => intAdd n col.len) (n : ℤ) = n + (cols.map KeyCol.len).sum := by
    clear hlen
    induction cs generalizing cols n with
    | nil =>
      obtain rfl : cols = [] := List.map_eq_nil_iff.1 h.symm
      simp
    | cons c cs ih =>
      obtain ⟨col, cols, rfl, hcol, hcols⟩ := List.map_eq_cons_iff.1 h.symm
      rw [List.map_cons, List.sum_cons] at hn
      have hlen : c.len = col.len := (Prod.mk.inj hcol).2.symm
      have hadd : intAdd n c.len = (n + col.len : ℕ) := by
        rw [hlen, intAdd_eq (by omega) (by omega), Nat.cast_add]
      rw [List.foldl_cons, hadd, ih hcols.symm _ (by omega), List.map_cons, List.sum_cons]
      push_cast
      ring
  rw [colTotLen]
  simpa using hloop 0 (by omega)

/-- What `create_index` and `rebuild_indexes_from_table` make of the records of a table. -/
structure BuildsExactly (s : SmManager) (tabName : String) (colNames : List String) (os : OsAnswer)
    (index : IndexMeta) (btreeOrder : ℕ) (rows : List (Rid × Bytes)) : Prop where
  distinct : (rows.map fun r => buildIndexKey index r.2).Nodup →
    ∃ ih, fillIndex index btreeOrder rows = some (some ih) ∧
      rebuildIndex index btreeOrder rows = some ih ∧
      IndexesRows index rows ih ∧ ∃ s', s.createIndex tabName colNames (readRows rows) os = .ok s'
  shared : ¬ (rows.map fun r => buildIndexKey index r.2).Nodup →
    s.createIndex tabName colNames (readRows rows) os = .error (.indexExists tabName colNames, s)

/-- Where the system refuses nothing, an index is built exactly from the records of a table. -/
theorem index_built_exactly (hopen : Opened s₀)
    (hrun : Run (Meeting SystemGrants DdlStep) s₀ calls s)
    (hgrants : os.Grants) (hfd : s.disk.fd2path os.fd = none ∧ s.disk.fd2path os.fd' = none)
    (hget : s.db.getTable tabName = .ok tab)
    (hnew : tab.isIndex colNames = false) (hcols : colNames.mapM tab.getCol = .ok cs)
    (hfile : indexName tabName cs ∉ s.disk.files) (hos : os.creates = true)
    (hkeys : AreKeyCols cs cols)
    (hlen : ((cols.map KeyCol.len).sum : ℕ) ≤ IX_MAX_COL_LEN) (rows : List (Rid × Bytes)) :
    BuildsExactly s tabName colNames os ⟨tabName, cs.map ColEntry.colMeta⟩
    (btreeOrderOf (colTotLen cs)).toNat rows := by
  have h := smInv_of_run hopen hrun
  have htot := hkeys.colTotLen_eq hlen
  have horder := IxIndexHandle.two_lt_btreeOrderOf hlen
  rw [← htot] at hlen horder
  have hcreate : s.disk.createIndexFile tabName cs os =
      .ok (s.disk.withFile (indexName tabName cs)) := by
    rcases Directory.createIndexFile_cases h.disk hgrants hfd.1 tabName cs rfl with
      ⟨e, -, hno, -⟩ | ⟨-, -, hlong, -⟩ | ⟨hsmall, -⟩ | ⟨-, -, -, hcreate⟩
    · rcases hno with hno | hno
      · exact absurd hno hfile
      · rw [hos] at hno
        cases hno
    · exact absurd hlong (not_lt.2 hlen)
    · exact absurd hsmall (not_le.2 horder)
    · exact hcreate
  have hindex := hkeys.indexColMeta_eq tabName
  have hnone := h.disk.path2fd_eq_none hfile
  obtain ⟨entry, hentry⟩ : ∃ entry : IndexEntry,
    entry = ⟨tabName, colTotLen cs, colNames.length, cs⟩ := ⟨_, rfl⟩
  have hcall := h.createIndex_eq hgrants hget hnew hcols rfl hentry hfile hcreate (readRows rows)
  have hmeta : (⟨tabName, cs.map ColEntry.colMeta⟩ : IndexMeta) =
      ⟨entry.tabName, entry.cols.map ColEntry.colMeta⟩ := by rw [hentry]
  have htotal : entry.colTotLen = colTotLen cs := by rw [hentry]
  have hfill : (s.filling (indexName tabName cs) os.fd').backFill entry colNames
    (indexName tabName cs) os.fd' os
      (readRows rows) (createIndex Bytes (btreeOrderOf entry.colTotLen).toNat) =
      match fillIndex ⟨tabName, cs.map ColEntry.colMeta⟩
        (btreeOrderOf (colTotLen cs)).toNat rows with
      | none => .error (.assertion, s.filling (indexName tabName cs) os.fd')
      | some none => .error (.indexExists entry.tabName colNames, s)
      | some (some _) => .ok (s.filling (indexName tabName cs) os.fd') := by
    rw [htotal]
    exact backFill_eq hgrants hfile hnone hfd.2 hmeta rows _
  have horder : 4 ≤ (btreeOrderOf (colTotLen cs)).toNat + 1 := by omega
  refine ⟨fun hnodup => ?_, fun hshared => ?_⟩
  · obtain ⟨ih, hih, hrebuild, hexact⟩ := fillIndex_distinct hindex horder hnodup
    obtain ⟨htab, rfl⟩ := DbMeta.getTable_ok hget
    obtain ⟨s', hregister⟩ : ∃ s',
      (s.filling (indexName tab.name cs) os.fd').registerIndex tab entry
        (indexName tab.name cs) os.fd' = .ok s' :=
      ⟨_, h.registerIndex_eq htab fun col hcol => by
        rw [hentry] at hcol
        exact List.mem_map_of_mem ((TabEntry.mapM_getCol_ok hcols).2 col hcol)⟩
    refine ⟨ih, hih, hrebuild, hexact, s', ?_⟩
    rw [hcall, hfill, hih]
    exact hregister
  · have hih := fillIndex_shared hindex horder hshared
    have htabName : entry.tabName = tabName := by rw [hentry]
    rw [hcall, hfill, hih, htabName]
    simp [SmManager.catchAll, hfile, throw, throwThe, MonadExceptOf.throw, bind, Except.bind]

/-- Two records of the table `t (a CHAR(300))`. -/
theorem index_built_exactly_two :
    ∃ s cs, BuildsExactly s "t" ["a"] (.grant 5 5) ⟨"t", cs.map ColEntry.colMeta⟩
    (btreeOrderOf (colTotLen cs)).toNat
    [(⟨1, 0⟩, List.replicate 300 7), (⟨1, 1⟩, List.replicate 300 8)] := by
  have hrun : ((openDb (createDb "db").1 (createDb "db").2 fun path =>
    if path = LOG_FILE_NAME then 3 else 4).toOption.any
      fun s => decide (s.disk.fd2path 4 = none) &&
        (s.createTable "t" [⟨"a", .string, 300⟩] (.grant 4 4)).toOption.any fun s =>
          decide (s.disk.fd2path 5 = none) &&
          (s.db.getTable "t").toOption.any fun tab => decide (tab.isIndex ["a"] = false) &&
            (["a"].mapM tab.getCol).toOption.any fun cs =>
              decide (indexName "t" cs ∉ s.disk.files) &&
              decide (cs.map (fun c => (c.type, c.len)) = [(.string, 300)])) = true := by
                decide +kernel
  obtain ⟨s₀, s, hopen, hrun, h⟩ := exists_oneTable hrun
  rw [Bool.and_eq_true, decide_eq_true_eq] at h
  obtain ⟨tab, hget, htab⟩ := exists_ok_of_any h.2
  rw [Bool.and_eq_true, decide_eq_true_eq] at htab
  obtain ⟨cs, hcols, hcs⟩ := exists_ok_of_any htab.2
  rw [Bool.and_eq_true, decide_eq_true_eq, decide_eq_true_eq] at hcs
  have hkeys : AreKeyCols cs [.char 300] := hcs.2
  exact ⟨s, cs, index_built_exactly hopen hrun (OsAnswer.grants_grant 5 5)
    ⟨h.1, h.1⟩ hget htab.1 hcols hcs.1 rfl hkeys (by decide) _⟩

end

end Rmdb
