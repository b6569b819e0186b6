import Rmdb.Execution.Rollback
import Rmdb.Execution.StatementMeaning

/-!
# Files after an abort

An abort puts back rows and entries.  The counters and the chain of free pages of a file are exact
afterwards as well, unless a deleted row is put back into the last slot of its page that is free:
`insert_record` at a position leaves a page in the chain that has become full.
-/

namespace Rmdb

open KeyIndex

/-! ## Write records and rows -/

/-- The records of all files. -/
def Db.records (db : Db) : DbRows := fun t => (db.fhs t).records

namespace WriteRecord

def tabName : WriteRecord → String
  | .insertTuple t _ => t
  | .deleteTuple t _ _ => t
  | .updateTuple t _ _ => t

def rid : WriteRecord → Rid
  | .insertTuple _ rid => rid
  | .deleteTuple _ rid _ => rid
  | .updateTuple _ rid _ => rid

/-- What is put back. -/
def old : WriteRecord → Option Bytes
  | .insertTuple _ _ => none
  | .deleteTuple _ _ record => some record
  | .updateTuple _ _ record => some record

/-- The rows after the undo. -/
def restore (w : WriteRecord) (m : DbRows) : DbRows :=
  Function.update m w.tabName (Function.update (m w.tabName) w.rid w.old)

/-- What the undo finds at the place of the row. -/
def Finds (m : DbRows) : WriteRecord → Prop
  | .insertTuple t rid => (m t rid).isSome
  | .deleteTuple t rid _ => m t rid = none
  | .updateTuple t rid _ => (m t rid).isSome

/-- The record fits into its file. -/
def Fits (db : Db) : WriteRecord → Prop
  | .insertTuple _ _ => True
  | .deleteTuple t rid record => (db.fhs t).ValidRid rid ∧ record.length = (db.fhs t).hdr.recordSize
  | .updateTuple t _ record => record.length = (db.fhs t).hdr.recordSize

/-- A page that gets a row back still has room. -/
def LeavesRoom (db' : Db) : WriteRecord → Prop
  | .deleteTuple t rid _ => (db'.fhs t).HasRoom rid.pageNo
  | _ => True

end WriteRecord

/-- From the rows `m` on, every undo finds what its write left. -/
def Returns : List WriteRecord → DbRows → Prop
  | [], _ => True
  | w :: ws, m => w.Finds m ∧ Returns ws (w.restore m)

/-- Every undo from `db` on leaves room in the page that it puts a row into. -/
def LeavesRoom : List WriteRecord → Db → Prop
  | [], _ => True
  | w :: ws, db => ∀ db', undoWriteRecord db w = .ok db' → w.LeavesRoom db' ∧ LeavesRoom ws db'

/-- The table files are well formed. -/
def Db.Heaps (db : Db) : Prop := ∀ t tab, db.HasTable t tab → HeapInv (db.fhs t) (db.fhs t).records

/-! ## One undo -/

section Undo

variable {db db' : Db} {t : String} {m : TabRows} {fh : RmFile} {w : WriteRecord}
  {ws : List WriteRecord}

/-- The file of one table has changed. -/
structure ChangesFile (db db' : Db) (t : String) (m : TabRows) : Prop where
  schema : db'.schema = db.schema
  fhs : ∀ t' ≠ t, db'.fhs t' = db.fhs t'
  heap : HeapInv (db'.fhs t) m
  grows : (db.fhs t).Extends (db'.fhs t)

theorem changesFile (hschema : db'.schema = db.schema)
    (hfhs : db'.fhs = Function.update db.fhs t fh)
    (hheap : HeapInv fh m) (hgrows : (db.fhs t).Extends fh) : ChangesFile db db' t m := by
  have hself : db'.fhs t = fh := by rw [hfhs, Function.update_self]
  refine ⟨hschema, fun t' ht' => by rw [hfhs, Function.update_of_ne ht'], ?_, ?_⟩
  · rw [hself]
    exact hheap
  · rw [hself]
    exact hgrows

theorem ChangesFile.heaps (h : ChangesFile db db' t m) (hdb : db.Heaps) : db'.Heaps := by
  intro t' tab' ht'
  rw [Db.HasTable, h.schema] at ht'
  by_cases heq : t' = t
  · subst heq
    rw [← h.heap.eq_records]
    exact h.heap
  · rw [h.fhs t' heq]
    exact hdb t' tab' ht'

theorem ChangesFile.records (h : ChangesFile db db' t m) :
    db'.records = Function.update db.records t m := by
  funext t'
  by_cases heq : t' = t
  · subst heq
    rw [Function.update_self, h.heap.eq_records, Db.records]
  · rw [Function.update_of_ne heq, Db.records, Db.records, h.fhs t' heq]

theorem ChangesFile.fits (h : ChangesFile db db' t m) (hw : w.Fits db) : w.Fits db' := by
  have hextends (t' : String) : (db.fhs t').Extends (db'.fhs t') := by
    by_cases heq : t' = t
    · exact heq ▸ h.grows
    · rw [h.fhs t' heq]
      exact .refl _
  cases w with
  | insertTuple t rid => trivial
  | deleteTuple t rid record =>
    exact ⟨(hextends t).validRid hw.1, hw.2.trans (hextends t).recordSize.symm⟩
  | updateTuple t rid record => exact hw.trans (hextends t).recordSize.symm

/-- The loops over the indexes change no file. -/
theorem foldl_indexes {f : Db → IndexMeta → Db} (hf : ∀ db index, (f db index).schema = db.schema ∧
    (f db index).fhs = db.fhs) (indexes : List IndexMeta) (db : Db) :
    (indexes.foldl f db).schema = db.schema ∧ (indexes.foldl f db).fhs = db.fhs := by
  induction indexes generalizing db with
  | nil => exact ⟨rfl, rfl⟩
  | cons index indexes ih =>
    obtain ⟨hschema, hfhs⟩ := ih (f db index)
    exact ⟨hschema.trans (hf db index).1, hfhs.trans (hf db index).2⟩

theorem exists_getRecord {rid : Rid} (h : HeapInv fh m) (hrid : (m rid).isSome) :
    ∃ rec, m rid = some rec ∧ fh.getRecord rid = .ok rec := by
  obtain ⟨rec, hrec⟩ := Option.isSome_iff_exists.mp hrid
  exact ⟨rec, hrec, h.getRecord hrec⟩

/-- A row that is put back into a page which still has room afterwards. -/
theorem heapInv_insertRecordAt {rid : Rid} {rec : Bytes} {fh' : RmFile} (h : HeapInv fh m)
    (hvalid : fh.ValidRid rid)
    (hnone : m rid = none) (hlen : rec.length = fh.hdr.recordSize)
    (hins : fh.insertRecordAt rid rec = .ok fh') (hroom : fh'.HasRoom rid.pageNo) :
    HeapInv fh' (Function.update m rid (some rec)) ∧ fh.Extends fh' := by
  rw [RmFile.insertRecordAt_eq hvalid.1] at hins
  obtain rfl := Except.ok.inj hins
  have hclear : Bitmap.isSet (fh.pages rid.pageNo).body rid.slotNo.toNat = false := by
    by_contra hset
    have hlive := (h.live rid).mpr ⟨hvalid, eq_true_of_ne_false hset⟩
    rw [hnone] at hlive
    cases hlive
  have hedits : RmFile.EditsSlot fh (RmFile.filled fh rid rec fh.hdr.firstFreePageNo) rid :=
    RmFile.editsSlot_filled h.hdr hvalid
  refine ⟨h.insert_filled hvalid hclear hlen
    (h.chain_keep hedits ⟨hvalid.1, _, RmFile.slot_lt hvalid, hclear⟩ hroom
    RmFile.nextFree_relinked_self rfl), .of_sameShape hedits.hdr⟩

/-- The undo of one write, with its file. -/
theorem changesFile_undo (hdb : db.Heaps) (hfinds : w.Finds db.records) (hfits : w.Fits db)
    (hrun : undoWriteRecord db w = .ok db') (hroom : w.LeavesRoom db') :
    ChangesFile db db' w.tabName (Function.update (db.records w.tabName) w.rid w.old) := by
  cases w with
  | insertTuple t rid =>
    cases ht : db.schema.tabs t with
    | none =>
      rw [undoWriteRecord, ht] at hrun
      cases hrun
    | some tab =>
      have hheap := hdb t tab ht
      obtain ⟨rec, hrec, hget⟩ := exists_getRecord hheap hfinds
      obtain ⟨fh, hfh, -, hheap'⟩ := hheap.delete hfinds
      obtain ⟨hschema, hfhs⟩ := foldl_indexes (f := Db.deleteIndexEntry t rec)
        (fun _ _ => ⟨rfl, rfl⟩) tab.indexes db
      rw [undoWriteRecord, ht] at hrun
      simp only [Option.elim, bind, Except.bind, hget, Except.mapError, hfhs, hfh, pure,
        Except.pure] at hrun
      obtain rfl := Except.ok.inj hrun
      exact changesFile hschema (by rw [← hfhs]; rfl) hheap' (.deleteRecord hfh)
  | deleteTuple t rid rec =>
    cases ht : db.schema.tabs t with
    | none =>
      rw [undoWriteRecord, ht] at hrun
      cases hrun
    | some tab =>
      have hheap := hdb t tab ht
      rw [undoWriteRecord, ht] at hrun
      simp only [Option.elim, bind, Except.bind] at hrun
      cases hfh : (db.fhs t).insertRecordAt rid rec with
      | error err =>
        rw [hfh] at hrun
        cases hrun
      | ok fh =>
        rw [hfh] at hrun
        obtain ⟨hschema, hfhs⟩ :=
          foldl_indexes (f := Db.insertIndexEntry t rec rid) (fun _ _ => ⟨rfl, rfl⟩) tab.indexes
            (db.setFh t fh)
        obtain rfl := Except.ok.inj hrun
        have hroom' : fh.HasRoom rid.pageNo := by
          rw [WriteRecord.LeavesRoom, hfhs] at hroom
          simpa [Db.setFh] using hroom
        obtain ⟨hheap', hgrows⟩ := heapInv_insertRecordAt hheap hfits.1 hfinds hfits.2 hfh hroom'
        exact changesFile hschema hfhs hheap' hgrows
  | updateTuple t rid old =>
    cases ht : db.schema.tabs t with
    | none =>
      rw [undoWriteRecord, ht] at hrun
      cases hrun
    | some tab =>
      have hheap := hdb t tab ht
      obtain ⟨cur, hcur, hget⟩ := exists_getRecord hheap hfinds
      obtain ⟨fh, hfh, -, hheap'⟩ := hheap.update hfinds hfits
      rw [undoWriteRecord, ht] at hrun
      simp only [Option.elim, bind, Except.bind, hget, Except.mapError, pure, Except.pure] at hrun
      obtain ⟨hschema, hfhs⟩ := foldl_indexes (f := fun db index =>
        if buildIndexKey index old = buildIndexKey index cur then db
        else (db.deleteIndexEntry t cur index).insertIndexEntry t old rid index)
        (fun db index => by split <;> exact ⟨rfl, rfl⟩) tab.indexes db
      simp only [hfhs, hfh] at hrun
      obtain rfl := Except.ok.inj hrun
      exact changesFile hschema (by rw [← hfhs]; rfl) hheap' (.updateRecord hfh)

/-- The undo of a transaction leaves well-formed files. -/
theorem heaps_foldlM_undo (hdb : db.Heaps) (hreturns : Returns ws db.records)
    (hfits : ∀ w ∈ ws, w.Fits db)
    (hroom : LeavesRoom ws db) (hrun : ws.foldlM undoWriteRecord db = .ok db') : db'.Heaps := by
  induction ws generalizing db with
  | nil =>
    cases hrun
    exact hdb
  | cons w ws ih =>
    rw [List.foldlM_cons] at hrun
    obtain ⟨db₁, hw, hrun⟩ := exists_of_bind_ok hrun
    obtain ⟨hfinds, hreturns⟩ := hreturns
    obtain ⟨hroom₁, hroom⟩ := hroom db₁ hw
    have hchanges := changesFile_undo hdb hfinds (hfits w List.mem_cons_self) hw hroom₁
    refine ih (hchanges.heaps hdb) ?_
      (fun w' hw' => hchanges.fits (hfits w' (List.mem_cons_of_mem _ hw'))) hroom hrun
    rw [hchanges.records]
    exact hreturns

end Undo

/-! ## What statements write -/

/-- Undoing `ws` leads from the rows `m'` to the rows `m`. -/
structure Written (ws : List WriteRecord) (m m' : DbRows) : Prop where
  returns : Returns ws m'
  restores : ws.foldl (fun m w => w.restore m) m' = m

section Written

variable {t : String} {m m' m'' : DbRows} {w : WriteRecord} {ws ws' : List WriteRecord} {rid : Rid}
  {rids : List Rid}
  {l : List (Change Rid Bytes)} {c : Change Rid Bytes}

theorem Written.cons (hfinds : w.Finds m'') (hrestore : w.restore m'' = m') (h : Written ws m m') :
    Written (w :: ws) m m'' := by
  refine ⟨⟨hfinds, ?_⟩, ?_⟩
  · rw [hrestore]
    exact h.returns
  · rw [List.foldl_cons, hrestore, h.restores]

theorem Written.append_returns (h : Written ws m m') (h' : Returns ws' m) :
    Returns (ws ++ ws') m' := by
  induction ws generalizing m' with
  | nil =>
    obtain rfl := h.restores
    exact h'
  | cons w ws ih => exact ⟨h.returns.1, ih ⟨h.returns.2, h.restores⟩⟩

theorem written_nil : Written [] m m := ⟨trivial, rfl⟩

theorem restore_update (rows : TabRows) :
    w.restore (Function.update m w.tabName rows) = Function.update m w.tabName
    (Function.update rows w.rid w.old) := by
  rw [WriteRecord.restore, Function.update_self, Function.update_idem]

theorem written_insert {rec : Bytes} (hnone : m t rid = none) :
    Written [.insertTuple t rid] m
    (Function.update m t (Function.update (m t) rid (some rec))) := by
  refine .cons ?_ ?_ written_nil
  · simp [WriteRecord.Finds]
  · refine (restore_update _).trans ?_
    change Function.update m t (Function.update (Function.update (m t) rid (some rec)) rid none) = m
    rw [Function.update_idem, ← hnone, Function.update_eq_self, Function.update_eq_self]

theorem written_deleted (hnodup : rids.Nodup) (hlive : ∀ rid ∈ rids, (m t rid).isSome) :
    Written (deletedWrites t (m t) rids) m (Function.update m t (deletedRows (m t) rids)) := by
  induction rids using List.reverseRecOn with
  | nil =>
    rw [show deletedRows (m t) [] = m t from rfl, Function.update_eq_self]
    exact written_nil
  | append_singleton rids rid ih =>
    obtain ⟨rec, hrec, hrow, hrows, -⟩ := deleted_snoc hnodup hlive
    have hwrites : deletedWrites t (m t) (rids ++ [rid]) =
        .deleteTuple t rid rec :: deletedWrites t (m t) rids := by
      simp [deletedWrites, hrec]
    rw [hwrites]
    refine .cons ?_ ?_ (ih (List.nodup_append.mp hnodup).1 fun r hr =>
      hlive r (List.mem_append_left _ hr))
    · simp [WriteRecord.Finds, hrows]
    · refine (restore_update _).trans ?_
      change Function.update m t (Function.update _ rid (some rec)) = _
      rw [hrows, Function.update_idem, ← hrow, Function.update_eq_self]

theorem written_changed (hvalid : Change.Valid (m t) l) :
    Written (changedWrites t l) m (Function.update m t (Change.rows (m t) l)) := by
  induction l using List.reverseRecOn with
  | nil =>
    rw [show Change.rows (m t) [] = m t from rfl, Function.update_eq_self]
    exact written_nil
  | append_singleton l c ih =>
    rw [changedWrites_snoc]
    refine .cons ?_ ?_ (ih hvalid.of_append)
    · simp [WriteRecord.Finds, Change.rows_snoc, Change.applyRow]
    · refine (restore_update _).trans ?_
      change Function.update m t (Function.update _ c.row (some c.old)) = _
      rw [Change.rows_snoc, Change.applyRow, Function.update_idem, ← hvalid.row,
        Function.update_eq_self]

/-- A last change that has not reached the file. -/
theorem written_half (hvalid : Change.Valid (m t) (l ++ [c])) :
    Written (changedWrites t (l ++ [c])) m (Function.update m t (Change.rows (m t) l)) := by
  rw [changedWrites_snoc]
  refine .cons ?_ ?_ (written_changed hvalid.of_append)
  · simp [WriteRecord.Finds, hvalid.row]
  · refine (restore_update _).trans ?_
    change Function.update m t (Function.update _ c.row (some c.old)) = _
    rw [← hvalid.row, Function.update_eq_self]

end Written

/-! ## Transactions -/

/-- The write set of a transaction can be undone row by row. -/
structure TxnState.Undoable (s : TxnState) : Prop where
  heaps : s.db.Heaps
  returns : Returns s.writeSet s.db.records
  fits : ∀ w ∈ s.writeSet, w.Fits s.db

section Transactions

variable {cx : Context} {t : String} {tab : TabMeta} {s s' : TxnState} {m : TabRows}
  {e : IndexMeta → IxKey → Option Rid}
  {rids : List Rid} {l done : List (Change Rid Bytes)} {ws : List WriteRecord}

theorem Effect.changesFile {db db' : Db} (h : Effect t tab db db' m e) : ChangesFile db db' t m :=
  ⟨h.schema, h.fhs, h.heap, h.grows⟩

theorem Effect.undoable (h : Effect t tab s.db s'.db m e) (hu : s.Undoable)
    (hws : s'.writeSet = ws ++ s.writeSet)
    (hwritten : Written ws s.db.records (Function.update s.db.records t m))
    (hfits : ∀ w ∈ ws, w.Fits s.db) : s'.Undoable := by
  have hchanges := h.changesFile
  refine ⟨hchanges.heaps hu.heaps, ?_, fun w hw => ?_⟩
  · rw [hws, hchanges.records]
    exact hwritten.append_returns hu.returns
  · rw [hws] at hw
    rcases List.mem_append.mp hw with hw | hw
    · exact hchanges.fits (hfits w hw)
    · exact hchanges.fits (hu.fits w hw)

theorem Effect.undoable_same (h : Effect t tab s.db s'.db (s.db.fhs t).records e) (hu : s.Undoable)
    (hws : s'.writeSet = s.writeSet) : s'.Undoable := by
  refine h.undoable hu (hws.trans (List.nil_append _).symm) ?_ fun _ hw =>
    absurd hw List.not_mem_nil
  rw [show (s.db.fhs t).records = s.db.records t from rfl, Function.update_eq_self]
  exact written_nil

theorem Deleted.undoable (h : Deleted t tab (s.db.fhs t).records s rids s') (hu : s.Undoable)
    (hnodup : rids.Nodup)
    (hlive : ∀ rid ∈ rids, ((s.db.fhs t).records rid).isSome) : s'.Undoable := by
  refine h.2.undoable hu h.1 (written_deleted (m := s.db.records) hnodup hlive) fun w hw => ?_
  obtain ⟨rid, hrid, rfl⟩ := List.mem_map.mp (List.mem_reverse.mp hw)
  obtain ⟨rec, hrec⟩ := Option.isSome_iff_exists.mp (hlive rid hrid)
  rw [hrec]
  exact ⟨RmFile.validRid_of_records hrec, RmFile.length_of_records hrec⟩

theorem fits_changedWrites (hvalid : Change.Valid (s.db.fhs t).records l) :
    ∀ w ∈ changedWrites t l, w.Fits s.db := by
  intro w hw
  obtain ⟨c, hc, rfl⟩ := List.mem_map.mp (List.mem_reverse.mp hw)
  exact RmFile.length_of_records (hvalid.old c hc)

theorem Changed.undoable (h : Changed t tab (s.db.fhs t).records s l l s') (hu : s.Undoable)
    (hvalid : Change.Valid (s.db.fhs t).records l) : s'.Undoable :=
  h.2.undoable hu h.1 (written_changed (m := s.db.records) hvalid) (fits_changedWrites hvalid)

theorem Stopped.undoable (h : Stopped cx t tab (s.db.fhs t).records s rids l s') (hu : s.Undoable) :
    s'.Undoable := by
  rcases h with ⟨done, ⟨rest, rfl⟩, hchecks, hchanged⟩ | ⟨done, c, rest, rfl, -, hchecks,
    hchanged, -⟩
  · refine hchanged.undoable hu ?_
    rcases hchecks with rfl | hchecks
    · exact ⟨List.nodup_nil, fun _ h => absurd h List.not_mem_nil⟩
    · exact hchecks.1.of_append
  · have hvalid := hchecks.1
    rw [← List.singleton_append, ← List.append_assoc] at hvalid
    exact hchanged.2.undoable hu hchanged.1 (written_half (m := s.db.records) hvalid.of_append)
      (fits_changedWrites hvalid.of_append)

/-- A statement leaves a transaction that can be undone, at its end and where it is stopped. -/
theorem Call.undoable {call : Call} (hu : s.Undoable) (hfinds : call.Finds s.db) :
    Yields TxnState.Undoable (fun _ s' => s'.Undoable) (call.run s) := by
  unfold Call.run Statement.run
  refine Yields.bind ((lockRequests_yields _).mono (fun _ => id) fun _ _ h => h ▸ hu) fun _ _ => ?_
  obtain ⟨cx, st, scanned, rids⟩ := call
  cases st with
  | insert t values =>
    refine getTable_yields (fun _ => hu) fun tab ht =>
      (insertNext_yields ht (hu.heaps t tab ht)).mono ?_ ?_
    · rintro s' ⟨rid, rec, hnone, -, hws, heff⟩
      have hws' : s'.writeSet = [.insertTuple t rid] ++ s.writeSet := hws
      refine heff.undoable hu hws' (written_insert (m := s.db.records) hnone) fun w hw => ?_
      rw [List.mem_singleton.mp hw]
      trivial
    · rintro _ s' ⟨hws, heff⟩
      exact heff.undoable_same hu hws
  | delete t conds =>
    refine getTable_yields (fun _ => hu) fun tab ht =>
      (deleteNext_yields ht (hu.heaps t tab ht) hfinds.1 hfinds.2).mono
        (fun s' h => h.undoable hu hfinds.1 hfinds.2) ?_
    rintro _ s' ⟨done, hdone, hdeleted⟩
    exact hdeleted.undoable hu (hfinds.1.sublist hdone.sublist) fun rid hrid =>
      hfinds.2 rid (hdone.subset hrid)
  | update t setClauses conds =>
    refine getTable_yields (fun _ => hu) fun tab ht =>
      (updateNext_yields ht (hu.heaps t tab ht) hfinds.1 hfinds.2).mono ?_ fun _ s' h =>
        h.undoable hu
    rintro s' ⟨-, hchecks, hchanged⟩
    exact hchanged.undoable hu hchecks.1

end Transactions

end Rmdb
