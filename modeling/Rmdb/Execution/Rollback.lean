import Rmdb.Execution.Consistency
import Rmdb.Lib.Run

/-!
# Abort puts everything back

The undo of a transaction goes back through its write set.  It does not retrace the index entries
one by one: after an update that gave two rows one key, the entries that come back on the way differ
from those that were there.  What it keeps is that the entries are sound and that rows with a key of
their own have theirs, and at the start of the transaction every row has.

One interruption breaks this.  An update changes the index and appends to the write set before it
asks for the lock on the record; when that request is refused, the undo finds the old record in the
file, concludes that the key did not change, and leaves the new entries.
-/

namespace Rmdb

open KeyIndex

/-- The keys of two records are written with the same bytes in an index. -/
def SameBytes (index : IndexMeta) (rec rec' : Bytes) : Prop :=
  buildIndexKey index rec = buildIndexKey index rec'

instance (index : IndexMeta) : DecidableRel (SameBytes index) := fun rec rec' =>
  inferInstanceAs (Decidable (buildIndexKey index rec = buildIndexKey index rec'))

theorem SameBytes.key_eq {index : IndexMeta} {rec rec' : Bytes} (h : SameBytes index rec rec') :
    index.key rec = index.key rec' :=
  congrArg (ixKey (indexColMeta index)) h

/-! ## The state of an undo -/

/-- The undo has reached `db'` where the transaction was at `db`, as far as the table `t` goes. -/
structure RevertsTable (db db' : Db) (t : String) (tab : TabMeta) : Prop where
  hdr : (db'.fhs t).hdr.WellFormed
  grows : (db.fhs t).Extends (db'.fhs t)
  records : (db'.fhs t).records = (db.fhs t).records
  indexes : ∀ index ∈ tab.indexes,
    Covers index.key (db.fhs t).records (db.entries t index) (db'.entries t index)

/-- The undo has reached `db'` where the transaction was at `db`. -/
structure Reverts (db db' : Db) : Prop where
  schema : db'.schema = db.schema
  tables : ∀ t tab, db.HasTable t tab → RevertsTable db db' t tab

/-- An undo within a statement on the table `t` that began at `db`: the rows of `t` are `m`, and its
entries satisfy `C`. -/
structure Undoing (t : String) (tab : TabMeta) (db db' : Db) (m : Rid → Option Bytes)
    (C : IndexMeta → (IxKey → Option Rid) → Prop) : Prop where
  schema : db'.schema = db.schema
  others : ∀ t' tab', db.HasTable t' tab' → t' ≠ t → RevertsTable db db' t' tab'
  hdr : (db'.fhs t).hdr.WellFormed
  grows : (db.fhs t).Extends (db'.fhs t)
  records : (db'.fhs t).records = m
  indexes : ∀ index ∈ tab.indexes, C index (db'.entries t index)

section Undo

variable {t : String} {tab : TabMeta} {db db' : Db} {m m' : Rid → Option Bytes}
  {C C' : IndexMeta → (IxKey → Option Rid) → Prop} {rid : Rid} {rec old cur : Bytes}

/-- Other tables do not see a change of the file and the indexes of `t`. -/
theorem RevertsTable.congr {db'' : Db} {t' : String} {tab' : TabMeta}
    (h : RevertsTable db db' t' tab') (hfhs : db''.fhs t' = db'.fhs t')
    (hihs : ∀ index ∈ tab'.indexes, db''.entries t' index = db'.entries t' index) :
    RevertsTable db db'' t' tab' := by
  refine ⟨hfhs ▸ h.hdr, hfhs ▸ h.grows, hfhs ▸ h.records, fun index hindex => ?_⟩
  rw [hihs index hindex]
  exact h.indexes index hindex

/-- One step of the undo: a change of the indexes of the table and a new file. -/
theorem Undoing.step {db'' : Db} {fh : RmFile}
    {g : IndexMeta → (IxKey → Option Rid) → IxKey → Option Rid} (ht : db.HasTable t tab)
    (h : Undoing t tab db db' m C) (hg : MapsIndexes t tab.indexes g db' db'')
    (hfh : RmFile.SameShape (db'.fhs t) fh) (hrecords : fh.records = m')
    (hC : ∀ index ∈ tab.indexes, ∀ e, C index e → C' index (g index e)) :
    Undoing t tab db (db''.setFh t fh) m' C' := by
  have hself : (db''.setFh t fh).fhs t = fh := Function.update_self ..
  refine ⟨hg.schema.trans h.schema, fun t' tab' ht' hne => ?_, ?_, ?_, ?_, fun index hindex => ?_⟩
  · refine (h.others t' tab' ht' hne).congr ?_ fun index hindex => ?_
    · rw [← hg.fhs]
      exact Function.update_of_ne hne ..
    · refine hg.other _ fun hmem => ?_
      obtain ⟨index', hindex', hname⟩ := List.mem_map.1 hmem
      exact hne (db.schema.names t' t tab' tab ht' ht index hindex index' hindex' hname.symm)
  · rw [hself]
    exact hfh.wellFormed h.hdr
  · rw [hself]
    exact h.grows.trans (.of_sameShape hfh)
  · rw [hself, hrecords]
  · have hentries : (db''.setFh t fh).entries t index = g index (db'.entries t index) :=
      hg.self index hindex
    rw [hentries]
    exact hC index hindex _ (h.indexes index hindex)

theorem Undoing.getTable (ht : db.HasTable t tab) (h : Undoing t tab db db' m C) :
    (db'.schema.tabs t).elim (Except.error (ExecError.tableNotFound t)) .ok = .ok tab := by
  rw [h.schema, ht]
  rfl

theorem Undoing.getRecord (h : Undoing t tab db db' m C) (hrec : m rid = some rec) :
    ((db'.fhs t).getRecord rid).mapError ExecError.rm = .ok rec := by
  rw [← h.records] at hrec
  rw [RmFile.getRecord_of_records hrec]
  rfl

theorem Undoing.validRid (h : Undoing t tab db db' m C) (hrec : m rid = some rec) :
    (db'.fhs t).ValidRid rid := by
  rw [← h.records] at hrec
  exact RmFile.validRid_of_records hrec

/-- Undoing an insertion. -/
theorem Undoing.undo_insert (ht : db.HasTable t tab) (h : Undoing t tab db db' m C)
    (hrec : m rid = some rec)
    (hC : ∀ index ∈ tab.indexes, ∀ e, C index e → C' index (deleteEntry e (index.key rec))) :
    ∃ db'', undoWriteRecord db' (.insertTuple t rid) = .ok db'' ∧
      Undoing t tab db db'' (Function.update m rid none) C' := by
  have hg : MapsIndexes t tab.indexes (fun index e => deleteEntry e (index.key rec)) db'
      (tab.indexes.foldl (Db.deleteIndexEntry t rec) db') := mapsIndexes_foldl ht.nodup
  obtain ⟨fh, hfh, hputs⟩ := RmFile.deleteRecord_puts h.hdr (h.validRid hrec)
  refine ⟨_, ?_, h.step ht hg hputs.1 ?_ hC⟩
  · rw [undoWriteRecord, h.getTable ht, h.getRecord hrec]
    simp only [bind, Except.bind, hg.fhs, hfh, Except.mapError]
    rfl
  · rw [hputs.records (h.validRid hrec), h.records]
    rfl

/-- Undoing a deletion. -/
theorem Undoing.undo_delete (ht : db.HasTable t tab) (h : Undoing t tab db db' m C)
    (hrec : (db.fhs t).ValidRid rid) (hsize : rec.length = (db.fhs t).hdr.recordSize)
    (hC : ∀ index ∈ tab.indexes, ∀ e, C index e → C' index (insertEntry e (index.key rec) rid)) :
    ∃ db'', undoWriteRecord db' (.deleteTuple t rid rec) = .ok db'' ∧
      Undoing t tab db db'' (Function.update m rid (some rec)) C' := by
  have hvalid := h.grows.validRid hrec
  obtain ⟨fh, hfh, hputs⟩ := RmFile.insertRecordAt_puts h.hdr hvalid
    (hsize.trans h.grows.recordSize.symm)
  have hg : MapsIndexes t tab.indexes (fun index e => insertEntry e (index.key rec) rid) db'
      (tab.indexes.foldl (Db.insertIndexEntry t rec rid) db') := mapsIndexes_foldl ht.nodup
  have hcomm (l : List IndexMeta) (db₁ : Db) :
    l.foldl (Db.insertIndexEntry t rec rid) (db₁.setFh t fh) =
      (l.foldl (Db.insertIndexEntry t rec rid) db₁).setFh t fh := by
    induction l generalizing db₁ with
    | nil => rfl
    | cons index l ih => exact ih (db₁.insertIndexEntry t rec rid index)
  refine ⟨_, ?_, h.step ht hg hputs.1 ?_ hC⟩
  · rw [undoWriteRecord, h.getTable ht]
    simp only [bind, Except.bind, hfh, Except.mapError]
    exact congrArg Except.ok (hcomm _ _)
  · rw [hputs.records hvalid, h.records]
    rfl

/-- Undoing an update. -/
theorem Undoing.undo_update (ht : db.HasTable t tab) (h : Undoing t tab db db' m C)
    (hcur : m rid = some cur) (hsize : old.length = (db.fhs t).hdr.recordSize)
    (hC : ∀ index ∈ tab.indexes, ∀ e, C index e → C' index
      (if SameBytes index old cur then e
        else insertEntry (deleteEntry e (index.key cur)) (index.key old) rid)) :
    ∃ db'', undoWriteRecord db' (.updateTuple t rid old) = .ok db'' ∧
      Undoing t tab db db'' (Function.update m rid (some old)) C' := by
  have hstep : (fun (db : Db) index => if buildIndexKey index old = buildIndexKey index cur then db
      else (db.deleteIndexEntry t cur index).insertIndexEntry t old rid index) =
      Db.mapIndex t fun index e => if SameBytes index old cur then e
        else insertEntry (deleteEntry e (index.key cur)) (index.key old) rid := by
    funext db index
    by_cases hbytes : SameBytes index old cur
    · rw [if_pos (show buildIndexKey index old = buildIndexKey index cur from hbytes)]
      simp only [Db.mapIndex, if_pos hbytes, Db.setIh, Function.update_eq_self]
    · rw [if_neg (show ¬ buildIndexKey index old = buildIndexKey index cur from hbytes)]
      simp only [Db.mapIndex, if_neg hbytes, Db.insertIndexEntry, Db.deleteIndexEntry, Db.setIh,
        Function.update_idem, Function.update_self]
  obtain ⟨fh, hfh, hputs⟩ := RmFile.updateRecord_puts h.hdr (h.validRid hcur)
    (hsize.trans h.grows.recordSize.symm)
  have hg : MapsIndexes t tab.indexes (fun index e => if SameBytes index old cur then e
      else insertEntry (deleteEntry e (index.key cur)) (index.key old) rid) db' _ :=
    mapsIndexes_foldl ht.nodup
  refine ⟨_, ?_, h.step ht hg hputs.1 ?_ hC⟩
  · rw [undoWriteRecord, h.getTable ht, h.getRecord hcur]
    simp only [bind, Except.bind, hstep, hg.fhs, hfh, Except.mapError]
    rfl
  · rw [hputs.records (h.validRid hcur), h.records]
    have hused : ((db'.fhs t).slotAt rid).used := by
      rw [← Slot.val_isSome, ← RmFile.records_of_validRid (h.validRid hcur), h.records, hcur]
      rfl
    exact congrArg _ (Slot.val_of_used hused)

end Undo

/-! ## Whole statements -/

/-- The table files are well formed, and what the indexes find is there. -/
def Db.Sound (db : Db) : Prop := db.Relates KeyIndex.Sound

section Statements

variable {cx : Context} {t : String} {tab : TabMeta} {db db' : Db} {s s' : TxnState}
  {m : Rid → Option Bytes} {e : IndexMeta → IxKey → Option Rid} {rids : List Rid}

theorem Db.Consistent.sound (h : db.Consistent) : db.Sound := fun t tab ht =>
  ⟨(h t tab ht).1, fun index hindex => ((h t tab ht).2 index hindex).sound⟩

theorem Db.Sound.reverts (h : db.Sound) : Reverts db db :=
  ⟨rfl, fun t tab ht => ⟨(h t tab ht).1.hdr, .refl _, rfl, fun index hindex =>
    ((h t tab ht).2 index hindex).covers⟩⟩

/-- An undo that reached the end of a statement on `t`. -/
theorem Effect.undoing {db'' : Db} (h : Effect t tab db db' m e) (ht : db.HasTable t tab)
    (hr : Reverts db' db'') :
    Undoing t tab db db'' m fun index => Covers index.key m (e index) := by
  have ht' : db'.HasTable t tab := by
    rw [Db.HasTable, h.schema]
    exact ht
  obtain ⟨hhdr, hgrows, hrecords, hindexes⟩ := hr.tables t tab ht'
  rw [← h.heap.eq_records] at hrecords
  refine ⟨hr.schema.trans h.schema, fun t₁ tab₁ ht₁ hne => ?_, hhdr, h.grows.trans hgrows, hrecords,
    fun index hindex => ?_⟩
  · obtain ⟨hhdr, hgrows, hrecords, hindexes⟩ := hr.tables t₁ tab₁ (by
      rw [Db.HasTable, h.schema]
      exact ht₁)
    rw [h.fhs t₁ hne] at hgrows hrecords hindexes
    refine ⟨hhdr, hgrows, hrecords, fun index hindex => ?_⟩
    rw [← h.entries_of_ne ht ht₁ hne hindex]
    exact hindexes index hindex
  · have hcovers := hindexes index hindex
    rw [← h.heap.eq_records, Db.entries, h.index index hindex] at hcovers
    exact hcovers

/-- An undo that reached the start of a statement on `t`. -/
theorem Undoing.reverts (ht : db.HasTable t tab)
    (h : Undoing t tab db db' (db.fhs t).records fun index =>
      Covers index.key (db.fhs t).records (db.entries t index)) : Reverts db db' := by
  refine ⟨h.schema, fun t' tab' ht' => ?_⟩
  by_cases heq : t' = t
  · subst heq
    obtain rfl : tab' = tab := Option.some.inj (ht'.symm.trans ht)
    exact ⟨h.hdr, h.grows, h.records, h.indexes⟩
  · exact h.others t' tab' ht' heq

/-- From wherever an undo reached the state `s'`, it goes on to `s`. -/
def UndoesTo (s s' : TxnState) : Prop :=
  ∃ ws, s'.writeSet = ws ++ s.writeSet ∧ ∀ db', Reverts s'.db db' →
    ∃ db'', ws.foldlM undoWriteRecord db' = .ok db'' ∧ Reverts s.db db''

theorem Effect.undoesTo (h : Effect t tab s.db s'.db m e) (ht : s.db.HasTable t tab)
    (ws : List WriteRecord) (hws : s'.writeSet = ws ++ s.writeSet)
    (hundo : ∀ db', Undoing t tab s.db db' m (fun index => Covers index.key m (e index)) →
      ∃ db'', ws.foldlM undoWriteRecord db' = .ok db'' ∧
        Undoing t tab s.db db'' (s.db.fhs t).records fun index =>
          Covers index.key (s.db.fhs t).records (s.db.entries t index)) : UndoesTo s s' := by
  refine ⟨ws, hws, fun db' hr => ?_⟩
  obtain ⟨db'', hrun, hundoing⟩ := hundo db' (h.undoing ht hr)
  exact ⟨db'', hrun, hundoing.reverts ht⟩

theorem undoesTo_insert {values : List Value} (hs : s.db.Sound) (ht : s.db.HasTable t tab) :
    Yields (fun s' => s'.db.Sound ∧ UndoesTo s s') (fun _ s' => s'.db.Sound ∧ UndoesTo s s')
      (insertNext cx t values s) := by
  obtain ⟨hheap, hindexes⟩ := hs t tab ht
  refine (insertNext_yields ht hheap).mono ?_ ?_
  · rintro s' ⟨rid, rec, hnone, hfree, hws, heff⟩
    refine ⟨(heff.relates_iff ht hs).2 fun index hindex => (hindexes index hindex).insert hnone,
      heff.undoesTo ht [.insertTuple t rid] hws fun db' hdb' => ?_⟩
    obtain ⟨db'', hrun, hundoing⟩ := hdb'.undo_insert ht (Function.update_self ..)
      fun index hindex e he => he.undo_insert (hfree index hindex)
    rw [Function.update_idem, ← hnone, Function.update_eq_self] at hundoing
    refine ⟨db'', ?_, hundoing⟩
    rw [List.foldlM_cons, hrun]
    rfl
  · rintro _ s' ⟨hws, heff⟩
    exact ⟨(heff.relates_iff ht hs).2 hindexes, heff.undoesTo ht [] hws fun db' hdb' =>
      ⟨db', rfl, hdb'⟩⟩

/-! ### Deletions -/

theorem sound_deleted {key : Bytes → IxKey} {e : IxKey → Option Rid} (h : KeyIndex.Sound key m e)
    (hnodup : rids.Nodup) (hlive : ∀ rid ∈ rids, (m rid).isSome) :
    KeyIndex.Sound key (deletedRows m rids) (deletedEntries key m e rids) := by
  induction rids using List.reverseRecOn with
  | nil => exact h
  | append_singleton rids rid ih =>
    obtain ⟨rec, -, hrow, hrows, hentries⟩ := deleted_snoc hnodup hlive
    rw [hrows, hentries]
    refine (ih ?_ ?_).delete hrow
    · exact (List.nodup_append.1 hnodup).1
    · exact fun rid' hrid' => hlive rid' (List.mem_append_left _ hrid')

/-- Undoing deletions from the last to the first. -/
theorem Undoing.undo_deleted (ht : db.HasTable t tab) (hm : m = (db.fhs t).records)
    (hnodup : rids.Nodup) (hlive : ∀ rid ∈ rids, (m rid).isSome)
    (h : Undoing t tab db db' (deletedRows m rids) fun index =>
      Covers index.key (deletedRows m rids) (deletedEntries index.key m (e index) rids)) :
    ∃ db'', (deletedWrites t m rids).foldlM undoWriteRecord db' = .ok db'' ∧
      Undoing t tab db db'' m fun index => Covers index.key m (e index) := by
  induction rids using List.reverseRecOn generalizing db' with
  | nil => exact ⟨db', rfl, h⟩
  | append_singleton rids rid ih =>
    obtain ⟨rec, hrec, hrow, hrows, hentries⟩ := deleted_snoc hnodup hlive
    have hrecord : (db.fhs t).records rid = some rec := by rw [← hm, hrec]
    obtain ⟨db₁, hrun, hundoing⟩ : ∃ db₁, undoWriteRecord db' (.deleteTuple t rid rec) = .ok db₁ ∧
        Undoing t tab db db₁ (Function.update (deletedRows m (rids ++ [rid])) rid (some rec))
          fun index =>
          Covers index.key (deletedRows m rids) (deletedEntries index.key m (e index) rids) := by
      refine h.undo_delete ht (RmFile.validRid_of_records hrecord)
        (RmFile.length_of_records hrecord)
        fun index _ e' he' => ?_
      rw [hrows, hentries] at he'
      exact he'.undo_delete hrow
    rw [hrows, Function.update_idem, ← hrow, Function.update_eq_self] at hundoing
    obtain ⟨db'', hrun', hundoing'⟩ := ih (List.nodup_append.1 hnodup).1
      (fun rid' hrid' => hlive rid' (List.mem_append_left _ hrid')) hundoing
    refine ⟨db'', ?_, hundoing'⟩
    have hwrites : deletedWrites t m (rids ++ [rid]) =
        .deleteTuple t rid rec :: deletedWrites t m rids := by
      simp [deletedWrites, hrec]
    rw [hwrites, List.foldlM_cons, hrun]
    exact hrun'

theorem undoesTo_delete (hs : s.db.Sound) (ht : s.db.HasTable t tab) (hnodup : rids.Nodup)
    (hlive : ∀ rid ∈ rids, ((s.db.fhs t).records rid).isSome) :
    Yields (fun s' => s'.db.Sound ∧ UndoesTo s s') (fun _ s' => s'.db.Sound ∧ UndoesTo s s')
      (deleteNext cx t rids s) := by
  obtain ⟨hheap, hindexes⟩ := hs t tab ht
  have hdeleted (done : List Rid) (hdone : done <+: rids) (s' : TxnState)
      (h : Deleted t tab (s.db.fhs t).records s done s') : s'.db.Sound ∧ UndoesTo s s' := by
    obtain ⟨hws, heff⟩ := h
    have hnodup' := hnodup.sublist hdone.sublist
    have hlive' := fun rid hrid => hlive rid (hdone.subset hrid)
    refine ⟨(heff.relates_iff ht hs).2 fun index hindex =>
      sound_deleted (hindexes index hindex) hnodup' hlive', ?_⟩
    exact heff.undoesTo ht _ hws fun db' hdb' => hdb'.undo_deleted ht rfl hnodup' hlive'
  refine (deleteNext_yields ht hheap hnodup hlive).mono (hdeleted rids List.prefix_rfl) ?_
  rintro _ s' ⟨done, hdone, hs'⟩
  exact hdeleted done hdone s' hs'

/-! ### Updates -/

/-- Undoing changes from the last to the first. -/
theorem Undoing.undo_changed {l : List (Change Rid Bytes)} (ht : db.HasTable t tab)
    (hm : m = (db.fhs t).records)
    (hsound : ∀ index ∈ tab.indexes, KeyIndex.Sound index.key m (db.entries t index))
    (hchecks : ChecksAll t tab m db l)
    (h : Undoing t tab db db' (Change.rows m l) fun index =>
      Change.CoversAfter index.key (SameBytes index) m (db.entries t index) l) :
    ∃ db'', (changedWrites t l).foldlM undoWriteRecord db' = .ok db'' ∧
      Undoing t tab db db'' m fun index => Covers index.key m (db.entries t index) := by
  induction l using List.reverseRecOn generalizing db' with
  | nil =>
    exact ⟨db', rfl, { h with indexes := fun index hindex => (h.indexes index hindex).covers }⟩
  | append_singleton l c ih =>
    have hc : c ∈ l ++ [c] := List.mem_append_right _ List.mem_cons_self
    have hold : (db.fhs t).records c.row = some c.old := by rw [← hm, hchecks.1.old c hc]
    obtain ⟨db₁, hrun, hundoing⟩ :
      ∃ db₁, undoWriteRecord db' (.updateTuple t c.row c.old) = .ok db₁ ∧
        Undoing t tab db db₁ (Function.update (Change.rows m (l ++ [c])) c.row (some c.old))
          fun index =>
          Change.CoversAfter index.key (SameBytes index) m (db.entries t index) l := by
      refine h.undo_update ht (hchecks.1.rows_of_mem hc) (RmFile.length_of_records hold)
        fun index hindex e he => ?_
      exact he.undo (fun _ _ => SameBytes.key_eq) (hsound index hindex) (hchecks.checked hindex)
    rw [Change.rows_snoc, Change.applyRow, Function.update_idem, ← hchecks.1.row,
      Function.update_eq_self] at hundoing
    obtain ⟨db'', hrun', hundoing'⟩ := ih hchecks.of_append hundoing
    refine ⟨db'', ?_, hundoing'⟩
    rw [changedWrites_snoc, List.foldlM_cons, hrun]
    exact hrun'

/-- Changes that reached the index and the file. -/
theorem undoesTo_changed {l : List (Change Rid Bytes)} (hs : s.db.Sound) (ht : s.db.HasTable t tab)
    (hchecks : ChecksAll t tab (s.db.fhs t).records s.db l)
    (h : Changed t tab (s.db.fhs t).records s l l s') : s'.db.Sound ∧ UndoesTo s s' := by
  obtain ⟨hws, heff⟩ := h
  obtain ⟨-, hindexes⟩ := hs t tab ht
  refine ⟨(heff.relates_iff ht hs).2 fun index hindex =>
    (hchecks.checked hindex).sound (hindexes index hindex), ?_⟩
  refine heff.undoesTo ht _ hws fun db' hdb' => Undoing.undo_changed ht rfl hindexes hchecks ?_
  exact { hdb' with indexes := fun index hindex =>
    (hchecks.checked hindex).coversAfter (fun _ _ => SameBytes.key_eq) (hdb'.indexes index hindex) }

/-- The undo from a state itself. -/
def RollsBackTo (s s' : TxnState) : Prop :=
  ∃ ws, s'.writeSet = ws ++ s.writeSet ∧
    ∃ db', ws.foldlM undoWriteRecord s'.db = .ok db' ∧ Reverts s.db db'

theorem UndoesTo.rollsBackTo (h : UndoesTo s s') (hs' : s'.db.Sound) : RollsBackTo s s' := by
  obtain ⟨ws, hws, hundo⟩ := h
  exact ⟨ws, hws, hundo s'.db hs'.reverts⟩

/-- A last change that reached the index only, and keeps the keys. -/
theorem rollsBackTo_half {done : List (Change Rid Bytes)} {c : Change Rid Bytes} (hs : s.db.Sound)
    (ht : s.db.HasTable t tab) (hchecks : ChecksAll t tab (s.db.fhs t).records s.db (done ++ [c]))
    (hkeys : ∀ index ∈ tab.indexes, index.key c.new = index.key c.old)
    (h : Changed t tab (s.db.fhs t).records s (done ++ [c]) done s') : RollsBackTo s s' := by
  obtain ⟨hws, heff⟩ := h
  obtain ⟨hheap, hindexes⟩ := hs t tab ht
  have hc : c ∈ done ++ [c] := List.mem_append_right _ List.mem_cons_self
  have hold := hchecks.1.old c hc
  have hundoing : Undoing t tab s.db s'.db (Change.rows (s.db.fhs t).records done) fun index =>
      Change.CoversAfter index.key (SameBytes index) (s.db.fhs t).records
        (s.db.entries t index) done := by
    refine ⟨heff.schema, fun t' tab' ht' hne => ?_, heff.heap.hdr, heff.grows,
      heff.heap.eq_records.symm,
      fun index hindex => ?_⟩
    · refine (hs.reverts.tables t' tab' ht').congr (heff.fhs t' hne) fun index hindex => ?_
      exact heff.entries_of_ne ht ht' hne hindex
    · have hentries : s'.db.entries t index = _ := heff.index index hindex
      rw [hentries, Change.entries_snoc]
      exact (hchecks.checked hindex).coversAfter_half (fun _ _ => SameBytes.key_eq)
        (hindexes index hindex) (hkeys index hindex)
  -- the undo finds the old record and leaves the index alone
  obtain ⟨db₁, hrun, hundoing₁⟩ :
    ∃ db₁, undoWriteRecord s'.db (.updateTuple t c.row c.old) = .ok db₁ ∧
      Undoing t tab s.db db₁ (Function.update (Change.rows (s.db.fhs t).records done) c.row
        (some c.old))
        fun index => Change.CoversAfter index.key (SameBytes index) (s.db.fhs t).records
          (s.db.entries t index) done := by
    refine hundoing.undo_update ht hchecks.1.row (RmFile.length_of_records hold)
      fun index _ e he => ?_
    rw [if_pos (show SameBytes index c.old c.old from rfl)]
    exact he
  rw [← hchecks.1.row, Function.update_eq_self] at hundoing₁
  obtain ⟨db'', hrun', hundoing'⟩ :=
    Undoing.undo_changed ht rfl hindexes hchecks.of_append hundoing₁
  refine ⟨_, hws, db'', ?_, hundoing'.reverts ht⟩
  rw [changedWrites_snoc, List.foldlM_cons, hrun]
  exact hrun'

/-- Changes that all reached the index and the file can be undone; a last one that reached the index
only can if it keeps the keys. -/
theorem rollsBackTo_stopped {l : List (Change Rid Bytes)} (hs : s.db.Sound)
    (ht : s.db.HasTable t tab) (hstopped : Stopped cx t tab (s.db.fhs t).records s rids l s')
    (hkeys : ∀ done c rest, l = done ++ c :: rest → l.map Change.row = rids →
      ChecksAll t tab (s.db.fhs t).records s.db l →
      (∀ req ∈ requestsBefore cx t tab rids done c, cx.refuses req = false) →
      cx.refuses (.exclusiveOnRecord t c.row) = true →
      ∀ index ∈ tab.indexes, index.key c.new = index.key c.old) : RollsBackTo s s' := by
  rcases hstopped with ⟨done, ⟨rest, rfl⟩, hchecks, hchanged⟩ |
    ⟨done, c, rest, rfl, hrows, hchecks, hchanged, hgranted, hrefused⟩
  · have hchecks' : ChecksAll t tab (s.db.fhs t).records s.db done := by
      rcases hchecks with rfl | hchecks
      · exact ⟨⟨List.nodup_nil, fun _ h => absurd h List.not_mem_nil⟩,
          fun _ _ _ h => absurd h List.not_mem_nil⟩
      · exact hchecks.of_append
    obtain ⟨hs', hundoes⟩ := undoesTo_changed hs ht hchecks' hchanged
    exact hundoes.rollsBackTo hs'
  · have hindexes := hkeys done c rest rfl hrows hchecks hgranted hrefused
    rw [← List.singleton_append, ← List.append_assoc] at hchecks
    exact rollsBackTo_half hs ht hchecks.of_append hindexes hchanged

end Statements

/-! ## Transactions -/

/-- One statement of a transaction: what it runs in, the locks its scan asked for and the rows the
scan found. -/
structure Call where
  cx : Context
  st : Statement
  scanned : List RequestedLock
  rids : List Rid

namespace Call

def run (call : Call) (s : TxnState) : Exec TxnState := call.st.run call.cx call.scanned call.rids s

/-- The scan found rows of the table, each of them once. -/
def Finds (call : Call) (db : Db) : Prop :=
  match call.st with
  | .insert _ _ => True
  | .update t _ _ | .delete t _ =>
    call.rids.Nodup ∧ ∀ rid ∈ call.rids, ((db.fhs t).records rid).isSome

/-- The statement ran to its end. -/
def Completes (s : TxnState) (call : Call) (s' : TxnState) : Prop :=
  call.Finds s.db ∧ call.run s = .ok s'

/-- The statement ended or was stopped by an error. -/
def EndsIn (s : TxnState) (call : Call) (s' : TxnState) : Prop :=
  call.Finds s.db ∧ (call.run s = .ok s' ∨ ∃ err, call.run s = .error (err, s'))

/-- The statement is an update that is refused the lock on the record of a row, after all requests
before this one were granted, and an index key of this row changes. -/
def CutsIndexed (call : Call) (db : Db) : Prop :=
  match call.st with
  | .update t setClauses _ => ∃ tab done c rest, db.HasTable t tab ∧
      planChanges tab setClauses (db.fhs t).records call.rids = done ++ c :: rest ∧
      (done ++ c :: rest).map Change.row = call.rids ∧
      ChecksAll t tab (db.fhs t).records db (done ++ c :: rest) ∧
      (∀ req ∈ call.scanned ++ requestsBefore call.cx t tab call.rids done c,
        call.cx.refuses req = false) ∧
      call.cx.refuses (.exclusiveOnRecord t c.row) = true ∧
      ∃ index ∈ tab.indexes, index.key c.new ≠ index.key c.old
  | _ => False

end Call

section Transactions

variable {t : String} {tab : TabMeta} {db : Db} {s s' : TxnState} {call : Call} {calls : List Call}

theorem UndoesTo.refl (s : TxnState) : UndoesTo s s := ⟨[], rfl, fun db' h => ⟨db', rfl, h⟩⟩

theorem UndoesTo.trans {s'' : TxnState} (h : UndoesTo s s') (h' : UndoesTo s' s'') :
    UndoesTo s s'' := by
  obtain ⟨ws, hws, hundo⟩ := h
  obtain ⟨ws', hws', hundo'⟩ := h'
  refine ⟨ws' ++ ws, by rw [hws', hws, List.append_assoc], fun db hdb => ?_⟩
  obtain ⟨db', hrun', hdb'⟩ := hundo' db hdb
  obtain ⟨db'', hrun, hdb''⟩ := hundo db' hdb'
  refine ⟨db'', ?_, hdb''⟩
  rw [List.foldlM_append, hrun']
  exact hrun

theorem RollsBackTo.trans {s'' : TxnState} (h : UndoesTo s s') (h' : RollsBackTo s' s'') :
    RollsBackTo s s'' := by
  obtain ⟨ws, hws, hundo⟩ := h
  obtain ⟨ws', hws', db', hrun', hdb'⟩ := h'
  obtain ⟨db'', hrun, hdb''⟩ := hundo db' hdb'
  refine ⟨ws' ++ ws, by rw [hws', hws, List.append_assoc], db'', ?_, hdb''⟩
  rw [List.foldlM_append, hrun']
  exact hrun

/-- A statement on no table changes nothing. -/
theorem getTable_yields {f : TabMeta → Exec TxnState} {P : TxnState → Prop}
    {E : ExecError → TxnState → Prop} (hE : ∀ err, E err s)
    (hf : ∀ tab, s.db.HasTable t tab → Yields P E (s.getTable t >>= f)) :
    Yields P E (s.getTable t >>= f) := by
  cases ht : s.db.schema.tabs t with
  | none =>
    simp only [TxnState.getTable, ht]
    exact hE _
  | some tab => exact hf tab ht

/-- A statement can be undone at its end, and where it is stopped unless it cuts an indexed row. -/
theorem Call.run_yields (hs : s.db.Sound) (hfinds : call.Finds s.db) :
    Yields (fun s' => s'.db.Sound ∧ UndoesTo s s')
      (fun _ s' => ¬ call.CutsIndexed s.db → RollsBackTo s s') (call.run s) := by
  have hrefl : RollsBackTo s s := (UndoesTo.refl s).rollsBackTo hs
  have herror (err : ExecError) (s' : TxnState) (h : s'.db.Sound ∧ UndoesTo s s') :
      ¬ call.CutsIndexed s.db → RollsBackTo s s' := fun _ => h.2.rollsBackTo h.1
  unfold Call.run Statement.run
  refine ((lockRequests_yields _).mono (fun _ => id) ?_).bind fun _ hscanned => ?_
  · rintro _ s' rfl _
    exact hrefl
  · obtain ⟨cx, st, scanned, rids⟩ := call
    cases st with
    | insert t values =>
      exact getTable_yields (fun _ _ => hrefl) fun tab ht => (undoesTo_insert hs ht).mono
        (fun _ => id) herror
    | delete t conds =>
      refine getTable_yields (fun _ _ => hrefl) fun tab ht => ?_
      exact (undoesTo_delete hs ht hfinds.1 hfinds.2).mono (fun _ => id) herror
    | update t setClauses conds =>
      refine getTable_yields (fun _ _ => hrefl) fun tab ht => ?_
      obtain ⟨hheap, -⟩ := hs t tab ht
      refine (updateNext_yields ht hheap hfinds.1 hfinds.2).mono ?_ ?_
      · rintro s' ⟨-, hchecks, hchanged⟩
        exact undoesTo_changed hs ht hchecks hchanged
      · intro _ s' hstopped hcut
        refine rollsBackTo_stopped hs ht hstopped
          fun done c rest hplan hrows hchecks hgranted hrefused => ?_
        by_contra! hkey
        rw [hplan] at hrows hchecks
        refine hcut ⟨tab, done, c, rest, ht, hplan, hrows, hchecks, fun req hreq => ?_,
          hrefused, hkey⟩
        rcases List.mem_append.1 hreq with hreq | hreq
        · exact hscanned req hreq
        · exact hgranted req hreq

/-- A run of whole statements can be undone. -/
theorem undoesTo_run (hrun : Run Call.Completes s calls s') (hs : s.db.Sound) :
    s'.db.Sound ∧ UndoesTo s s' := by
  refine hrun.invariant (P := fun s' => s'.db.Sound ∧ UndoesTo s s') ?_ ⟨hs, .refl s⟩
  rintro s₁ call s₂ ⟨hfinds, hok⟩ ⟨hs₁, hundoes⟩
  obtain ⟨hs₂, hundoes'⟩ := (Call.run_yields hs₁ hfinds).of_ok hok
  exact ⟨hs₂, hundoes.trans hundoes'⟩

theorem Call.EndsIn.rollsBackTo (hs : s.db.Sound) (h : call.EndsIn s s')
    (hcut : ¬ call.CutsIndexed s.db) : RollsBackTo s s' := by
  obtain ⟨hfinds, hok | ⟨err, herr⟩⟩ := h
  · obtain ⟨hs', hundoes⟩ := (Call.run_yields hs hfinds).of_ok hok
    exact hundoes.rollsBackTo hs'
  · exact (Call.run_yields hs hfinds).of_error herr hcut

/-- An undo from the start of the transaction on leaves rows and entries as they were. -/
theorem RollsBackTo.abort (h : RollsBackTo ⟨db, []⟩ s) (hdb : db.Consistent) :
    ∃ db', abort s = .ok db' ∧ ∀ t tab, db.HasTable t tab →
    (db'.fhs t).records = (db.fhs t).records ∧
      ∀ index ∈ tab.indexes, db'.entries t index = db.entries t index := by
  obtain ⟨ws, hws, db', hundo, hreverts⟩ := h
  rw [List.append_nil] at hws
  refine ⟨db', by rw [Rmdb.abort, hws, hundo], fun t tab ht => ?_⟩
  obtain ⟨-, -, hrecords, hindexes⟩ := hreverts.tables t tab ht
  exact ⟨hrecords, fun index hindex =>
    ((hdb t tab ht).2 index hindex).eq_of_covers (hindexes index hindex)⟩

end Transactions

/-- The state in which a computation stopped. -/
def stoppedAt (x : Exec TxnState) : Option TxnState :=
  match x with
  | .ok _ => none
  | .error err => some err.2

theorem exists_error_of_any {x : Exec TxnState} {p : TxnState → Bool}
    (h : (stoppedAt x).any p = true) : ∃ err s, x = .error (err, s) ∧ p s = true := by
  cases x with
  | ok a => cases h
  | error err => exact ⟨err.1, err.2, rfl, h⟩

/-- The insertion of a third row. -/
def insertThird : Call := ⟨freeContext, .insert "t" [.int 3, .int 5], [], []⟩

/-- The first row gets the key 4. -/
def updateFirstRow : Call := ⟨freeContext, .update "t" [⟨"a", [4, 0, 0, 0]⟩] [], [], [⟨1, 0⟩]⟩

/-- Another transaction holds the lock on the second of the rows to be deleted. -/
def deleteRefused : Call :=
  ⟨⟨fun req => req = .exclusiveOnRecord "t" ⟨1, 1⟩, true⟩, .delete "t" [], [], [⟨1, 0⟩, ⟨1, 1⟩]⟩

/-- The insertion of the number 1. -/
def insertOne : Call := ⟨freeContext, .insert "t" [.int 1], [], []⟩

/-- The update of the only row, whose lock another transaction holds. -/
def updateRefused : Call :=
  ⟨⟨fun req => req = .exclusiveOnRecord "t" ⟨1, 0⟩, true⟩, .update "t" [⟨"a", [3, 0, 0, 0]⟩] [],
    [], [⟨1, 0⟩]⟩

end Rmdb
