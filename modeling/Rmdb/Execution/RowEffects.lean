import Rmdb.Execution.ColumnValues
import Rmdb.Execution.Dml
import Rmdb.Lib.Outcome

/-!
# What the executors do to a table

Each executor is specified by its effect on the rows and the index entries of its table, for the
rows it got to before it ended or was stopped, and by what it appended to the write set.
-/

namespace Rmdb

open KeyIndex

/-! ## Changing the indexes of a table -/

/-- A change of one index of a table. -/
def Db.mapIndex (t : String) (g : IndexMeta → (IxKey → Option Rid) → IxKey → Option Rid) (db : Db)
    (index : IndexMeta) : Db :=
  db.setIh (getIndexName t index.cols) (g index (db.ihs (getIndexName t index.cols)))

/-- The effect of a loop over the indexes of a table. -/
structure MapsIndexes (t : String) (indexes : List IndexMeta)
    (g : IndexMeta → (IxKey → Option Rid) → IxKey → Option Rid) (db db' : Db) : Prop where
  schema : db'.schema = db.schema
  fhs : db'.fhs = db.fhs
  self : ∀ index ∈ indexes, db'.ihs (getIndexName t index.cols) =
    g index (db.ihs (getIndexName t index.cols))
  other : ∀ name, name ∉ indexes.map (fun index => getIndexName t index.cols) →
    db'.ihs name = db.ihs name

theorem mapsIndexes_foldl {t : String} {indexes : List IndexMeta}
    {g : IndexMeta → (IxKey → Option Rid) → IxKey → Option Rid} {db : Db}
    (h : (indexes.map fun index => getIndexName t index.cols).Nodup) :
    MapsIndexes t indexes g db (indexes.foldl (Db.mapIndex t g) db) := by
  induction indexes generalizing db with
  | nil => exact ⟨rfl, rfl, fun _ h => absurd h List.not_mem_nil, fun _ _ => rfl⟩
  | cons index indexes ih =>
    obtain ⟨hnot, hnodup⟩ := List.nodup_cons.1 h
    have ih := @ih (db.mapIndex t g index) hnodup
    refine ⟨ih.schema, ih.fhs, fun index' hindex' => ?_, fun name hname => ?_⟩
    · rcases List.mem_cons.1 hindex' with rfl | hindex'
      · rw [List.foldl_cons, ih.other _ hnot]
        exact Function.update_self ..
      · have hne : getIndexName t index'.cols ≠ getIndexName t index.cols := by
          intro heq
          exact hnot (List.mem_map.2 ⟨index', hindex', heq⟩)
        rw [List.foldl_cons, ih.self index' hindex']
        exact congrArg (g index') (Function.update_of_ne hne ..)
    · rw [List.map_cons, List.mem_cons, not_or] at hname
      rw [List.foldl_cons, ih.other name hname.2]
      exact Function.update_of_ne hname.1 ..

/-! ## Effects -/

/-- From `db` to `db'` the table `t` came to hold the rows `m` and its indexes the entries `e`, and
nothing else changed. -/
structure Effect (t : String) (tab : TabMeta) (db db' : Db) (m : Rid → Option Bytes)
    (e : IndexMeta → IxKey → Option Rid) : Prop where
  schema : db'.schema = db.schema
  fhs : ∀ t' ≠ t, db'.fhs t' = db.fhs t'
  ihs : ∀ name, name ∉ tab.indexes.map (fun index => getIndexName t index.cols) →
    db'.ihs name = db.ihs name
  heap : HeapInv (db'.fhs t) m
  grows : (db.fhs t).Extends (db'.fhs t)
  index : ∀ index ∈ tab.indexes, db'.ihs (getIndexName t index.cols) = e index

/-- The entries of the indexes of a table. -/
def Db.entries (db : Db) (t : String) (index : IndexMeta) : IxKey → Option Rid :=
  db.ihs (getIndexName t index.cols)

section Effects

variable {t : String} {tab : TabMeta} {db db' : Db} {m m' : Rid → Option Bytes}
  {e : IndexMeta → IxKey → Option Rid}

theorem Effect.refl (h : HeapInv (db.fhs t) m) : Effect t tab db db m (db.entries t) :=
  ⟨rfl, fun _ _ => rfl, fun _ _ => rfl, h, .refl _, fun _ _ => rfl⟩

theorem Effect.setFh {fh : RmFile} (h : Effect t tab db db' m e) (hfh : HeapInv fh m')
    (hgrows : (db'.fhs t).Extends fh) : Effect t tab db (db'.setFh t fh) m' e := by
  refine { h with fhs := fun t' ht' => ?_, heap := ?_, grows := ?_ }
  · exact (Function.update_of_ne ht' ..).trans (h.fhs t' ht')
  · simp only [Db.setFh, Function.update_self]
    exact hfh
  · simp only [Db.setFh, Function.update_self]
    exact h.grows.trans hgrows

theorem Effect.mapIndexes {g : IndexMeta → (IxKey → Option Rid) → IxKey → Option Rid} {db'' : Db}
    (h : Effect t tab db db' m e) (hg : MapsIndexes t tab.indexes g db' db'') :
    Effect t tab db db'' m fun index => g index (e index) := by
  refine ⟨hg.schema.trans h.schema, fun t' ht' => ?_, fun name hname => ?_, ?_, ?_,
    fun index hindex => ?_⟩
  · rw [hg.fhs, h.fhs t' ht']
  · rw [hg.other name hname, h.ihs name hname]
  · rw [hg.fhs]
    exact h.heap
  · rw [hg.fhs]
    exact h.grows
  · rw [hg.self index hindex, h.index index hindex]

variable {s : TxnState}

/-- The indexes of the table have distinct names. -/
def Db.HasTable (db : Db) (t : String) (tab : TabMeta) : Prop := db.schema.tabs t = some tab

theorem Db.HasTable.nodup (h : db.HasTable t tab) :
    (tab.indexes.map fun index => getIndexName t index.cols).Nodup :=
  db.schema.nodup t tab h

theorem Effect.insertIndex (rec : Bytes) (rid : Rid) (ht : db.HasTable t tab)
    (h : Effect t tab db s.db m e) : Effect t tab db (s.insertIndex t tab rec rid).db m
      fun index => insertEntry (e index) (index.key rec) rid :=
  h.mapIndexes (g := fun index ih => insertEntry ih (index.key rec) rid)
    (mapsIndexes_foldl ht.nodup)

theorem Effect.deleteIndex (rec : Bytes) (ht : db.HasTable t tab) (h : Effect t tab db s.db m e) :
    Effect t tab db (s.deleteIndex t tab rec).db m fun index => deleteEntry (e index)
    (index.key rec) :=
  h.mapIndexes (g := fun index ih => deleteEntry ih (index.key rec)) (mapsIndexes_foldl ht.nodup)

end Effects

/-! ## Locks and records -/

section Specs

variable {cx : Context} {t : String} {tab : TabMeta} {s s₀ : TxnState} {m : Rid → Option Bytes}
  {e : IndexMeta → IxKey → Option Rid} {rid : Rid} {rec buf : Bytes}

theorem lockRequest_yields (req : RequestedLock) :
    Yields (fun _ => cx.refuses req = false) (fun _ s' => s' = s ∧ cx.refuses req = true)
      (lockRequest cx s req) := by
  unfold lockRequest
  split
  · rename_i h
    exact ⟨rfl, h⟩
  · rename_i h
    exact eq_false_of_ne_true h

theorem lockRequests_yields (reqs : List RequestedLock) :
    Yields (fun _ => ∀ req ∈ reqs, cx.refuses req = false) (fun _ s' => s' = s)
      (lockRequests cx s reqs) := by
  unfold lockRequests
  refine Yields.foldlM (I := fun done _ => ∀ req ∈ done, cx.refuses req = false)
    (fun _ h => absurd h List.not_mem_nil) fun done req rest _ _ hdone => ?_
  refine (lockRequest_yields req).mono (fun _ hreq req' hreq' => ?_) fun _ _ h => h.1
  rcases List.mem_append.1 hreq' with hreq' | hreq'
  · exact hdone req' hreq'
  · rw [List.mem_singleton.1 hreq']
    exact hreq

theorem getRecord_yields (h : HeapInv (s.db.fhs t) m) (hrec : m rid = some rec) :
    Yields (fun rec' => rec = rec' ∧ ∀ req ∈ readRequests cx t rid, cx.refuses req = false)
      (fun _ s' => s' = s) (getRecord cx t s rid) := by
  refine (lockRequests_yields _).bind fun _ hreq => ?_
  rw [h.getRecord hrec]
  exact ⟨rfl, hreq⟩

/-- A new record, or nothing but a page for it. -/
theorem insertRecord_yields (h : Effect t tab s₀.db s.db m e)
    (hbuf : buf.length = (s.db.fhs t).hdr.recordSize) :
    Yields (fun r => m r.2 = none ∧ r.1.writeSet = s.writeSet ∧
        Effect t tab s₀.db r.1.db (Function.update m r.2 (some buf)) e)
      (fun _ s' => s'.writeSet = s.writeSet ∧ Effect t tab s₀.db s'.db m e)
      (insertRecord cx t s buf) := by
  obtain ⟨f, p, hpage, hf, hfirst, hroom, hsize⟩ := h.heap.createPageHandle
  obtain ⟨f', rid, hinto, hnone, -, -, hf'⟩ := hf.insertInto hfirst hroom (hbuf.trans hsize.symm)
  have hgrows : f.Extends f' := by
    have h : f.Extends (f.insertInto p buf).1 := .insertInto
    rwa [hinto] at h
  have hpaged := h.setFh hf (.createPageHandle hpage)
  unfold insertRecord
  rw [hpage]
  simp only [TxnState.lift, bind, Except.bind, hinto]
  refine Yields.bind (P := fun _ => True) ((lockRequest_yields _).mono (fun _ _ => trivial) ?_)
    fun _ _ => ?_
  · rintro _ s' ⟨rfl, -⟩
    exact ⟨rfl, hpaged⟩
  · refine ⟨hnone, rfl, ?_⟩
    refine hpaged.setFh hf' ?_
    simpa only [Db.setFh, Function.update_self] using hgrows

theorem deleteRecord_yields (h : Effect t tab s₀.db s.db m e) (hrec : (m rid).isSome) :
    Yields (fun s' => s'.writeSet = s.writeSet ∧
        Effect t tab s₀.db s'.db (Function.update m rid none) e)
      (fun _ s' => s' = s) (deleteRecord cx t s rid) := by
  obtain ⟨f', hf', -, hheap⟩ := h.heap.delete hrec
  refine ((lockRequest_yields _).mono (fun _ => id) fun _ _ h => h.1).bind fun _ _ => ?_
  rw [hf']
  exact ⟨rfl, h.setFh hheap (.deleteRecord hf')⟩

theorem updateRecord_yields (h : Effect t tab s₀.db s.db m e) (hrec : (m rid).isSome)
    (hbuf : buf.length = (s.db.fhs t).hdr.recordSize) :
    Yields (fun s' => s'.writeSet = s.writeSet ∧
        Effect t tab s₀.db s'.db (Function.update m rid (some buf)) e ∧
        cx.refuses (.exclusiveOnRecord t rid) = false)
      (fun _ s' => s' = s ∧ cx.refuses (.exclusiveOnRecord t rid) = true)
      (updateRecord cx t s rid buf) := by
  obtain ⟨f', hf', -, hheap⟩ := h.heap.update hrec hbuf
  refine (lockRequest_yields _).bind fun _ hgranted => ?_
  rw [hf']
  exact ⟨rfl, h.setFh hheap (.updateRecord hf'), hgranted⟩

/-! ## Insertion -/

/-- A loop that keeps the length of a record. -/
theorem length_foldlM {A ε : Type} {f : Bytes → A → Except ε Bytes}
    (hf : ∀ rec a rec', f rec a = .ok rec' → rec'.length = rec.length) {l : List A}
    {rec rec' : Bytes}
    (h : l.foldlM f rec = .ok rec') : rec'.length = rec.length := by
  induction l generalizing rec with
  | nil =>
    cases h
    rfl
  | cons a l ih =>
    rw [List.foldlM_cons] at h
    cases ha : f rec a with
    | error err =>
      rw [ha] at h
      cases h
    | ok rec₁ =>
      rw [ha] at h
      exact (ih h).trans (hf rec a rec₁ ha)

theorem length_buildRecord {size : ℕ} {cols : List ColMeta} {values : List Value}
    (h : buildRecord size cols values = .ok rec) : rec.length = size := by
  rw [length_foldlM ?_ h, List.length_replicate]
  rintro rec cv rec' h
  simp only [bind, Except.bind, throw, throwThe, MonadExceptOf.throw, pure, Except.pure] at h
  split at h
  · cases h
  · split at h
    · cases h
    · cases h
      exact length_patch ..

theorem length_applySet {setClauses : List SetClause} {new : Bytes}
    (h : applySet tab setClauses rec = .ok new) : new.length = rec.length := by
  refine length_foldlM ?_ h
  rintro rec set rec' h
  cases hcol : tab.getCol set.colName with
  | error err =>
    rw [hcol] at h
    cases h
  | ok col =>
    rw [hcol] at h
    cases h
    exact length_patch ..

theorem checkInsert_yields : Yields
    (fun _ => ∀ index ∈ tab.indexes, s.db.entries t index (index.key rec) = none)
    (fun _ s' => s' = s) (checkInsert t tab s rec) := by
  unfold checkInsert
  refine Yields.foldlM (I := fun done _ => ∀ index ∈ done,
    s.db.entries t index (index.key rec) = none)
    (fun _ h => absurd h List.not_mem_nil) fun done index rest _ _ hdone => ?_
  split
  · rfl
  · rename_i hnone
    intro index' hindex'
    rcases List.mem_append.1 hindex' with hindex' | hindex'
    · exact hdone index' hindex'
    · rw [List.mem_singleton.1 hindex']
      exact Option.not_isSome_iff_eq_none.1 hnone

/-- A finished insertion made a row whose keys were free; otherwise the rows are as they were. -/
theorem insertNext_yields {values : List Value} (ht : s.db.HasTable t tab)
    (h : HeapInv (s.db.fhs t) m) : Yields
      (fun s' => ∃ rid rec, m rid = none ∧
        (∀ index ∈ tab.indexes, s.db.entries t index (index.key rec) = none) ∧
        s'.writeSet = .insertTuple t rid :: s.writeSet ∧
        Effect t tab s.db s'.db (Function.update m rid (some rec))
          fun index => insertEntry (s.db.entries t index) (index.key rec) rid)
      (fun _ s' => s'.writeSet = s.writeSet ∧ Effect t tab s.db s'.db m (s.db.entries t))
      (insertNext cx t values s) := by
  have hrefl : Effect t tab s.db s.db m (s.db.entries t) := .refl h
  have hsame (e : ExecError) (s' : TxnState) (hs' : s' = s) :
      s'.writeSet = s.writeSet ∧ Effect t tab s.db s'.db m (s.db.entries t) := by
    subst hs'
    exact ⟨rfl, hrefl⟩
  have htable : s.getTable t = .ok tab := by
    unfold TxnState.getTable
    rw [ht]
  unfold insertNext
  rw [htable]
  simp only [bind, Except.bind]
  split
  · exact ⟨rfl, hrefl⟩
  · cases hrec : buildRecord (s.db.fhs t).hdr.recordSize tab.cols values with
    | error err => exact ⟨rfl, hrefl⟩
    | ok rec =>
      refine (checkInsert_yields.mono (fun _ => id) hsame).bind fun _ hfree => ?_
      refine ((lockRequests_yields _).mono (fun _ => id) hsame).bind fun _ _ => ?_
      refine (insertRecord_yields hrefl (length_buildRecord hrec)).bind ?_
      rintro ⟨s', rid⟩ ⟨hnone, hws, heff⟩
      exact ⟨rid, rec, hnone, hfree, congrArg _ hws, heff.insertIndex rec rid ht⟩

/-! ## Deletion -/

/-- The rows without `rids`. -/
def deletedRows (m : Rid → Option Bytes) (rids : List Rid) : Rid → Option Bytes :=
  rids.foldl (fun m rid => Function.update m rid none) m

/-- The entries without those of the rows `rids`. -/
def deletedEntries (key : Bytes → IxKey) (m : Rid → Option Bytes) (e : IxKey → Option Rid)
    (rids : List Rid) : IxKey → Option Rid :=
  rids.foldl (fun e rid => deleteEntry e (key ((m rid).getD []))) e

/-- What the write set gets for them. -/
def deletedWrites (t : String) (m : Rid → Option Bytes) (rids : List Rid) : List WriteRecord :=
  (rids.map fun rid => .deleteTuple t rid ((m rid).getD [])).reverse

/-- The rows `rids` were deleted. -/
def Deleted (t : String) (tab : TabMeta) (m : Rid → Option Bytes) (s : TxnState) (rids : List Rid)
    (s' : TxnState) : Prop :=
  s'.writeSet = deletedWrites t m rids ++ s.writeSet ∧
    Effect t tab s.db s'.db (deletedRows m rids)
      fun index => deletedEntries index.key m (s.db.entries t index) rids

theorem deletedRows_of_not_mem {rids : List Rid} (h : rid ∉ rids) :
    deletedRows m rids rid = m rid := by
  induction rids using List.reverseRecOn with
  | nil => rfl
  | append_singleton rids r ih =>
    rw [List.mem_append, not_or, List.mem_singleton] at h
    rw [deletedRows, List.foldl_append]
    exact (Function.update_of_ne h.2 ..).trans (ih h.1)

theorem Deleted.step {done : List Rid} {s' : TxnState} (ht : s.db.HasTable t tab)
    (h : Deleted t tab m s done s') (hrid : rid ∉ done) (hrec : m rid = some rec) :
    Yields (fun s'' => Deleted t tab m s (done ++ [rid]) s'') (fun _ s'' => s'' = s')
      (deleteRow cx t tab s' rid) := by
  obtain ⟨hws, heff⟩ := h
  have hrec' : deletedRows m done rid = some rec := (deletedRows_of_not_mem hrid).trans hrec
  refine (getRecord_yields heff.heap hrec').bind ?_
  rintro _ ⟨rfl, -⟩
  refine (lockRequests_yields _).bind fun _ _ => ?_
  refine (deleteRecord_yields heff (by rw [hrec']; rfl)).bind ?_
  rintro s'' ⟨hws'', heff''⟩
  constructor
  · change WriteRecord.deleteTuple t rid _ :: s''.writeSet = _
    rw [hws'', hws]
    simp [deletedWrites, hrec]
  · simp only [deletedRows, deletedEntries, List.foldl_append, List.foldl_cons,
      List.foldl_nil, hrec, Option.getD_some]
    exact heff''.deleteIndex rec ht

/-- A deletion gets to all of its rows, or is stopped between two of them. -/
theorem deleteNext_yields {rids : List Rid} (ht : s.db.HasTable t tab) (h : HeapInv (s.db.fhs t) m)
    (hnodup : rids.Nodup) (hlive : ∀ rid ∈ rids, (m rid).isSome) :
    Yields (fun s' => Deleted t tab m s rids s')
      (fun _ s' => ∃ done, done <+: rids ∧ Deleted t tab m s done s') (deleteNext cx t rids s) := by
  have htable : s.getTable t = .ok tab := by
    unfold TxnState.getTable
    rw [ht]
  unfold deleteNext
  rw [htable]
  refine Yields.foldlM (I := Deleted t tab m s) ⟨rfl, .refl h⟩
    fun done rid rest s' hrids hdone => ?_
  have hrid : rid ∉ done := by
    rw [hrids] at hnodup
    exact fun hmem => (List.nodup_append.1 hnodup).2.2 rid hmem rid List.mem_cons_self rfl
  obtain ⟨rec, hrec⟩ := Option.isSome_iff_exists.1
    (hlive rid (by rw [hrids]; exact List.mem_append_right _ List.mem_cons_self))
  refine (hdone.step ht hrid hrec).mono (fun _ => id) ?_
  rintro _ s'' rfl
  exact ⟨done, ⟨_, hrids.symm⟩, hdone⟩

/-! ## Update -/

/-- What an update plans to do. -/
def planChanges (tab : TabMeta) (setClauses : List SetClause) (m : Rid → Option Bytes)
    (rids : List Rid) : List (Change Rid Bytes) :=
  rids.filterMap fun rid => (m rid).bind fun old =>
    match applySet tab setClauses old with
    | .ok new => some ⟨rid, old, new⟩
    | .error _ => none

theorem planChanges_append (setClauses : List SetClause) (rids rids' : List Rid) :
    planChanges tab setClauses m (rids ++ rids') =
      planChanges tab setClauses m rids ++ planChanges tab setClauses m rids' :=
  List.filterMap_append

/-- The row of a planned change is one of `rids`, with its record. -/
theorem mem_planChanges {setClauses : List SetClause} {rids : List Rid} {c : Change Rid Bytes}
    (h : c ∈ planChanges tab setClauses m rids) :
    c.row ∈ rids ∧ m c.row = some c.old ∧ applySet tab setClauses c.old = .ok c.new := by
  obtain ⟨rid, hrid, hc⟩ := List.mem_filterMap.1 h
  obtain ⟨old, hold, hc⟩ := Option.bind_eq_some_iff.1 hc
  split at hc
  · rename_i new hnew
    cases hc
    exact ⟨hrid, hold, hnew⟩
  · cases hc

theorem nodup_planChanges {setClauses : List SetClause} {rids : List Rid} (h : rids.Nodup) :
    ((planChanges tab setClauses m rids).map Change.row).Nodup := by
  induction rids with
  | nil => exact List.nodup_nil
  | cons rid rids ih =>
    obtain ⟨hnot, hnodup⟩ := List.nodup_cons.1 h
    rw [← List.singleton_append, planChanges_append, List.map_append, List.nodup_append]
    refine ⟨?_, ih hnodup, ?_⟩
    · unfold planChanges
      rw [List.filterMap_cons, List.filterMap_nil]
      split
      · exact List.nodup_nil
      · exact List.nodup_singleton _
    · rintro r hr r' hr' rfl
      obtain ⟨c, hc, rfl⟩ := List.mem_map.1 hr
      obtain ⟨c', hc', hrow⟩ := List.mem_map.1 hr'
      rw [List.mem_singleton.1 (mem_planChanges hc).1] at hrow
      exact hnot (hrow ▸ (mem_planChanges hc').1)

/-- The first loop computes the plan, for all rows. -/
theorem collectChanges_yields {setClauses : List SetClause} {rids : List Rid}
    (h : HeapInv (s.db.fhs t) m) (hlive : ∀ rid ∈ rids, (m rid).isSome) :
    Yields (fun changes => changes = planChanges tab setClauses m rids ∧
        changes.map Change.row = rids ∧
        ∀ rid ∈ rids, ∀ req ∈ readRequests cx t rid, cx.refuses req = false)
      (fun _ s' => s' = s) (collectChanges cx t tab setClauses s rids) := by
  unfold collectChanges
  refine Yields.foldlM (I := fun done changes => changes = planChanges tab setClauses m done ∧
    changes.map Change.row = done ∧ ∀ rid ∈ done, ∀ req ∈ readRequests cx t rid,
      cx.refuses req = false)
    ⟨rfl, rfl, fun _ h => absurd h List.not_mem_nil⟩ ?_
  rintro done rid rest changes hrids ⟨hplan, hrows, hreads⟩
  obtain ⟨old, hold⟩ := Option.isSome_iff_exists.1
    (hlive rid (by rw [hrids]; exact List.mem_append_right _ List.mem_cons_self))
  refine (getRecord_yields h hold).bind ?_
  rintro _ ⟨rfl, hread⟩
  cases hnew : applySet tab setClauses old with
  | error err => rfl
  | ok new =>
    refine ⟨?_, ?_, fun rid' hrid' => ?_⟩
    · rw [planChanges_append, hplan]
      simp [planChanges, hold, hnew]
    · rw [List.map_append, hrows]
      rfl
    · rcases List.mem_append.1 hrid' with hrid' | hrid'
      · exact hreads rid' hrid'
      · rw [List.mem_singleton.1 hrid']
        exact hread

theorem checkUpdate_yields {changes : List (Change Rid Bytes)} :
    Yields (fun _ => ∀ c ∈ changes, ∀ index ∈ tab.indexes, ∀ rid,
        s.db.entries t index (index.key c.new) = some rid → rid = c.row)
      (fun _ s' => s' = s) (checkUpdate t tab s changes) := by
  unfold checkUpdate
  refine Yields.foldlM (I := fun (done : List (Change Rid Bytes)) _ => ∀ c ∈ done,
    ∀ index ∈ tab.indexes, ∀ rid, s.db.entries t index (index.key c.new) = some rid → rid = c.row)
    (fun _ h => absurd h List.not_mem_nil) fun done c rest _ _ hdone => ?_
  refine Yields.mono (P := fun _ => ∀ index ∈ tab.indexes, ∀ rid,
    s.db.entries t index (index.key c.new) = some rid → rid = c.row) ?_ (fun _ hc c' hc' => ?_)
    fun _ _ => id
  · refine Yields.foldlM (I := fun done _ => ∀ index ∈ done, ∀ rid,
      s.db.entries t index (index.key c.new) = some rid → rid = c.row)
      (fun _ h => absurd h List.not_mem_nil) fun done index rest _ _ hdone => ?_
    have hsnoc (hindex : ∀ rid, s.db.entries t index (index.key c.new) = some rid → rid = c.row) :
        ∀ index' ∈ done ++ [index], ∀ rid,
          s.db.entries t index' (index'.key c.new) = some rid → rid = c.row := by
      intro index' hindex'
      rcases List.mem_append.1 hindex' with hindex' | hindex'
      · exact hdone index' hindex'
      · rw [List.mem_singleton.1 hindex']
        exact hindex
    split
    · rename_i hnone
      refine hsnoc fun rid hrid => ?_
      cases hnone.symm.trans hrid
    · rename_i rid hrid
      split
      · rename_i hrow
        refine hsnoc fun rid' hrid' => ?_
        cases hrid.symm.trans hrid'
        exact hrow
      · rfl
  · rcases List.mem_append.1 hc' with hc' | hc'
    · exact hdone c' hc'
    · rw [List.mem_singleton.1 hc']
      exact hc

/-- What the write set gets for changes. -/
def changedWrites (t : String) (l : List (Change Rid Bytes)) : List WriteRecord :=
  (l.map fun c => .updateTuple t c.row c.old).reverse

theorem changedWrites_snoc (l : List (Change Rid Bytes)) (c : Change Rid Bytes) :
    changedWrites t (l ++ [c]) = .updateTuple t c.row c.old :: changedWrites t l := by
  simp [changedWrites]

/-- The changes `l` reached the write set and the indexes, and the changes `done` reached the
file. -/
def Changed (t : String) (tab : TabMeta) (m : Rid → Option Bytes) (s : TxnState)
    (l done : List (Change Rid Bytes)) (s' : TxnState) : Prop :=
  s'.writeSet = changedWrites t l ++ s.writeSet ∧
    Effect t tab s.db s'.db (Change.rows m done)
      fun index => Change.entries index.key (s.db.entries t index) l

/-- The requests for the row of a change. -/
def rowRequests (cx : Context) (t : String) (tab : TabMeta) (c : Change Rid Bytes) :
    List RequestedLock :=
  gapRequests cx t tab c.old ++ gapRequests cx t tab c.new ++ [.exclusiveOnRecord t c.row]

/-- The requests of an update of the rows `rids` before the one for the record of `c`, which comes
after the changes `done`. -/
def requestsBefore (cx : Context) (t : String) (tab : TabMeta) (rids : List Rid)
    (done : List (Change Rid Bytes)) (c : Change Rid Bytes) : List RequestedLock :=
  rids.flatMap (readRequests cx t) ++ done.flatMap (rowRequests cx t tab) ++
    gapRequests cx t tab c.old ++ gapRequests cx t tab c.new

/-- One row of an update is changed, or not touched, or changed in the index and not in the file. -/
theorem Changed.step {done : List (Change Rid Bytes)} {c : Change Rid Bytes} {s' : TxnState}
    (ht : s.db.HasTable t tab) (h : Changed t tab m s done done s')
    (hrow : Change.rows m done c.row = some c.old) (hsize : c.new.length = c.old.length) :
    Yields (fun s'' => Changed t tab m s (done ++ [c]) (done ++ [c]) s'' ∧
        ∀ req ∈ rowRequests cx t tab c, cx.refuses req = false)
      (fun _ s'' => s'' = s' ∨ Changed t tab m s (done ++ [c]) done s'' ∧
        (∀ req ∈ gapRequests cx t tab c.old ++ gapRequests cx t tab c.new, cx.refuses req = false) ∧
        cx.refuses (.exclusiveOnRecord t c.row) = true)
      (updateRow cx t tab s' c) := by
  obtain ⟨hws, heff⟩ := h
  refine ((lockRequests_yields _).mono (fun _ => id) fun _ _ => Or.inl).bind fun _ hgap => ?_
  refine ((lockRequests_yields _).mono (fun _ => id) fun _ _ => Or.inl).bind fun _ hgap' => ?_
  have hgaps : ∀ req ∈ gapRequests cx t tab c.old ++ gapRequests cx t tab c.new,
      cx.refuses req = false := by
    intro req hreq
    rcases List.mem_append.1 hreq with hreq | hreq
    · exact hgap req hreq
    · exact hgap' req hreq
  let s₁ := ((s'.deleteIndex t tab c.old).insertIndex t tab c.new c.row).appendWriteRecord
    (.updateTuple t c.row c.old)
  have hws' : s₁.writeSet = changedWrites t (done ++ [c]) ++ s.writeSet := by
    rw [changedWrites_snoc, List.cons_append, ← hws]
    rfl
  have hindexed : Effect t tab s.db s₁.db (Change.rows m done)
      fun index => Change.entries index.key (s.db.entries t index) (done ++ [c]) := by
    simp only [Change.entries_snoc]
    exact (heff.deleteIndex c.old ht).insertIndex c.new c.row ht
  have hlen : c.new.length = (s₁.db.fhs t).hdr.recordSize := by
    rw [hsize, hindexed.grows.recordSize, ← heff.grows.recordSize]
    have hold := hrow
    rw [heff.heap.eq_records] at hold
    exact RmFile.length_of_records hold
  change Yields _ _ (updateRecord cx t s₁ c.row c.new)
  refine (updateRecord_yields hindexed (by rw [hrow]; rfl) hlen).mono ?_ ?_
  · rintro s'' ⟨hws'', heff'', hgranted⟩
    refine ⟨⟨hws''.trans hws', ?_⟩, ?_⟩
    · rw [Change.rows_snoc]
      exact heff''
    · intro req hreq
      rcases List.mem_append.1 hreq with hreq | hreq
      · exact hgaps req hreq
      · rw [List.mem_singleton.1 hreq]
        exact hgranted
  · rintro _ s'' ⟨rfl, hrefused⟩
    exact .inr ⟨⟨hws', hindexed⟩, hgaps, hrefused⟩

/-- The changes of an update passed its check. -/
def ChecksAll (t : String) (tab : TabMeta) (m : Rid → Option Bytes) (db : Db)
    (l : List (Change Rid Bytes)) : Prop :=
  Change.Valid m l ∧ ∀ index ∈ tab.indexes, ∀ c ∈ l, ∀ rid,
    db.entries t index (index.key c.new) = some rid → rid = c.row

theorem ChecksAll.checked {db : Db} {l : List (Change Rid Bytes)} (h : ChecksAll t tab m db l)
    {index : IndexMeta} (hindex : index ∈ tab.indexes) :
    Change.Checked index.key m (db.entries t index) l :=
  ⟨h.1, h.2 index hindex⟩

theorem ChecksAll.of_append {db : Db} {l l' : List (Change Rid Bytes)}
    (h : ChecksAll t tab m db (l ++ l')) : ChecksAll t tab m db l :=
  ⟨h.1.of_append, fun index hindex c hc => h.2 index hindex c (List.mem_append_left _ hc)⟩

/-- How an update can be stopped: between two rows, or at the record of the change `c`, which then
reached the index only. -/
def Stopped (cx : Context) (t : String) (tab : TabMeta) (m : Rid → Option Bytes) (s : TxnState)
    (rids : List Rid) (l : List (Change Rid Bytes)) (s' : TxnState) : Prop :=
  (∃ done, done <+: l ∧ (done = [] ∨ ChecksAll t tab m s.db l) ∧ Changed t tab m s done done s') ∨
  ∃ done c rest, l = done ++ c :: rest ∧ l.map Change.row = rids ∧ ChecksAll t tab m s.db l ∧
    Changed t tab m s (done ++ [c]) done s' ∧
    (∀ req ∈ requestsBefore cx t tab rids done c, cx.refuses req = false) ∧
    cx.refuses (.exclusiveOnRecord t c.row) = true

/-- An update makes all planned changes, or is stopped. -/
theorem updateNext_yields {setClauses : List SetClause} {rids : List Rid} (ht : s.db.HasTable t tab)
    (h : HeapInv (s.db.fhs t) m) (hnodup : rids.Nodup) (hlive : ∀ rid ∈ rids, (m rid).isSome) :
    Yields
      (fun s' => (planChanges tab setClauses m rids).map Change.row = rids ∧
        ChecksAll t tab m s.db (planChanges tab setClauses m rids) ∧
        Changed t tab m s (planChanges tab setClauses m rids)
        (planChanges tab setClauses m rids) s')
      (fun _ s' => Stopped cx t tab m s rids (planChanges tab setClauses m rids) s')
      (updateNext cx t setClauses rids s) := by
  have hrefl : Changed t tab m s [] [] s := ⟨rfl, .refl h⟩
  have hsame (e : ExecError) (s' : TxnState) (hs' : s' = s) :
      Stopped cx t tab m s rids (planChanges tab setClauses m rids) s' := by
    subst hs'
    exact .inl ⟨[], List.nil_prefix, .inl rfl, hrefl⟩
  have htable : s.getTable t = .ok tab := by
    unfold TxnState.getTable
    rw [ht]
  unfold updateNext
  rw [htable]
  refine ((collectChanges_yields h hlive).mono (fun _ => id) hsame).bind ?_
  rintro _ ⟨rfl, hrows, hreads⟩
  refine (checkUpdate_yields.mono (fun _ => id) hsame).bind fun _ hfree => ?_
  have hchecks : ChecksAll t tab m s.db (planChanges tab setClauses m rids) :=
    ⟨⟨nodup_planChanges hnodup, fun c hc => (mem_planChanges hc).2.1⟩,
      fun index hindex c hc => hfree c hc index hindex⟩
  refine (Yields.foldlM (I := fun done s' => Changed t tab m s done done s' ∧
    ∀ req ∈ done.flatMap (rowRequests cx t tab), cx.refuses req = false)
    ⟨hrefl, fun _ h => absurd h List.not_mem_nil⟩ ?_).mono (fun s' hs' => ⟨hrows, hchecks, hs'.1⟩)
    fun _ _ => id
  rintro done c rest s' hplan ⟨hdone, hgranted⟩
  have hc : c ∈ planChanges tab setClauses m rids := by
    rw [hplan]
    exact List.mem_append_right _ List.mem_cons_self
  obtain ⟨-, hold, hnew⟩ := mem_planChanges hc
  have hnot : c.row ∉ done.map Change.row := by
    have hnodup : ((planChanges tab setClauses m rids).map Change.row).Nodup :=
      nodup_planChanges hnodup
    rw [hplan, List.map_append, List.nodup_append] at hnodup
    exact fun hmem => hnodup.2.2 c.row hmem c.row List.mem_cons_self rfl
  have hrow : Change.rows m done c.row = some c.old := (Change.rows_of_not_mem hnot).trans hold
  refine (hdone.step ht hrow (length_applySet hnew)).mono ?_ ?_
  · rintro s'' ⟨hs'', hrequests⟩
    refine ⟨hs'', fun req hreq => ?_⟩
    rw [List.flatMap_append, List.mem_append] at hreq
    rcases hreq with hreq | hreq
    · exact hgranted req hreq
    · rw [List.flatMap_singleton] at hreq
      exact hrequests req hreq
  · rintro _ s'' (rfl | ⟨hs'', hgaps, hrefused⟩)
    · exact .inl ⟨done, ⟨_, hplan.symm⟩, .inr hchecks, hdone⟩
    · refine .inr ⟨done, c, rest, hplan, hrows, hchecks, hs'', fun req hreq => ?_, hrefused⟩
      rw [requestsBefore, List.append_assoc, List.mem_append, List.mem_append,
        List.mem_flatMap] at hreq
      rcases hreq with (⟨rid, hrid, hreq⟩ | hreq) | hreq
      · exact hreads rid hrid req hreq
      · exact hgranted req hreq
      · exact hgaps req hreq

end Specs

end Rmdb
