import Rmdb.Execution.Consistency

/-!
# What statements mean

The meaning of an INSERT, a DELETE and an UPDATE for rows without files and indexes: which rows
there are afterwards, or which error there is.  On a consistent database the executors do what the
statement means, if no lock request is refused.
-/

namespace Rmdb

open KeyIndex

/-- The rows of a table. -/
abbrev TabRows := Rid → Option Bytes

/-- The rows of all tables. -/
abbrev DbRows := String → TabRows

/-! ## Meanings -/

/-- A new row whose keys no other row has, at a place that the table chooses. -/
def Inserts (t : String) (tab : TabMeta) (size : ℕ) (values : List Value) (rows : TabRows) :
    Except ExecError TabRows → Prop
  | .ok rows' =>
    ∃ rec rid, values.length = tab.cols.length ∧ buildRecord size tab.cols values = .ok rec ∧
      (∀ index ∈ tab.indexes, ∀ rid', ¬ HasKey index.key rows rid' (index.key rec)) ∧
        rows rid = none ∧
      rows' = Function.update rows rid (some rec)
  | .error err => values.length ≠ tab.cols.length ∧ err = .invalidValueCount ∨
      values.length = tab.cols.length ∧ (buildRecord size tab.cols values = .error err ∨
        ∃ rec, buildRecord size tab.cols values = .ok rec ∧ ∃ index ∈ tab.indexes,
          (∃ rid', HasKey index.key rows rid' (index.key rec)) ∧ err = indexExists t index)

/-- The rows that are not selected stay. -/
def Deletes (tab : TabMeta) (conds : List Condition) (rows : TabRows) :
    Except ExecError TabRows → Prop
  | .ok rows' => ∀ rid rec, rows' rid = some rec ↔ rows rid = some rec ∧ ¬ Selects tab conds rec
  | .error _ => False

/-- The selected rows get their new values, whose keys no other row has. -/
def Updates (t : String) (tab : TabMeta) (setClauses : List SetClause) (conds : List Condition)
    (rows : TabRows) : Except ExecError TabRows → Prop
  | .ok rows' => (∀ rid rec, rows rid = some rec → Selects tab conds rec → ∃ new,
        applySet tab setClauses rec = .ok new ∧ rows' rid = some new ∧
        ∀ index ∈ tab.indexes, ∀ rid', HasKey index.key rows rid' (index.key new) → rid' = rid) ∧
      ∀ rid, (∀ rec, rows rid = some rec → ¬ Selects tab conds rec) → rows' rid = rows rid
  | .error err => ∃ rid rec, rows rid = some rec ∧ Selects tab conds rec ∧
      (applySet tab setClauses rec = .error err ∨ ∃ new, applySet tab setClauses rec = .ok new ∧
        ∃ index ∈ tab.indexes, ∃ rid', HasKey index.key rows rid' (index.key new) ∧ rid' ≠ rid ∧
          err = indexExists t index)

/-- A change of one table. -/
def OnTable (schema : Schema) (t : String)
    (does : TabMeta → TabRows → Except ExecError TabRows → Prop) (m : DbRows) :
    Except ExecError DbRows → Prop
  | .ok m' =>
    ∃ tab rows, schema.tabs t = some tab ∧ does tab (m t) (.ok rows) ∧ m' = Function.update m t rows
  | .error err => schema.tabs t = none ∧ err = .tableNotFound t ∨
      ∃ tab, schema.tabs t = some tab ∧ does tab (m t) (.error err)

/-- What a statement makes of the tables; `size` has the lengths of their records. -/
def Statement.Means (schema : Schema) (size : String → ℕ) (m : DbRows) :
    Statement → Except ExecError DbRows → Prop
  | .insert t values => OnTable schema t (fun tab => Inserts t tab (size t) values) m
  | .update t setClauses conds => OnTable schema t (fun tab => Updates t tab setClauses conds) m
  | .delete t conds => OnTable schema t (fun tab => Deletes tab conds) m

/-- A statement that means something does not mean an error. -/
theorem Statement.Means.not_error {schema : Schema} {size : String → ℕ} {m m' : DbRows}
    {st : Statement}
    {err : ExecError} (h : st.Means schema size m (.ok m')) :
    ¬ st.Means schema size m (.error err) := by
  have hone {t : String} {does : TabMeta → TabRows → Except ExecError TabRows → Prop}
      (hdoes : ∀ tab rows, does tab (m t) (.ok rows) → ¬ does tab (m t) (.error err))
      (h : OnTable schema t does m (.ok m')) : ¬ OnTable schema t does m (.error err) := by
    obtain ⟨tab, rows, htab, hrows, -⟩ := h
    rintro (⟨hnone, -⟩ | ⟨tab', htab', herr⟩)
    · cases htab.symm.trans hnone
    · obtain rfl : tab = tab' := Option.some.inj (htab.symm.trans htab')
      exact hdoes tab rows hrows herr
  cases st with
  | insert t values =>
    refine hone (fun tab rows => ?_) h
    rintro ⟨rec, rid, hcount, hrec, hfree, -⟩
      (⟨hne, -⟩ | ⟨-, herr | ⟨rec', hrec', index, hindex, ⟨rid', hkey⟩, -⟩⟩)
    · exact hne hcount
    · cases hrec.symm.trans herr
    · obtain rfl : rec = rec' := Except.ok.inj (hrec.symm.trans hrec')
      exact hfree index hindex rid' hkey
  | delete t conds => exact hone (fun _ _ _ => id) h
  | update t setClauses conds =>
    refine hone (fun tab rows => ?_) h
    rintro ⟨hselected, -⟩ ⟨rid, rec, hrec, hsel, herr⟩
    obtain ⟨new, hnew, -, hfree⟩ := hselected rid rec hrec hsel
    rcases herr with herr | ⟨new', hnew', index, hindex, rid', hkey, hne, -⟩
    · cases hnew.symm.trans herr
    · obtain rfl : new = new' := Except.ok.inj (hnew.symm.trans hnew')
      exact hne (hfree index hindex rid' hkey)

/-- Some lock request is refused. -/
def Context.Refuses (cx : Context) : Prop := ∃ req, cx.refuses req = true

/-- An error that comes from the locks. -/
def Refused (cx : Context) (err : ExecError) : Prop := cx.Refuses ∧ err = .transactionAbort

/-- The rows of the tables of a database. -/
def Db.rows (db : Db) : DbRows :=
  fun t => if (db.schema.tabs t).isSome then (db.fhs t).records else fun _ => none

/-- The lengths of its records. -/
def Db.sizes (db : Db) : String → ℕ := fun t =>
  if (db.schema.tabs t).isSome then (db.fhs t).hdr.recordSize else 0

theorem Db.rows_of_hasTable {db : Db} {t : String} {tab : TabMeta} (ht : db.HasTable t tab) :
    db.rows t = (db.fhs t).records := by
  rw [Db.rows, show db.schema.tabs t = some tab from ht]
  rfl

theorem Db.sizes_of_hasTable {db : Db} {t : String} {tab : TabMeta} (ht : db.HasTable t tab) :
    db.sizes t = (db.fhs t).hdr.recordSize := by
  rw [Db.sizes, show db.schema.tabs t = some tab from ht]
  rfl

/-! ## Errors -/

section Errors

variable {cx : Context} {t : String} {tab : TabMeta} {s : TxnState} {m : TabRows} {rid : Rid}
  {rec buf : Bytes}

/-- The computation stops only where a lock is refused. -/
abbrev Waits (cx : Context) {α : Type} (x : Exec α) : Prop :=
  Yields (fun _ => True) (fun err _ => Refused cx err) x

theorem lockRequest_waits (req : RequestedLock) : Waits cx (lockRequest cx s req) := by
  unfold lockRequest
  split
  · next h => exact ⟨⟨req, h⟩, rfl⟩
  · trivial

theorem lockRequests_waits (reqs : List RequestedLock) : Waits cx (lockRequests cx s reqs) :=
  Yields.foldlM (I := fun _ _ => True) trivial fun _ req _ _ _ _ => lockRequest_waits req

theorem getRecord_waits (h : HeapInv (s.db.fhs t) m) (hrec : m rid = some rec) :
    Waits cx (getRecord cx t s rid) := by
  refine (lockRequests_waits _).bind fun _ _ => ?_
  rw [h.getRecord hrec]
  trivial

theorem insertRecord_waits (h : HeapInv (s.db.fhs t) m) : Waits cx (insertRecord cx t s buf) := by
  obtain ⟨f, p, hpage, -⟩ := h.createPageHandle
  unfold insertRecord
  rw [hpage]
  exact (lockRequest_waits _).bind fun _ _ => trivial

theorem deleteRecord_waits (h : HeapInv (s.db.fhs t) m) (hrec : (m rid).isSome) :
    Waits cx (deleteRecord cx t s rid) := by
  obtain ⟨f', hf', -⟩ := h.delete hrec
  refine (lockRequest_waits _).bind fun _ _ => ?_
  rw [hf']
  trivial

theorem updateRecord_waits (h : HeapInv (s.db.fhs t) m) (hrec : (m rid).isSome)
    (hbuf : buf.length = (s.db.fhs t).hdr.recordSize) : Waits cx (updateRecord cx t s rid buf) := by
  obtain ⟨f', hf', -⟩ := h.update hrec hbuf
  refine (lockRequest_waits _).bind fun _ _ => ?_
  rw [hf']
  trivial

end Errors

/-! ## The executors -/

section Executors

variable {cx : Context} {t : String} {tab : TabMeta} {s s' : TxnState} {m : TabRows} {rid : Rid}
  {rids : List Rid}
  {conds : List Condition}

theorem getTable_eq (ht : s.db.HasTable t tab) : s.getTable t = .ok tab := by
  unfold TxnState.getTable
  rw [show s.db.schema.tabs t = some tab from ht]

/-- The entries of a consistent table tell whether a row has a key. -/
theorem Db.Consistent.hasKey_iff (hs : s.db.Consistent) (ht : s.db.HasTable t tab)
    {index : IndexMeta}
    (hindex : index ∈ tab.indexes) {k : IxKey} :
    s.db.entries t index k = some rid ↔ HasKey index.key (s.db.fhs t).records rid k :=
  (hs t tab ht).2 index hindex k rid

theorem checkInsert_means {rec : Bytes} :
    Yields (fun _ => ∀ index ∈ tab.indexes, s.db.entries t index (index.key rec) = none)
      (fun err _ => ∃ index ∈ tab.indexes, (s.db.entries t index (index.key rec)).isSome ∧
        err = indexExists t index)
      (checkInsert t tab s rec) := by
  unfold checkInsert
  refine Yields.foldlM (I := fun done _ => ∀ index ∈ done,
    s.db.entries t index (index.key rec) = none)
    (fun _ h => absurd h List.not_mem_nil) fun done index rest _ hl hdone => ?_
  split
  · next h => exact ⟨index, hl ▸ List.mem_append_right _ List.mem_cons_self, h, rfl⟩
  · next hnone =>
    intro index' hindex'
    rcases List.mem_append.mp hindex' with hindex' | hindex'
    · exact hdone index' hindex'
    · rw [List.mem_singleton.mp hindex']
      exact Option.not_isSome_iff_eq_none.mp hnone

theorem insertNext_means {values : List Value} (hs : s.db.Consistent) (ht : s.db.HasTable t tab) :
    Yields (fun s' => Inserts t tab (s.db.sizes t) values (s.db.fhs t).records
      (.ok (s'.db.fhs t).records))
      (fun err _ => Inserts t tab (s.db.sizes t) values (s.db.fhs t).records (.error err) ∨
        Refused cx err)
      (insertNext cx t values s) := by
  obtain ⟨hheap, -⟩ := hs t tab ht
  rw [Db.sizes_of_hasTable ht]
  unfold insertNext
  rw [getTable_eq ht]
  simp only [bind, Except.bind]
  split
  · next hcount => exact .inl (.inl ⟨hcount, rfl⟩)
  · next hcount =>
    have hcount := not_not.mp hcount
    cases hrec : buildRecord (s.db.fhs t).hdr.recordSize tab.cols values with
    | error err => exact .inl (.inr ⟨hcount, .inl hrec⟩)
    | ok rec =>
      refine (checkInsert_means.mono (fun _ => id) ?_).bind fun _ hfree => ?_
      · rintro err _ ⟨index, hindex, hsome, rfl⟩
        obtain ⟨rid', hrid'⟩ := Option.isSome_iff_exists.mp hsome
        exact .inl (.inr ⟨hcount, .inr ⟨rec, hrec, index, hindex,
          ⟨rid', (hs.hasKey_iff ht hindex).mp hrid'⟩, rfl⟩⟩)
      refine ((lockRequests_waits _).mono (fun _ => id) fun _ _ => .inr).bind fun _ _ => ?_
      have hrefl : Effect t tab s.db s.db (s.db.fhs t).records (s.db.entries t) := .refl hheap
      refine Yields.bind (((insertRecord_yields hrefl (length_buildRecord hrec)).and
        (insertRecord_waits hheap)).mono (fun _ => And.left) fun _ _ h => .inr h.2) ?_
      rintro ⟨s', rid⟩ ⟨hnone, -, heff⟩
      refine ⟨rec, rid, hcount, hrec, fun index hindex rid' hkey => ?_, hnone,
        (heff.insertIndex rec rid ht).heap.eq_records.symm⟩
      have hsome := (hs.hasKey_iff ht hindex).mpr hkey
      rw [hfree index hindex] at hsome
      cases hsome

theorem Deleted.waits {done : List Rid} {rec : Bytes} (h : Deleted t tab m s done s')
    (hrid : rid ∉ done) (hrec : m rid = some rec) : Waits cx (deleteRow cx t tab s' rid) := by
  have hrec' : deletedRows m done rid = some rec := (deletedRows_of_not_mem hrid).trans hrec
  refine Yields.bind (getRecord_waits h.2.heap hrec') fun _ _ => ?_
  refine Yields.bind (lockRequests_waits _) fun _ _ => ?_
  exact Yields.bind (deleteRecord_waits h.2.heap (by rw [hrec']; rfl)) fun _ _ => trivial

/-- A deletion of rows that are there stops only where a lock is refused. -/
theorem deleteNext_waits (ht : s.db.HasTable t tab) (h : HeapInv (s.db.fhs t) m)
    (hnodup : rids.Nodup)
    (hlive : ∀ rid ∈ rids, (m rid).isSome) : Waits cx (deleteNext cx t rids s) := by
  unfold deleteNext
  rw [getTable_eq ht]
  refine (Yields.foldlM (I := Deleted t tab m s) ⟨rfl, .refl h⟩
    fun done rid rest s' hrids hdone => ?_).mono
    (fun _ _ => trivial) fun _ _ => id
  have hrid : rid ∉ done := by
    rw [hrids] at hnodup
    exact fun hmem => (List.nodup_append.mp hnodup).2.2 rid hmem rid List.mem_cons_self rfl
  obtain ⟨rec, hrec⟩ := Option.isSome_iff_exists.mp
    (hlive rid (by rw [hrids]; exact List.mem_append_right _ List.mem_cons_self))
  exact ((hdone.step ht hrid hrec).and (hdone.waits hrid hrec)).mono (fun _ => And.left)
    fun _ _ => And.right

theorem deletedRows_eq_none (h : rid ∈ rids) : deletedRows m rids rid = none := by
  induction rids using List.reverseRecOn with
  | nil => exact absurd h List.not_mem_nil
  | append_singleton rids r ih =>
    rw [deletedRows, List.foldl_append, List.foldl_cons, List.foldl_nil]
    by_cases hr : rid = r
    · rw [hr, Function.update_self]
    · rw [Function.update_of_ne hr]
      exact ih ((List.mem_append.mp h).resolve_right fun hmem => hr (List.mem_singleton.mp hmem))

/-- The rows of a statement are there. -/
theorem live_of_selected (hrids : ∀ rid, rid ∈ rids ↔ ∃ rec, m rid = some rec ∧
      Selects tab conds rec) :
    ∀ rid ∈ rids, (m rid).isSome := by
  intro rid hrid
  obtain ⟨rec, hrec, -⟩ := (hrids rid).mp hrid
  rw [hrec]
  rfl

theorem deletes_deletedRows (hrids : ∀ rid, rid ∈ rids ↔ ∃ rec, m rid = some rec ∧
      Selects tab conds rec) :
    Deletes tab conds m (.ok (deletedRows m rids)) := by
  intro rid rec
  by_cases hrid : rid ∈ rids
  · obtain ⟨rec', hrec', hsel⟩ := (hrids rid).mp hrid
    rw [deletedRows_eq_none hrid, hrec']
    refine ⟨fun h => absurd h (by simp), fun ⟨hrec, hnot⟩ => ?_⟩
    cases hrec
    exact absurd hsel hnot
  · rw [deletedRows_of_not_mem hrid]
    exact ⟨fun hrec => ⟨hrec, fun hsel => hrid ((hrids rid).mpr ⟨rec, hrec, hsel⟩)⟩, And.left⟩

theorem deleteNext_means (hs : s.db.Consistent) (ht : s.db.HasTable t tab)
    (hrids : (Statement.delete t conds).Collects s.db rids) :
    Yields (fun s' => Deletes tab conds (s.db.fhs t).records (.ok (s'.db.fhs t).records))
      (fun err _ => Refused cx err) (deleteNext cx t rids s) := by
  obtain ⟨hheap, -⟩ := hs t tab ht
  have hselected := hrids.2 tab ht
  have hlive := live_of_selected hselected
  refine ((deleteNext_yields ht hheap hrids.1 hlive).and
    (deleteNext_waits ht hheap hrids.1 hlive)).mono ?_
    fun _ _ => And.right
  rintro s' ⟨⟨-, heff⟩, -⟩
  rw [← heff.heap.eq_records]
  exact deletes_deletedRows hselected

/-! ### Updates -/

variable {setClauses : List SetClause} {changes done : List (Change Rid Bytes)}
  {c : Change Rid Bytes}

theorem collectChanges_means (h : HeapInv (s.db.fhs t) m) (hlive : ∀ rid ∈ rids, (m rid).isSome) :
    Yields (fun _ => True)
      (fun err _ => (∃ rid ∈ rids, ∃ rec, m rid = some rec ∧ applySet tab setClauses rec =
        .error err) ∨ Refused cx err)
      (collectChanges cx t tab setClauses s rids) := by
  unfold collectChanges
  refine Yields.foldlM (I := fun _ _ => True) trivial fun done rid rest changes hrids _ => ?_
  have hrid : rid ∈ rids := hrids ▸ List.mem_append_right _ List.mem_cons_self
  obtain ⟨old, hold⟩ := Option.isSome_iff_exists.mp (hlive rid hrid)
  refine Yields.bind (((getRecord_yields h hold).and (getRecord_waits h hold)).mono
    (fun _ h => h.1.1)
    fun _ _ h => .inr h.2) ?_
  rintro _ rfl
  cases hnew : applySet tab setClauses old with
  | error err => exact .inl ⟨rid, hrid, old, hold, hnew⟩
  | ok new => trivial

theorem checkUpdate_means :
    Yields (fun _ => True)
      (fun err _ => ∃ c ∈ changes, ∃ index ∈ tab.indexes, ∃ rid,
        s.db.entries t index (index.key c.new) = some rid ∧ rid ≠ c.row ∧ err = indexExists t index)
      (checkUpdate t tab s changes) := by
  unfold checkUpdate
  refine Yields.foldlM (I := fun _ _ => True) trivial fun done c rest _ hchanges _ => ?_
  refine Yields.foldlM (I := fun _ _ => True) trivial fun done index rest _ hindexes _ => ?_
  split
  · trivial
  · next rid hrid =>
    split
    · trivial
    · next hne =>
      exact ⟨c, hchanges ▸ List.mem_append_right _ List.mem_cons_self, index,
        hindexes ▸ List.mem_append_right _ List.mem_cons_self, rid, hrid, hne, rfl⟩

theorem Changed.waits (ht : s.db.HasTable t tab) (h : Changed t tab m s done done s')
    (hrow : Change.rows m done c.row = some c.old) (hsize : c.new.length = c.old.length) :
    Waits cx (updateRow cx t tab s' c) := by
  refine Yields.bind (lockRequests_waits _) fun _ _ => ?_
  refine Yields.bind (lockRequests_waits _) fun _ _ => ?_
  have heff := (h.2.deleteIndex c.old ht).insertIndex c.new c.row ht
  refine updateRecord_waits heff.heap (by rw [hrow]; rfl) ?_
  have hold := hrow
  rw [heff.heap.eq_records] at hold
  exact hsize.trans (RmFile.length_of_records hold)

theorem updates_rows (hselected : ∀ rid, rid ∈ rids ↔ ∃ rec, m rid = some rec ∧
      Selects tab conds rec)
    (hnodup : rids.Nodup) (hrows : (planChanges tab setClauses m rids).map Change.row = rids)
    (hfree : ∀ c ∈ planChanges tab setClauses m rids, ∀ index ∈ tab.indexes, ∀ rid,
      HasKey index.key m rid (index.key c.new) → rid = c.row) :
    Updates t tab setClauses conds m (.ok (Change.rows m (planChanges tab setClauses m rids))) := by
  have hvalid : Change.Valid m (planChanges tab setClauses m rids) :=
    ⟨nodup_planChanges hnodup, fun c hc => (mem_planChanges hc).2.1⟩
  constructor
  · intro rid rec hrec hsel
    have hrid : rid ∈ (planChanges tab setClauses m rids).map Change.row := by
      rw [hrows]
      exact (hselected rid).mpr ⟨rec, hrec, hsel⟩
    obtain ⟨c, hc, rfl⟩ := List.mem_map.mp hrid
    obtain ⟨-, hold, hnew⟩ := mem_planChanges hc
    obtain rfl : c.old = rec := Option.some.inj (hold.symm.trans hrec)
    exact ⟨c.new, hnew, hvalid.rows_of_mem hc, hfree c hc⟩
  · intro rid hnot
    refine Change.rows_of_not_mem fun hmem => ?_
    rw [hrows] at hmem
    obtain ⟨rec, hrec, hsel⟩ := (hselected rid).mp hmem
    exact hnot rec hrec hsel

theorem updateNext_means (hs : s.db.Consistent) (ht : s.db.HasTable t tab)
    (hrids : (Statement.update t setClauses conds).Collects s.db rids) :
    Yields (fun s' => Updates t tab setClauses conds (s.db.fhs t).records
      (.ok (s'.db.fhs t).records))
      (fun err _ => Updates t tab setClauses conds (s.db.fhs t).records (.error err) ∨
        Refused cx err)
      (updateNext cx t setClauses rids s) := by
  obtain ⟨hheap, -⟩ := hs t tab ht
  obtain ⟨hnodup, hselected⟩ := hrids
  have hselected := hselected tab ht
  have hlive := live_of_selected hselected
  unfold updateNext
  rw [getTable_eq ht]
  change Yields _ _ (collectChanges cx t tab setClauses s rids >>= _)
  refine Yields.bind
    (((collectChanges_yields hheap hlive).and (collectChanges_means hheap hlive)).mono
    (fun _ => And.left) ?_) ?_
  · rintro err _ ⟨-, ⟨rid, hrid, rec, hrec, herr⟩ | hrefused⟩
    · obtain ⟨rec', hrec', hsel⟩ := (hselected rid).mp hrid
      obtain rfl : rec = rec' := Option.some.inj (hrec.symm.trans hrec')
      exact .inl ⟨rid, rec, hrec, hsel, .inl herr⟩
    · exact .inr hrefused
  rintro _ ⟨rfl, hrows, -⟩
  generalize hplan : planChanges tab setClauses (s.db.fhs t).records rids = l at hrows
  have hmem {c : Change Rid Bytes} (hc : c ∈ l) := mem_planChanges (hplan ▸ hc)
  refine Yields.bind ((checkUpdate_yields.and checkUpdate_means).mono (fun _ => And.left) ?_)
    fun _ hfree => ?_
  · rintro err _ ⟨-, c, hc, index, hindex, rid, hrid, hne, rfl⟩
    obtain ⟨hrow, hold, hnew⟩ := hmem hc
    obtain ⟨rec, hrec, hsel⟩ := (hselected c.row).mp hrow
    obtain rfl : c.old = rec := Option.some.inj (hold.symm.trans hrec)
    exact .inl ⟨c.row, c.old, hold, hsel, .inr ⟨c.new, hnew, index, hindex, rid,
      (hs.hasKey_iff ht hindex).mp hrid, hne, rfl⟩⟩
  have hl : l.Pairwise fun c c' => c.row ≠ c'.row :=
    List.pairwise_map.mp (hplan ▸ nodup_planChanges hnodup)
  refine (Yields.foldlM (I := fun done s' => Changed t tab (s.db.fhs t).records s done done s')
    ⟨rfl, .refl hheap⟩ ?_).mono (fun s' hs' => ?_) fun _ _ => id
  · rintro done c rest s' rfl hdone
    obtain ⟨-, hold, hnew⟩ := hmem (List.mem_append_right done List.mem_cons_self)
    have hnot : c.row ∉ done.map Change.row := fun hc => by
      obtain ⟨c', hc', hrow⟩ := List.mem_map.mp hc
      exact (List.pairwise_append.mp hl).2.2 c' hc' c List.mem_cons_self hrow
    have hrow : Change.rows (s.db.fhs t).records done c.row = some c.old :=
      (Change.rows_of_not_mem hnot).trans hold
    have hsize := length_applySet hnew
    exact ((hdone.step ht hrow hsize).and (hdone.waits ht hrow hsize)).mono (fun _ h => h.1.1)
      fun _ _ h => .inr h.2
  · rw [← hs'.2.heap.eq_records, ← hplan]
    refine updates_rows hselected hnodup (hplan ▸ hrows) fun c hc index hindex rid hkey => ?_
    exact hfree c (hplan ▸ hc) index hindex rid ((hs.hasKey_iff ht hindex).mpr hkey)

/-! ### Statements -/

/-- The rows of the other tables stay. -/
theorem Effect.rows_eq {db db' : Db} {e : IndexMeta → IxKey → Option Rid}
    (h : Effect t tab db db' m e)
    (ht : db.HasTable t tab) : db'.rows = Function.update db.rows t (db'.fhs t).records := by
  funext t'
  by_cases heq : t' = t
  · subst heq
    have ht' : db'.HasTable t' tab := by
      rw [Db.HasTable, h.schema]
      exact ht
    rw [Function.update_self, Db.rows_of_hasTable ht']
  · rw [Function.update_of_ne heq, Db.rows, Db.rows, h.schema, h.fhs t' heq]

theorem Effect.sizes_eq {db db' : Db} {e : IndexMeta → IxKey → Option Rid}
    (h : Effect t tab db db' m e) : db'.sizes = db.sizes := by
  funext t'
  by_cases heq : t' = t
  · subst heq
    rw [Db.sizes, Db.sizes, h.schema, h.grows.recordSize]
  · rw [Db.sizes, Db.sizes, h.schema, h.fhs t' heq]

/-- A statement did what it means, and its table has kept its form. -/
structure Statement.Did (st : Statement) (db db' : Db) : Prop where
  means : st.Means db.schema db.sizes db.rows (.ok db'.rows)
  schema : db'.schema = db.schema
  sizes : db'.sizes = db.sizes

/-- A statement on a table does on its rows what it does in the database. -/
theorem onTable_yields {x : Exec TxnState}
    {does : TabMeta → TabRows → Except ExecError TabRows → Prop}
    (hx : ∀ tab, s.db.HasTable t tab →
      Yields (fun s' => does tab (s.db.fhs t).records (.ok (s'.db.fhs t).records))
      (fun err _ => does tab (s.db.fhs t).records (.error err) ∨ Refused cx err) x)
    (heff : ∀ tab, s.db.HasTable t tab → ∀ s', x = .ok s' → ∃ m e, Effect t tab s.db s'.db m e)
    (hnone : s.db.schema.tabs t = none → x = .error (.tableNotFound t, s)) :
    Yields (fun s' => OnTable s.db.schema t does s.db.rows (.ok s'.db.rows) ∧
      s'.db.schema = s.db.schema ∧ s'.db.sizes = s.db.sizes)
      (fun err _ => OnTable s.db.schema t does s.db.rows (.error err) ∨ Refused cx err) x := by
  cases ht : s.db.schema.tabs t with
  | none =>
    rw [hnone ht]
    exact .inl (.inl ⟨ht, rfl⟩)
  | some tab =>
    have hx := hx tab ht
    rw [← Db.rows_of_hasTable ht] at hx
    cases hrun : x with
    | ok s' =>
      obtain ⟨m, e, heff⟩ := heff tab ht s' hrun
      exact ⟨⟨tab, _, ht, hx.of_ok hrun, heff.rows_eq ht⟩, heff.schema, heff.sizes_eq⟩
    | error err => exact (hx.of_error hrun).imp_left fun h => .inr ⟨tab, ht, h⟩

/-- On a consistent database a statement does what it means, or it fails as it should, or a lock is
refused. -/
theorem Statement.run_means {st : Statement} {scanned : List RequestedLock} (hs : s.db.Consistent)
    (hrids : st.Collects s.db rids) :
    Yields (fun s' => st.Did s.db s'.db)
      (fun err _ => st.Means s.db.schema s.db.sizes s.db.rows (.error err) ∨ Refused cx err)
      (st.run cx scanned rids s) := by
  have hnone {t : String} {f : TabMeta → Exec TxnState} (ht : s.db.schema.tabs t = none) :
      s.getTable t >>= f = .error (.tableNotFound t, s) := by
    rw [TxnState.getTable, ht]
    rfl
  unfold Statement.run
  refine Yields.bind ((lockRequests_waits _).mono (fun _ => id) fun _ _ => .inr) fun _ _ => ?_
  cases st with
  | insert t values =>
    refine (onTable_yields (fun tab ht => insertNext_means hs ht)
      (fun tab ht s' hrun => ?_) hnone).mono (fun _ h => ⟨h.1, h.2.1, h.2.2⟩) fun _ _ => id
    obtain ⟨_, _, -, -, -, heff⟩ := (insertNext_yields ht (hs t tab ht).1).of_ok hrun
    exact ⟨_, _, heff⟩
  | delete t conds =>
    have hdeletes (tab : TabMeta) (ht : s.db.HasTable t tab) :
        Yields (fun s' => Deletes tab conds (s.db.fhs t).records (.ok (s'.db.fhs t).records))
          (fun err _ => Deletes tab conds (s.db.fhs t).records (.error err) ∨ Refused cx err)
          (deleteNext cx t rids s) :=
      (deleteNext_means hs ht hrids).mono (fun _ => id) fun _ _ => .inr
    refine (onTable_yields hdeletes (fun tab ht s' hrun => ?_) hnone).mono
      (fun _ h => ⟨h.1, h.2.1, h.2.2⟩) fun _ _ => id
    obtain ⟨-, heff⟩ :=
      (deleteNext_yields ht (hs t tab ht).1 hrids.1 (live_of_selected (hrids.2 tab ht))).of_ok hrun
    exact ⟨_, _, heff⟩
  | update t setClauses conds =>
    refine (onTable_yields (fun tab ht => updateNext_means hs ht hrids)
      (fun tab ht s' hrun => ?_) hnone).mono (fun _ h => ⟨h.1, h.2.1, h.2.2⟩) fun _ _ => id
    obtain ⟨-, -, -, heff⟩ :=
      (updateNext_yields ht (hs t tab ht).1 hrids.1 (live_of_selected (hrids.2 tab ht))).of_ok hrun
    exact ⟨_, _, heff⟩

end Executors

end Rmdb
