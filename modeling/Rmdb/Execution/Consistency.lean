import Rmdb.Execution.RowEffects

/-!
# Tables and indexes stay in step

A database is consistent when every table file is well formed and every index has exactly the keys
of the table's records; so no two records share a key.  Statements of one client that end without an
error keep the database consistent, with one exception: an update checks each new key against the
entries before the first change, and not against the other new keys, so it can give two rows the
same key.
-/

namespace Rmdb

open KeyIndex

/-- The table files are well formed, and the records of a table and the entries of its indexes are
related by `Q`. -/
def Db.Relates (Q : (Bytes → IxKey) → (Rid → Option Bytes) → (IxKey → Option Rid) → Prop)
    (db : Db) : Prop :=
  ∀ t tab, db.HasTable t tab → HeapInv (db.fhs t) (db.fhs t).records ∧
    ∀ index ∈ tab.indexes, Q index.key (db.fhs t).records (db.entries t index)

/-- The entries of every index are exactly the keys of the live records, and no two of them share a
key. -/
def Db.Consistent (db : Db) : Prop := db.Relates Indexes

/-- The record satisfies the conditions of a statement on the table. -/
def Selects (tab : TabMeta) (conds : List Condition) (rec : Bytes) : Prop :=
  evalConds conds rec tab.cols = .ok true

/-- What a scan collects for a statement: the rows that satisfy its conditions, each of them once,
in any order. -/
def Statement.Collects (st : Statement) (db : Db) (rids : List Rid) : Prop :=
  match st with
  | .insert _ _ => True
  | .update t _ conds | .delete t conds =>
    rids.Nodup ∧ ∀ tab, db.HasTable t tab → ∀ rid, rid ∈ rids ↔
      ∃ rec, (db.fhs t).records rid = some rec ∧ Selects tab conds rec

/-- Unless the statement is an update that gives two of its rows the same new key in an index. -/
def Statement.KeysDiffer (st : Statement) (db : Db) : Prop :=
  match st with
  | .update t setClauses conds => ∀ tab, db.HasTable t tab → ∀ index ∈ tab.indexes,
      ∀ rid rid' rec rec' new new', (db.fhs t).records rid = some rec →
        (db.fhs t).records rid' = some rec' → Selects tab conds rec → Selects tab conds rec' →
        applySet tab setClauses rec = .ok new → applySet tab setClauses rec' = .ok new' →
        index.key new = index.key new' → rid = rid'
  | _ => True

/-- The statement is given live rows of its table, each of them once. -/
def Statement.OnRows (st : Statement) (db : Db) (rids : List Rid) : Prop :=
  match st with
  | .insert _ _ => True
  | .update t _ _ | .delete t _ => rids.Nodup ∧ ∀ tab, db.HasTable t tab → ∀ rid ∈ rids,
      ((db.fhs t).records rid).isSome

/-- Unless the statement is an update that gives two of these rows the same new key in an index. -/
def Statement.NewKeysDiffer (st : Statement) (db : Db) (rids : List Rid) : Prop :=
  match st with
  | .update t setClauses _ =>
    ∀ tab, db.HasTable t tab → ∀ index ∈ tab.indexes, ∀ rid ∈ rids, ∀ rid' ∈ rids,
      ∀ rec rec' new new', (db.fhs t).records rid = some rec → (db.fhs t).records rid' = some rec' →
        applySet tab setClauses rec = .ok new → applySet tab setClauses rec' = .ok new' →
        index.key new = index.key new' → rid = rid'
  | _ => True

/-- What a scan collects are live rows. -/
theorem Statement.Collects.onRows {st : Statement} {db : Db} {rids : List Rid}
    (h : st.Collects db rids) : st.OnRows db rids := by
  have hlive {t : String} {tab : TabMeta} {conds : List Condition} (hiff : ∀ rid, rid ∈ rids ↔
      ∃ rec, (db.fhs t).records rid = some rec ∧ Selects tab conds rec) :
      ∀ rid ∈ rids, ((db.fhs t).records rid).isSome := by
    intro rid hrid
    obtain ⟨rec, hrec, -⟩ := (hiff rid).1 hrid
    rw [hrec]
    rfl
  cases st with
  | insert => trivial
  | update => exact ⟨h.1, fun tab ht => hlive (h.2 tab ht)⟩
  | delete => exact ⟨h.1, fun tab ht => hlive (h.2 tab ht)⟩

theorem Statement.Collects.newKeysDiffer {st : Statement} {db : Db} {rids : List Rid}
    (h : st.Collects db rids) (hdiffer : st.KeysDiffer db) : st.NewKeysDiffer db rids := by
  cases st with
  | insert => trivial
  | delete => trivial
  | update t setClauses conds =>
    intro tab ht index hindex rid hrid rid' hrid' rec rec' new new' hrec hrec' hnew hnew' hkey
    obtain ⟨old, hold, hsel⟩ := (h.2 tab ht rid).1 hrid
    obtain ⟨old', hold', hsel'⟩ := (h.2 tab ht rid').1 hrid'
    obtain rfl : old = rec := Option.some.inj (hold.symm.trans hrec)
    obtain rfl : old' = rec' := Option.some.inj (hold'.symm.trans hrec')
    exact hdiffer tab ht index hindex rid rid' old old' new new' hrec hrec' hsel hsel'
      hnew hnew' hkey

section Consistency

variable {cx : Context} {t : String} {tab : TabMeta} {db db' : Db} {s s' : TxnState}
  {m m' : Rid → Option Bytes} {e : IndexMeta → IxKey → Option Rid} {rids : List Rid}

/-- The entries of other tables stay. -/
theorem Effect.entries_of_ne {t' : String} {tab' : TabMeta} {index : IndexMeta}
    (h : Effect t tab db db' m e) (ht : db.HasTable t tab) (ht' : db.HasTable t' tab')
    (hne : t' ≠ t)
    (hindex : index ∈ tab'.indexes) : db'.entries t' index = db.entries t' index := by
  refine h.ihs _ fun hmem => ?_
  obtain ⟨index', hindex', hname⟩ := List.mem_map.1 hmem
  exact hne (db.schema.names t' t tab' tab ht' ht index hindex index' hindex' hname.symm)

/-- After a change of one table its own rows and entries decide. -/
theorem Effect.relates_iff {Q : (Bytes → IxKey) → (Rid → Option Bytes) →
      (IxKey → Option Rid) → Prop}
    (h : Effect t tab db db' m e) (ht : db.HasTable t tab) (hdb : db.Relates Q) :
    db'.Relates Q ↔ ∀ index ∈ tab.indexes, Q index.key m (e index) := by
  constructor
  · intro hdb' index hindex
    have hindexes := (hdb' t tab (by rw [Db.HasTable, h.schema]; exact ht)).2 index hindex
    rw [Db.entries, h.index index hindex, ← h.heap.eq_records] at hindexes
    exact hindexes
  · intro hindexes t' tab' ht'
    rw [Db.HasTable, h.schema] at ht'
    by_cases heq : t' = t
    · subst heq
      obtain rfl : tab' = tab := Option.some.inj (ht'.symm.trans ht)
      rw [← h.heap.eq_records]
      refine ⟨h.heap, fun index hindex => ?_⟩
      rw [Db.entries, h.index index hindex]
      exact hindexes index hindex
    · obtain ⟨hheap, hother⟩ := hdb t' tab' ht'
      rw [h.fhs t' heq]
      refine ⟨hheap, fun index hindex => ?_⟩
      rw [h.entries_of_ne ht ht' heq hindex]
      exact hother index hindex

/-- The last of several deletions. -/
theorem deleted_snoc {rid : Rid} (hnodup : (rids ++ [rid]).Nodup)
    (hlive : ∀ rid' ∈ rids ++ [rid], (m rid').isSome) :
    ∃ rec, m rid = some rec ∧ deletedRows m rids rid = some rec ∧
      deletedRows m (rids ++ [rid]) = Function.update (deletedRows m rids) rid none ∧
      ∀ (key : Bytes → IxKey) (e : IxKey → Option Rid),
        deletedEntries key m e (rids ++ [rid]) = deleteEntry (deletedEntries key m e rids)
        (key rec) := by
  obtain ⟨rec, hrec⟩ := Option.isSome_iff_exists.1
    (hlive rid (List.mem_append_right _ List.mem_cons_self))
  have hnot : rid ∉ rids := fun hmem =>
    (List.nodup_append.1 hnodup).2.2 rid hmem rid List.mem_cons_self rfl
  refine ⟨rec, hrec, (deletedRows_of_not_mem hnot).trans hrec, ?_, fun key e => ?_⟩
  · simp [deletedRows]
  · simp [deletedEntries, hrec]

theorem indexes_deleted {key : Bytes → IxKey} {e : IxKey → Option Rid} (h : Indexes key m e)
    (hnodup : rids.Nodup) (hlive : ∀ rid ∈ rids, (m rid).isSome) :
    Indexes key (deletedRows m rids) (deletedEntries key m e rids) := by
  induction rids using List.reverseRecOn with
  | nil => exact h
  | append_singleton rids rid ih =>
    obtain ⟨rec, -, hrow, hrows, hentries⟩ := deleted_snoc hnodup hlive
    rw [hrows, hentries]
    refine (ih ?_ ?_).delete hrow
    · exact (List.nodup_append.1 hnodup).1
    · exact fun rid' hrid' => hlive rid' (List.mem_append_left _ hrid')

/-- A statement that ends without an error is about a table. -/
theorem hasTable_of_getTable {f : TabMeta → Exec TxnState} (h : s.getTable t >>= f = .ok s') :
    ∃ tab, s.db.HasTable t tab := by
  cases ht : s.db.schema.tabs t with
  | none =>
    simp only [TxnState.getTable, ht] at h
    cases h
  | some tab => exact ⟨tab, ht⟩

theorem consistent_insert {values : List Value} (hs : s.db.Consistent)
    (hrun : insertNext cx t values s = .ok s') : s'.db.Consistent := by
  obtain ⟨tab, ht⟩ := hasTable_of_getTable hrun
  obtain ⟨hheap, hindexes⟩ := hs t tab ht
  obtain ⟨rid, rec, hnone, hfree, -, heff⟩ := (insertNext_yields ht hheap).of_ok hrun
  refine (heff.relates_iff ht hs).2 fun index hindex => ?_
  exact (hindexes index hindex).insert hnone (hfree index hindex)

theorem consistent_delete {conds : List Condition} (hs : s.db.Consistent)
    (hrids : (Statement.delete t conds).OnRows s.db rids)
    (hrun : deleteNext cx t rids s = .ok s') : s'.db.Consistent := by
  obtain ⟨tab, ht⟩ := hasTable_of_getTable hrun
  obtain ⟨hheap, hindexes⟩ := hs t tab ht
  obtain ⟨-, heff⟩ := (deleteNext_yields ht hheap hrids.1 (hrids.2 tab ht)).of_ok hrun
  exact (heff.relates_iff ht hs).2 fun index hindex =>
    indexes_deleted (hindexes index hindex) hrids.1 (hrids.2 tab ht)

theorem consistent_update_iff {setClauses : List SetClause} {conds : List Condition}
    (hs : s.db.Consistent) (hrids : (Statement.update t setClauses conds).OnRows s.db rids)
    (hrun : updateNext cx t setClauses rids s = .ok s') :
    s'.db.Consistent ↔ (Statement.update t setClauses conds).NewKeysDiffer s.db rids := by
  obtain ⟨tab, ht⟩ := hasTable_of_getTable hrun
  obtain ⟨hheap, hindexes⟩ := hs t tab ht
  obtain ⟨hrows, hchecks, -, heff⟩ :=
    (updateNext_yields ht hheap hrids.1 (hrids.2 tab ht)).of_ok hrun
  rw [Db.Consistent, heff.relates_iff ht hs]
  generalize hplan : planChanges tab setClauses (s.db.fhs t).records rids = l at *
  have hmem {c : Change Rid Bytes} (hc : c ∈ l) := mem_planChanges (hplan ▸ hc)
  constructor
  · intro hindexes' tab' ht' index hindex rid hrid rid' hrid' rec rec' new new' hrec hrec'
      hnew hnew' hkey
    obtain rfl : tab' = tab := Option.some.inj (ht'.symm.trans ht)
    -- both rows are changed, and the index tells their new keys apart
    have hchanged (rid : Rid) (rec new : Bytes) (hrid : rid ∈ rids)
      (hrec : (s.db.fhs t).records rid = some rec) (hnew : applySet tab' setClauses rec = .ok new) :
        HasKey index.key (Change.rows (s.db.fhs t).records l) rid (index.key new) := by
      rw [← hrows] at hrid
      obtain ⟨c, hc, rfl⟩ := List.mem_map.1 hrid
      obtain ⟨-, hold, hnew'⟩ := hmem hc
      obtain rfl : c.old = rec := Option.some.inj (hold.symm.trans hrec)
      obtain rfl : c.new = new := Except.ok.inj (hnew'.symm.trans hnew)
      exact ⟨c.new, hchecks.1.rows_of_mem hc, rfl⟩
    exact (hindexes' index hindex).unique (hchanged rid' rec' new' hrid' hrec' hnew')
      (hkey ▸ hchanged rid rec new hrid hrec hnew)
  · intro hdiffer index hindex
    refine (hchecks.checked hindex).indexes (hindexes index hindex) fun c hc c' hc' hkey => ?_
    obtain ⟨hrid, hold, hnew⟩ := hmem hc
    obtain ⟨hrid', hold', hnew'⟩ := hmem hc'
    exact hdiffer tab ht index hindex c.row hrid c'.row hrid' c.old c'.old c.new c'.new hold hold'
      hnew hnew' hkey

end Consistency

def numberCol : ColMeta := ⟨"t", "a", .int, 4, 0⟩

/-- The database with this one table, `t`, which has no row. -/
def newDb (tab : TabMeta) (hdr : RmFileHdr)
    (hnodup : (tab.indexes.map fun index => getIndexName "t" index.cols).Nodup) : Db where
  schema :=
    { tabs := fun t => if t = "t" then some tab else none
      nodup := by
        intro t tab' h
        split at h
        · next ht =>
          cases h
          exact ht ▸ hnodup
        · cases h
      names := by
        intro t t' tab tab' h h'
        split at h
        · split at h'
          · intros
            simp [*]
          · cases h'
        · cases h }
  fhs := fun _ => RmFile.openFile hdr fun _ => {}
  ihs := fun _ _ => none

section NewDb

variable {tab : TabMeta} {recordSize : ℤ} {hdr : RmFileHdr}
  {hnodup : (tab.indexes.map fun index => getIndexName "t" index.cols).Nodup}

theorem heapInv_newDb (hcreate : createFile recordSize = .ok hdr) (t : String) :
    HeapInv ((newDb tab hdr hnodup).fhs t) fun _ => none :=
  .openFile hcreate fun _ => {}

theorem records_newDb (hcreate : createFile recordSize = .ok hdr) (t : String) :
    ((newDb tab hdr hnodup).fhs t).records = fun _ => none :=
  (heapInv_newDb hcreate t).eq_records.symm

theorem consistent_newDb (hcreate : createFile recordSize = .ok hdr) :
    (newDb tab hdr hnodup).Consistent := by
  intro t tab _
  rw [records_newDb hcreate]
  refine ⟨heapInv_newDb hcreate t, fun index _ k rid => ?_⟩
  change none = some rid ↔ _
  simp [HasKey]

end NewDb

/-- No request is refused. -/
def freeContext : Context := ⟨fun _ => false, true⟩

/-- A table with two number columns and an index on the first one. -/
def pairTable : TabMeta := ⟨"t", [numberCol, ⟨"t", "b", .int, 4, 4⟩], [⟨"t", [numberCol]⟩]⟩

/-- The database with this table and no row. -/
def pairDb : Db := newDb pairTable ⟨8, 1, 501, -1, 63⟩ (List.nodup_singleton _)

theorem createFile_pairDb : createFile 8 = .ok ⟨8, 1, 501, -1, 63⟩ := by decide

theorem consistent_pairDb : pairDb.Consistent := consistent_newDb createFile_pairDb

/-- The rows (1, 5) and (2, 5). -/
def twoPairs : Exec TxnState := do
  let s ← insertNext freeContext "t" [.int 1, .int 5] ⟨pairDb, []⟩
  insertNext freeContext "t" [.int 2, .int 5] s

/-- A table with one number column and an index on it. -/
def numberTable : TabMeta := ⟨"t", [numberCol], [⟨"t", [numberCol]⟩]⟩

/-- The database with this table and no row. -/
def numberDb : Db := newDb numberTable ⟨4, 1, 987, -1, 124⟩ (List.nodup_singleton _)

theorem createFile_numberDb : createFile 4 = .ok ⟨4, 1, 987, -1, 124⟩ := by decide

theorem records_numberDb (t : String) : (numberDb.fhs t).records = fun _ => none :=
  records_newDb createFile_numberDb t

theorem consistent_numberDb : numberDb.Consistent := consistent_newDb createFile_numberDb

/-- The rows after an insertion. -/
theorem records_insert {cx : Context} {t : String} {values : List Value} {s s' : TxnState}
    (hs : s.db.Consistent) (hrun : insertNext cx t values s = .ok s') :
    ∃ rid rec, (s'.db.fhs t).records = Function.update (s.db.fhs t).records rid (some rec) := by
  obtain ⟨tab, ht⟩ := hasTable_of_getTable hrun
  obtain ⟨rid, rec, -, -, -, heff⟩ := (insertNext_yields ht (hs t tab ht).1).of_ok hrun
  exact ⟨rid, rec, heff.heap.eq_records.symm⟩

/-- The numbers 1 and 2. -/
def twoNumbers : Exec TxnState := do
  let s ← insertNext freeContext "t" [.int 1] ⟨numberDb, []⟩
  insertNext freeContext "t" [.int 2] s

end Rmdb
