import Rmdb.Execution.RangeTable
import Rmdb.Lib.KeyIndex

/-!
# Repeatable range reads

Whole statements of several clients on one table with one index.  An index scan of an explicit
transaction locks its range of keys and reads every record in it under a shared lock; a writer locks
its records exclusively, and in an explicit transaction the points of the old and the new keys as
well (`lock_exclusive_gap_for_record`).

An autocommitted `INSERT` or `UPDATE` locks no point, so it can bring a record into a range that
another transaction has read, and it can take the key of a record that an active transaction has
deleted.  An `UPDATE` moves the index entry of a record before it asks for the lock of the record;
when the lock is refused, undoing finds the old record and leaves the entry at the new key.  An
`UPDATE` that gives two records one key enters only the first of them.  Nothing else changes what a
scan of the range gives.

The conflict test of gap locks is taken as exact here.
-/

namespace Rmdb

open KeyIndex RangeTable

/-! ## Locks -/

/-- A lock request of a statement. -/
inductive RangeRequest
  | sharedTable
  | sharedRecord (rid : Rid)
  | exclusiveRecord (rid : Rid)
  | gap (g : GapLock)
deriving DecidableEq, Repr

/-- The table and record locks, and the gap locks with their holders. -/
structure RangeLocks where
  manager : LockManager := {}
  gaps : List (TxnId × GapLock) := []

namespace RangeLocks

variable (tgt : RangeTarget)

/-- What a granted request of the lock manager leaves. -/
def granted (l : RangeLocks) (res : LockManager × Except AbortReason Bool) : Option RangeLocks :=
  match res with
  | (m, .ok _) => some { l with manager := m }
  | (_, .error _) => none

/-- A request; `none` when it is refused. -/
def acquire (t : TxnId) (l : RangeLocks) : RangeRequest → Option RangeLocks
  | .sharedTable => l.granted (l.manager.lockSharedOnTable t tgt.tabFd)
  | .sharedRecord rid => l.granted (l.manager.lockSharedOnRecord t rid tgt.tabFd)
  | .exclusiveRecord rid => l.granted (l.manager.lockExclusiveOnRecord t rid tgt.tabFd)
  | .gap g =>
    if l.gaps.any fun h => h.1 != t && g.clash (indexColMeta tgt.index) h.2 then none
    else some { l with gaps := (t, g) :: l.gaps }

/-- The requests one after the other. -/
def acquireAll (t : TxnId) (l : RangeLocks) (reqs : List RangeRequest) : Option RangeLocks :=
  reqs.foldlM (acquire tgt t) l

/-- `release_all_locks`, and the new state of the transaction. -/
def release (l : RangeLocks) (t : TxnId) (st : TransactionState) : RangeLocks where
  manager := (l.manager.releaseAllLocks t).setState t st
  gaps := l.gaps.filter (·.1 ≠ t)

/-- `t` has a lock on the record. -/
def Has (l : RangeLocks) (t : TxnId) (rid : Rid) : Prop :=
  t ∈ (l.manager.queue (.record tgt.tabFd rid)).requestQueue.map (·.txnId)

end RangeLocks

/-! ## Statements -/

/-- How a statement finds its records. -/
inductive Scan
  | seq
  | index (r : GapRange)
deriving DecidableEq, Repr

/-- A statement with what its scan finds and what it does. -/
inductive RangeStatement
  | select (scan : Scan) (found : List Rid)
  | insert (rid : Rid) (rec : Bytes)
  | delete (scan : Scan) (found : List Rid) (rows : List (Rid × Bytes))
  | update (scan : Scan) (found : List Rid) (changes : List (Change Rid Bytes))

namespace RangeStatement

variable (tgt : RangeTarget) (txnMode : Bool)

/-- The requests of a scan, which an autocommitted statement does not make. -/
def scanRequests (scan : Scan) (found : List Rid) : List RangeRequest :=
  if txnMode then
    (match scan with
      | .seq => .sharedTable
      | .index r => .gap (.range r)) :: found.map .sharedRecord
  else []

/-- `lock_exclusive_gap_for_record`. -/
def pointRequests (rec : Bytes) : List RangeRequest :=
  if txnMode then [.gap (.point (tgt.keyOf rec))] else []

/-- `lock_record_read`. -/
def readRequests (rid : Rid) : List RangeRequest := if txnMode then [.sharedRecord rid] else []

/-- The lock requests in their order. -/
def requests : RangeStatement → List RangeRequest
  | select scan found => scanRequests txnMode scan found
  | insert rid rec => pointRequests tgt txnMode rec ++ [.exclusiveRecord rid]
  | delete scan found rows => scanRequests txnMode scan found ++ rows.flatMap fun row =>
      readRequests txnMode row.1 ++ pointRequests tgt txnMode row.2 ++ [.exclusiveRecord row.1]
  | update scan found changes => scanRequests txnMode scan found ++
      changes.flatMap (fun c => readRequests txnMode c.row) ++ changes.flatMap fun c =>
        pointRequests tgt txnMode c.old ++ pointRequests tgt txnMode c.new ++
          [.exclusiveRecord c.row]

def changes : RangeStatement → List RowChange
  | select _ _ => []
  | insert rid rec => [⟨rid, none, some rec⟩]
  | delete _ _ rows => rows.map fun row => ⟨row.1, some row.2, none⟩
  | update _ _ changes => changes.map fun c => ⟨c.row, some c.old, some c.new⟩

/-- The range that the statement reads through the index. -/
def range? : RangeStatement → Option GapRange
  | select (.index r) _ => some r
  | delete (.index r) _ _ => some r
  | update (.index r) _ _ => some r
  | _ => none

def found : RangeStatement → List Rid
  | select _ found => found
  | insert _ _ => []
  | delete _ found _ => found
  | update _ found _ => found

end RangeStatement

/-! ## The server -/

/-- A transaction: the ranges that it has read through the index, and its writes with the newest
first. -/
structure RangeTxn where
  scanned : List GapRange := []
  writeSet : List RowChange := []

/-- The table, the locks and the transactions; `modes` are the `txn_mode_` flags. -/
structure RangeState where
  table : RangeTable
  modes : TxnId → Bool
  locks : RangeLocks := {}
  txns : TxnId → RangeTxn := fun _ => {}

inductive RangeCall
  | run (t : TxnId) (stmt : RangeStatement)
  /-- A statement fails after the requests `reqs`, or is `ROLLBACK`.  It has made the changes
  `done`; `rekeyed` is that of an `UPDATE` which is refused the lock of its record after the index
  entry is rewritten and the write is recorded. -/
  | fail (t : TxnId) (reqs : List RangeRequest) (done : List RowChange) (rekeyed : Option RowChange)
  | commit (t : TxnId)

namespace RangeState

variable (tgt : RangeTarget)

/-- The scan finds what the index has in its range, and the writer has checked its changes. -/
structure Valid (s : RangeState) (stmt : RangeStatement) : Prop where
  found : ∀ r, stmt.range? = some r → ∀ rid, rid ∈ stmt.found ↔ s.table.Finds tgt r rid
  checked : s.table.Checked tgt stmt.changes

/-- The state after a statement that was granted the locks `l`.  An autocommitted one is
committed. -/
def complete (s : RangeState) (t : TxnId) (stmt : RangeStatement) (l : RangeLocks) : RangeState :=
  let table := s.table.applyChanges tgt stmt.changes
  if s.modes t then
    { s with
      table := table
      locks := l
      txns := Function.update s.txns t
        { scanned := stmt.range?.toList ++ (s.txns t).scanned
          writeSet := stmt.changes.reverse ++ (s.txns t).writeSet } }
  else { s with table := table, locks := l.release t .committed }

/-- The table after `abort` of a transaction whose last statement has failed. -/
def aborted (s : RangeState) (t : TxnId) (done : List RowChange) (rekeyed : Option RowChange) :
    RangeTable :=
  let table := s.table.applyChanges tgt done
  let table := match rekeyed with
    | some c => table.rekey tgt c
    | none => table
  table.undoWrites tgt (rekeyed.toList ++ (done.reverse ++ (s.txns t).writeSet))

/-- The steps. -/
def Steps (s : RangeState) (c : RangeCall) (s' : RangeState) : Prop :=
  match c with
  | .run t stmt => s.Valid tgt stmt ∧ ∃ l,
      s.locks.acquireAll tgt t (stmt.requests tgt (s.modes t)) = some l ∧
        s' = s.complete tgt t stmt l
  | .fail t reqs done rekeyed =>
      s.table.Checked tgt (done ++ rekeyed.toList) ∧ (∀ c ∈ done, .exclusiveRecord c.rid ∈ reqs) ∧
      (∀ c ∈ rekeyed, c.old ≠ none ∧ c.new ≠ none) ∧
      ∃ l, s.locks.acquireAll tgt t reqs = some l ∧
        s' = { s with
          table := s.aborted tgt t done rekeyed
          locks := l.release t .aborted
          txns := Function.update s.txns t {} }
  | .commit t => s' = { s with
      locks := s.locks.release t .committed
      txns := Function.update s.txns t {} }

end RangeState

/-! ## What acquiring does -/

/-- An exclusive lock is granted when no other transaction has a request. -/
theorem Granted.eq_of_mem {t : TxnId} {q q' : LockRequestQueue} (h : Granted t .exclusive q q')
    (hok : RecordOk q) {req : LockRequest} (hr : req ∈ q.requestQueue) : req.txnId = t := by
  by_contra hne
  have hconf (hc : ∀ r ∈ q.requestQueue, r.txnId ≠ t →
    recordConflict .exclusive r.lockMode = false) :
      False := by
    have := hc req hr hne
    rcases hok.mode req hr with hm | hm <;> simp [recordConflict, hm] at this
  cases h with
  | held r hr' ht hm =>
    rw [hok.alone r hr' hm, List.mem_singleton] at hr
    exact hne (hr ▸ ht)
  | upgrade p hp r hr' hpr _ ho =>
    have := List.any_eq_false.1 ho req hr
    simp [hok.granted req hr, hne] at this
  | rewrite p hp g r hr' hpr hm hc => exact hconf hc
  | append g hn hc => exact hconf hc

namespace RangeLocks

variable (tgt : RangeTarget)

/-- The invariant of the locks: gap locks of different transactions do not clash. -/
structure Ok (l : RangeLocks) : Prop where
  records : l.manager.RecordsOk
  sets : LockSetsExact l.manager
  apart : ∀ h ∈ l.gaps, ∀ h' ∈ l.gaps, h.1 ≠ h'.1 → h.2.clash (indexColMeta tgt.index) h'.2 = false

/-- `t` has been granted the requests `reqs`. -/
structure Acquired (t : TxnId) (reqs : List RangeRequest) (l l' : RangeLocks) : Prop where
  ok : l'.Ok tgt
  gaps : ∀ t' g, (t', g) ∈ l'.gaps ↔ (t' = t ∧ .gap g ∈ reqs) ∨ (t', g) ∈ l.gaps
  has : ∀ t' rid, l'.Has tgt t' rid ↔
    (t' = t ∧ (.sharedRecord rid ∈ reqs ∨ .exclusiveRecord rid ∈ reqs)) ∨ l.Has tgt t' rid
  alone : ∀ rid, .exclusiveRecord rid ∈ reqs → ∀ t', l.Has tgt t' rid → t' = t
  free : ∀ g, .gap g ∈ reqs → ∀ h ∈ l.gaps, h.1 ≠ t → g.clash (indexColMeta tgt.index) h.2 = false

variable {tgt} {l l' l'' : RangeLocks} {t : TxnId}

theorem Acquired.nil (h : l.Ok tgt) : Acquired tgt t [] l l :=
  ⟨h, by simp, by simp, by simp, by simp⟩

theorem Acquired.cons {req : RangeRequest} {reqs : List RangeRequest}
    (h : Acquired tgt t [req] l l')
    (h' : Acquired tgt t reqs l' l'') : Acquired tgt t (req :: reqs) l l'' where
  ok := h'.ok
  gaps t' g := by
    rw [h'.gaps, h.gaps]
    simp only [List.mem_cons, List.not_mem_nil, or_false]
    tauto
  has t' rid := by
    rw [h'.has, h.has]
    simp only [List.mem_cons, List.not_mem_nil, or_false]
    tauto
  alone rid hr t' ht' := by
    rcases List.mem_cons.1 hr with hr | hr
    · exact h.alone rid (List.mem_singleton.2 hr) t' ht'
    · exact h'.alone rid hr t' ((h.has t' rid).2 (Or.inr ht'))
  free g hg held hmem hne := by
    rcases List.mem_cons.1 hg with hg | hg
    · exact h.free g (List.mem_singleton.2 hg) held hmem hne
    · exact h'.free g hg held ((h.gaps held.1 held.2).2 (Or.inr hmem)) hne

/-- A granted request of the lock manager, for a record or for the table. -/
theorem acquired_of_grantedTo {m : LockManager} {id : LockDataId} {req : RangeRequest}
    (h : l.Ok tgt) (hok : m.RecordsOk) (hout : SameLocks l.manager m ∨ GrantedTo l.manager t id m)
    (hhas : ∀ rid, t ∈ (m.queue (.record tgt.tabFd rid)).requestQueue.map (·.txnId) ↔
      (req = .sharedRecord rid ∨ req = .exclusiveRecord rid) ∨ l.Has tgt t rid)
    (hgap : ∀ g, req ≠ .gap g)
    (halone : ∀ rid, req = .exclusiveRecord rid → ∀ t', l.Has tgt t' rid → t' = t) :
    Acquired tgt t [req] l { l with manager := m } where
  ok := ⟨hok, hout.elim h.sets.same h.sets.granted, h.apart⟩
  gaps t' g := by simp [(hgap g).symm]
  has t' rid := by
    by_cases ht : t' = t
    · subst ht
      simp only [true_and, List.mem_singleton, eq_comm (b := req)]
      exact hhas rid
    · have hother : Has tgt { l with manager := m } t' rid ↔ l.Has tgt t' rid := by
        unfold Has
        rcases hout with hsame | hg
        · rw [hsame.queue]
        · by_cases hid : LockDataId.record tgt.tabFd rid = id
          · subst hid
            rw [hg.regrant.mem_iff]
            simp [ht]
          · rw [hg.queue_ne _ hid]
      simp [hother, ht]
  alone rid hr t' ht' := halone rid (List.mem_singleton.1 hr).symm t' ht'
  free g hg := absurd (List.mem_singleton.1 hg).symm (hgap g)

theorem lockOnRecord_ok {m : LockManager} {rid : Rid} {fd : ℤ} {mode : LockMode} {b : Bool}
    (h : (m.lockOnRecord t rid fd mode).2 = .ok b) : b = true := by
  unfold LockManager.lockOnRecord at h
  dsimp only at h
  split at h
  · cases h
  · split at h
    · cases h
    · split at h <;> cases h
      rfl

/-- A granted record lock. -/
theorem acquired_record {rid : Rid} {mode : LockMode} {m : LockManager} {b : Bool}
    {req : RangeRequest}
    (h : l.Ok tgt) (hres : l.manager.lockOnRecord t rid tgt.tabFd mode = (m, .ok b))
    (hmode : (mode = .shared ∧ req = .sharedRecord rid) ∨
      (mode = .exclusive ∧ req = .exclusiveRecord rid)) :
    Acquired tgt t [req] l { l with manager := m } := by
  have hm : m = (l.manager.lockOnRecord t rid tgt.tabFd mode).1 := by rw [hres]
  have hok : (l.manager.lockOnRecord t rid tgt.tabFd mode).2 = .ok true := by
    rw [hres]
    rw [lockOnRecord_ok (show (l.manager.lockOnRecord t rid tgt.tabFd mode).2 = .ok b by rw [hres])]
  rcases lockOnRecord_cases l.manager t rid tgt.tabFd mode with ⟨hne, -⟩ | ⟨-, hne, hg⟩
  · exact absurd hok hne
  subst hm
  refine acquired_of_grantedTo h ?_ (lockOnRecord_outcome l.manager t rid tgt.tabFd mode)
    (fun rid' => ?_) (fun g => ?_) fun rid' hr t' ht' => ?_
  · exact recordsOk_lockOnRecord h.records t rid tgt.tabFd (hmode.imp (·.1) (·.1))
  · have hreq : (req = .sharedRecord rid' ∨ req = .exclusiveRecord rid') ↔ rid' = rid := by
      rcases hmode with ⟨-, rfl⟩ | ⟨-, rfl⟩ <;> simp [eq_comm]
    rw [hreq]
    by_cases hid : rid' = rid
    · subst hid
      rw [hg.regrant.mem_iff]
      simp
    · rw [hne _ (by simpa using hid)]
      simp [hid, Has]
  · rcases hmode with ⟨-, rfl⟩ | ⟨-, rfl⟩ <;> simp
  · rcases hmode with ⟨-, rfl⟩ | ⟨rfl, rfl⟩
    · cases hr
    · obtain rfl := RangeRequest.exclusiveRecord.inj hr
      obtain ⟨r, hrm, rfl⟩ := List.mem_map.1 ht'
      exact hg.eq_of_mem (h.records tgt.tabFd rid) hrm

theorem acquired_of_acquire {req : RangeRequest} (h : l.Ok tgt)
    (hreq : l.acquire tgt t req = some l') : Acquired tgt t [req] l l' := by
  cases req with
  | sharedTable =>
    simp only [acquire, granted] at hreq
    split at hreq
    · rename_i m b hres
      cases hreq
      have hm : m = (l.manager.lockOnTable t tgt.tabFd .shared).1 := by
        rw [show l.manager.lockOnTable t tgt.tabFd .shared = _ from hres]
      subst hm
      have hout := lockOnTable_outcome l.manager t tgt.tabFd .shared
      have hqueue (fd : ℤ) (rid : Rid) :
        (l.manager.lockOnTable t tgt.tabFd .shared).1.queue (.record fd rid) =
          l.manager.queue (.record fd rid) := by
        rcases hout with hsame | hg
        · exact hsame.queue _
        · exact hg.queue_ne _ (by simp)
      refine acquired_of_grantedTo h (fun fd rid => ?_) hout (fun rid => ?_) (by simp) (by simp)
      · rw [hqueue]
        exact h.records fd rid
      · rw [hqueue]
        simp [Has]
    · cases hreq
  | sharedRecord rid =>
    simp only [acquire, granted] at hreq
    split at hreq
    · rename_i hres
      cases hreq
      exact acquired_record h hres (Or.inl ⟨rfl, rfl⟩)
    · cases hreq
  | exclusiveRecord rid =>
    simp only [acquire, granted] at hreq
    split at hreq
    · rename_i hres
      cases hreq
      exact acquired_record h hres (Or.inr ⟨rfl, rfl⟩)
    · cases hreq
  | gap g =>
    simp only [acquire] at hreq
    split at hreq
    · cases hreq
    · rename_i hany
      cases hreq
      have hfree (held : TxnId × GapLock) (hmem : held ∈ l.gaps) (hne : held.1 ≠ t) :
          g.clash (indexColMeta tgt.index) held.2 = false := by
        refine Bool.eq_false_of_not_eq_true fun hc => hany (List.any_eq_true.2 ⟨held, hmem, ?_⟩)
        rw [hc, Bool.and_true]
        exact bne_iff_ne.2 hne
      refine ⟨⟨h.records, h.sets, fun held hh held' hh' hne => ?_⟩, fun t' g' => ?_,
        fun t' rid => ?_,
        fun rid hr => ?_, fun g' hg' held hh hne => ?_⟩
      · rcases List.mem_cons.1 hh with rfl | hh
        · rcases List.mem_cons.1 hh' with rfl | hh'
          · exact absurd rfl hne
          · exact hfree held' hh' hne.symm
        · rcases List.mem_cons.1 hh' with rfl | hh'
          · rw [GapLock.clash_comm]
            exact hfree held hh hne
          · exact h.apart held hh held' hh' hne
      · simp
      · simp [Has]
      · cases List.mem_singleton.1 hr
      · obtain rfl := RangeRequest.gap.inj (List.mem_singleton.1 hg')
        exact hfree held hh hne

theorem acquired_of_acquireAll {reqs : List RangeRequest} (h : l.Ok tgt)
    (hreqs : l.acquireAll tgt t reqs = some l') : Acquired tgt t reqs l l' := by
  induction reqs generalizing l with
  | nil =>
    cases hreqs
    exact .nil h
  | cons req reqs ih =>
    rw [acquireAll, List.foldlM_cons] at hreqs
    obtain ⟨l₁, h₁, h₂⟩ := Option.bind_eq_some_iff.1 hreqs
    have hfirst := acquired_of_acquire h h₁
    exact hfirst.cons (ih hfirst.ok h₂)

/-! ## Releasing -/

theorem Ok.release (h : l.Ok tgt) (t : TxnId) (st : TransactionState) :
    (l.release t st).Ok tgt where
  records fd rid := releaseAllLocks_queue l.manager t _ (fun _ hq => hq.eraseP _ _)
    (h.records fd rid)
  sets := (h.sets.release t).same (sameLocks_setState _ t st)
  apart held hh held' hh' hne :=
    h.apart held (List.mem_of_mem_filter hh) held' (List.mem_of_mem_filter hh') hne

theorem Ok.has_release (h : l.Ok tgt) (st : TransactionState) (t' : TxnId) (rid : Rid) :
    (l.release t st).Has tgt t' rid ↔ t' ≠ t ∧ l.Has tgt t' rid := by
  unfold Has RangeLocks.release
  rw [LockManager.queue_setState, h.sets.release_requests]
  simp only [withoutRequests, List.mem_map, List.mem_filter, bne_iff_ne]
  constructor
  · rintro ⟨req, ⟨hr, hne⟩, rfl⟩
    exact ⟨hne, req, hr, rfl⟩
  · rintro ⟨hne, req, hr, rfl⟩
    exact ⟨req, ⟨hr, hne⟩, rfl⟩

theorem mem_gaps_release {st : TransactionState} {t' : TxnId} {g : GapLock} :
    (t', g) ∈ (l.release t st).gaps ↔ t' ≠ t ∧ (t', g) ∈ l.gaps := by
  simp [RangeLocks.release, and_comm]

end RangeLocks

/-! ## What statements ask for -/

namespace RangeStatement

variable (tgt : RangeTarget) (txnMode : Bool) (stmt : RangeStatement)

/-- Every changed record is locked exclusively. -/
theorem exclusive_mem_requests {c : RowChange} (hc : c ∈ stmt.changes) :
    .exclusiveRecord c.rid ∈ stmt.requests tgt txnMode := by
  cases stmt with
  | select scan found => cases hc
  | insert rid rec =>
    obtain rfl := List.mem_singleton.1 hc
    simp [requests]
  | delete scan found rows =>
    obtain ⟨row, hrow, rfl⟩ := List.mem_map.1 hc
    simp only [requests, List.mem_append, List.mem_flatMap]
    exact Or.inr ⟨row, hrow, by simp⟩
  | update scan found changes =>
    obtain ⟨ch, hch, rfl⟩ := List.mem_map.1 hc
    simp only [requests, List.mem_append, List.mem_flatMap]
    exact Or.inr ⟨ch, hch, by simp⟩

/-- An explicit transaction locks the points of the old and the new keys. -/
theorem point_mem_requests {c : RowChange} (hc : c ∈ stmt.changes) {rec : Bytes}
    (hrec : c.old = some rec ∨ c.new = some rec) :
    .gap (.point (tgt.keyOf rec)) ∈ stmt.requests tgt true := by
  cases stmt with
  | select scan found => cases hc
  | insert rid rec' =>
    obtain rfl := List.mem_singleton.1 hc
    obtain rfl : rec' = rec := by simpa using hrec
    simp [requests, pointRequests]
  | delete scan found rows =>
    obtain ⟨row, hrow, rfl⟩ := List.mem_map.1 hc
    obtain rfl : row.2 = rec := by simpa using hrec
    simp only [requests, List.mem_append, List.mem_flatMap]
    exact Or.inr ⟨row, hrow, by simp [pointRequests]⟩
  | update scan found changes =>
    obtain ⟨ch, hch, rfl⟩ := List.mem_map.1 hc
    simp only [requests, List.mem_append, List.mem_flatMap]
    refine Or.inr ⟨ch, hch, ?_⟩
    rcases hrec with hrec | hrec
    · obtain rfl := Option.some.inj hrec
      simp [pointRequests]
    · obtain rfl := Option.some.inj hrec
      simp [pointRequests]

/-- The range of an index scan and the records it finds are locked. -/
theorem scan_mem_requests {r : GapRange} (hr : stmt.range? = some r) :
    .gap (.range r) ∈ stmt.requests tgt true ∧
      ∀ rid ∈ stmt.found, .sharedRecord rid ∈ stmt.requests tgt true := by
  have hscan (found : List Rid) : .gap (.range r) ∈ scanRequests true (.index r) found ∧
      ∀ rid ∈ found, .sharedRecord rid ∈ scanRequests true (.index r) found := by
    simp [scanRequests]
  cases stmt with
  | select scan found =>
    cases scan with
    | seq => cases hr
    | index r' =>
      obtain rfl := Option.some.inj hr
      exact hscan found
  | insert rid rec => cases hr
  | delete scan found rows =>
    cases scan with
    | seq => cases hr
    | index r' =>
      obtain rfl := Option.some.inj hr
      exact ⟨List.mem_append_left _ (hscan found).1,
        fun rid hrid => List.mem_append_left _ ((hscan found).2 rid hrid)⟩
  | update scan found changes =>
    cases scan with
    | seq => cases hr
    | index r' =>
      obtain rfl := Option.some.inj hr
      exact ⟨List.mem_append_left _ (List.mem_append_left _ (hscan found).1),
        fun rid hrid => List.mem_append_left _ (List.mem_append_left _ ((hscan found).2 rid hrid))⟩

end RangeStatement

/-! ## The invariant -/

namespace RangeState

variable (tgt : RangeTarget)

/-- Ranges that were read are locked, with every record in them; written records are locked, with
the points of their old and their present keys.  The index is exact and the writes can be undone. -/
structure Inv (s : RangeState) : Prop where
  ok : s.locks.Ok tgt
  exact : s.table.Exact tgt
  undoable : ∀ t, Undoable tgt s.table.rows (s.txns t).writeSet
  range : ∀ t, ∀ r ∈ (s.txns t).scanned, (t, .range r) ∈ s.locks.gaps
  read : ∀ t, ∀ r ∈ (s.txns t).scanned, ∀ rid rec, s.table.rows rid = some rec →
    tgt.inRange rec r = true → s.locks.Has tgt t rid
  written : ∀ t, ∀ w ∈ (s.txns t).writeSet, s.locks.Has tgt t w.rid
  point : ∀ t, ∀ w ∈ (s.txns t).writeSet, ∀ rec, w.old = some rec ∨ s.table.rows w.rid = some rec →
    (t, .point (tgt.keyOf rec)) ∈ s.locks.gaps
  apart : ∀ t t', ∀ w ∈ (s.txns t).writeSet, ∀ w' ∈ (s.txns t').writeSet, w.rid = w'.rid → t = t'
  auto : ∀ t, s.modes t = false → (s.txns t).scanned = [] ∧ (s.txns t).writeSet = []

/-- No statement gives two records the same key.  No autocommitted statement brings a record into a
range that another transaction has read, or gives it the old key of a record that another one has
written.  No `UPDATE` that moves a key is refused the lock of the record. -/
def KeepsOut (s : RangeState) : RangeCall → Prop
  | .run t stmt => KeysApart tgt stmt.changes ∧
      (s.modes t = false → ∀ c ∈ stmt.changes, ∀ new, c.new = some new → ∀ t', t' ≠ t →
        (∀ r ∈ (s.txns t').scanned, tgt.inRange new r = true →
          ∃ old, c.old = some old ∧ tgt.inRange old r = true) ∧
        ∀ w ∈ (s.txns t').writeSet, ∀ old, w.old = some old →
          tgt.sameKey (tgt.keyOf new) (tgt.keyOf old) = false)
  | .fail _ _ done rekeyed => KeysApart tgt done ∧
      ∀ c ∈ rekeyed, c.old.map tgt.keyOf = c.new.map tgt.keyOf
  | .commit _ => True

variable {tgt} {s s' : RangeState} {t : TxnId} {stmt : RangeStatement} {l : RangeLocks}

/-- A point lock of one transaction keeps its key out of the ranges of the others. -/
theorem Inv.not_inRange (h : s.Inv tgt) {t' : TxnId} (hne : t' ≠ t) {r : GapRange}
    (hr : r ∈ (s.txns t').scanned) {rec : Bytes} (hp : (t, .point (tgt.keyOf rec)) ∈ s.locks.gaps) :
    tgt.inRange rec r = false :=
  h.ok.apart _ hp _ (h.range t' r hr) hne.symm

/-- The changes of a statement are to keys that no other record has or gets. -/
theorem Inv.fits (h : s.Inv tgt) (hvalid : s.Valid tgt stmt)
    (hkeeps : s.KeepsOut tgt (.run t stmt)) : Fits tgt s.table.rows stmt.changes :=
  h.exact.fits hvalid.checked hkeeps.1

/-- A statement that is granted its locks changes no record in a range that another transaction has
read, and brings none into it. -/
theorem Inv.changes_outside (h : s.Inv tgt) (hvalid : s.Valid tgt stmt)
    (hl : RangeLocks.Acquired tgt t (stmt.requests tgt (s.modes t)) s.locks l)
    (hkeeps : s.KeepsOut tgt (.run t stmt)) {t' : TxnId} (hne : t' ≠ t) {r : GapRange}
    (hr : r ∈ (s.txns t').scanned) {c : RowChange} (hc : c ∈ stmt.changes) {rec : Bytes}
    (hrec : c.old = some rec ∨ c.new = some rec) : tgt.inRange rec r = false := by
  refine Bool.eq_false_of_not_eq_true fun hin => ?_
  have hold (old : Bytes) (ho : c.old = some old) (hin : tgt.inRange old r = true) : False := by
    have hrow : s.table.rows c.rid = some old := (hvalid.checked.old c hc).trans ho
    have hhas := h.read t' r hr c.rid old hrow hin
    exact hne (hl.alone c.rid (stmt.exclusive_mem_requests tgt (s.modes t) hc) t' hhas)
  rcases hrec with ho | hn
  · exact hold rec ho hin
  · cases hmode : s.modes t with
    | true =>
      rw [hmode] at hl
      have hfree := hl.free _ (stmt.point_mem_requests tgt hc (Or.inr hn)) _ (h.range t' r hr) hne
      rw [show GapLock.clash _ _ _ = tgt.inRange rec r from rfl, hin] at hfree
      cases hfree
    | false =>
      obtain ⟨old, ho, hin'⟩ := (hkeeps.2 hmode c hc rec hn t' hne).1 r hr hin
      exact hold old ho hin'

/-- The new keys of a statement are not the old keys of what another transaction has written. -/
theorem Inv.new_key_apart (h : s.Inv tgt)
    (hl : RangeLocks.Acquired tgt t (stmt.requests tgt (s.modes t)) s.locks l)
    (hkeeps : s.KeepsOut tgt (.run t stmt)) {t' : TxnId} (hne : t' ≠ t) {w : RowChange}
    (hw : w ∈ (s.txns t').writeSet) {old : Bytes} (ho : w.old = some old) {c : RowChange}
    (hc : c ∈ stmt.changes) {new : Bytes} (hn : c.new = some new) :
    tgt.sameKey (tgt.keyOf new) (tgt.keyOf old) = false := by
  cases hmode : s.modes t with
  | true =>
    rw [hmode] at hl
    exact hl.free _ (stmt.point_mem_requests tgt hc (Or.inr hn)) _
      (h.point t' w hw old (Or.inl ho)) hne
  | false => exact (hkeeps.2 hmode c hc new hn t' hne).2 w hw old ho

theorem table_complete (s : RangeState) (t : TxnId) (stmt : RangeStatement) (l : RangeLocks) :
    (s.complete tgt t stmt l).table = s.table.applyChanges tgt stmt.changes := by
  unfold complete
  dsimp only
  split_ifs <;> rfl

theorem rows_complete (s : RangeState) (t : TxnId) (stmt : RangeStatement) (l : RangeLocks) :
    (s.complete tgt t stmt l).table.rows = applyRows s.table.rows stmt.changes := by
  rw [table_complete, rows_applyChanges]

/-- What a row is after a statement. -/
theorem complete_row_cases (hvalid : s.Valid tgt stmt) (l : RangeLocks) (rid : Rid) :
    (∃ c ∈ stmt.changes, c.rid = rid ∧ s.table.rows rid = c.old ∧
      (s.complete tgt t stmt l).table.rows rid = c.new) ∨
      (rid ∉ stmt.changes.map (·.rid) ∧ (s.complete tgt t stmt l).table.rows rid =
        s.table.rows rid) := by
  rw [rows_complete]
  by_cases hmem : rid ∈ stmt.changes.map (·.rid)
  · obtain ⟨c, hc, rfl⟩ := List.mem_map.1 hmem
    exact Or.inl ⟨c, hc, rfl, hvalid.checked.old c hc, applyRows_of_mem _ hvalid.checked.nodup hc⟩
  · exact Or.inr ⟨hmem, applyRows_of_notMem _ hmem⟩

/-- What the others have stays through a statement of `t`. -/
theorem Inv.complete_other (h : s.Inv tgt) (hvalid : s.Valid tgt stmt)
    (hl : RangeLocks.Acquired tgt t (stmt.requests tgt (s.modes t)) s.locks l)
    (hkeeps : s.KeepsOut tgt (.run t stmt)) {t' : TxnId} (hne : t' ≠ t) :
    (∀ r ∈ (s.txns t').scanned, ∀ rid rec, (s.complete tgt t stmt l).table.rows rid = some rec →
      tgt.inRange rec r = true → s.locks.Has tgt t' rid) ∧
    (∀ w ∈ (s.txns t').writeSet, (s.complete tgt t stmt l).table.rows w.rid = s.table.rows w.rid ∧
      w.rid ∉ stmt.changes.map (·.rid)) := by
  constructor
  · intro r hr rid rec hrow hin
    rcases complete_row_cases hvalid l rid with ⟨c, hc, rfl, -, hnew⟩ | ⟨-, hsame⟩
    · have := h.changes_outside hvalid hl hkeeps hne hr hc (Or.inr (hnew.symm.trans hrow))
      rw [hin] at this
      cases this
    · exact h.read t' r hr rid rec (hsame.symm.trans hrow) hin
  · intro w hw
    rcases complete_row_cases hvalid l w.rid with ⟨c, hc, hrid, -, -⟩ | ⟨hn, hsame⟩
    · refine absurd (hl.alone c.rid (stmt.exclusive_mem_requests tgt (s.modes t) hc) t' ?_) hne
      rw [hrid]
      exact h.written t' w hw
    · exact ⟨hsame, hn⟩

/-- The writes of the others can be undone after a statement of `t`. -/
theorem Inv.undoable_other (h : s.Inv tgt) (hvalid : s.Valid tgt stmt)
    (hl : RangeLocks.Acquired tgt t (stmt.requests tgt (s.modes t)) s.locks l)
    (hkeeps : s.KeepsOut tgt (.run t stmt)) {t' : TxnId} (hne : t' ≠ t) :
    Undoable tgt (s.complete tgt t stmt l).table.rows (s.txns t').writeSet := by
  refine (h.undoable t').congr (fun w hw => ((h.complete_other hvalid hl hkeeps hne).2 w hw).1)
    fun w hw old ho rid rec hrow hrow' => ?_
  rcases complete_row_cases hvalid l rid with ⟨c, hc, rfl, -, hnew⟩ | ⟨-, hsame⟩
  · exact h.new_key_apart hl hkeeps hne hw ho hc (hnew.symm.trans hrow)
  · exact absurd (hsame.symm.trans hrow) hrow'

/-- The index is exact after a statement. -/
theorem Inv.exact_complete (h : s.Inv tgt) (hvalid : s.Valid tgt stmt)
    (hkeeps : s.KeepsOut tgt (.run t stmt)) : (s.complete tgt t stmt l).table.Exact tgt := by
  rw [table_complete]
  exact h.exact.applyChanges (h.fits hvalid hkeeps)

theorem Inv.complete_auto (h : s.Inv tgt) (hvalid : s.Valid tgt stmt)
    (hl : RangeLocks.Acquired tgt t (stmt.requests tgt (s.modes t)) s.locks l)
    (hkeeps : s.KeepsOut tgt (.run t stmt)) (hmode : s.modes t = false) :
    (s.complete tgt t stmt l).Inv tgt := by
  have hexact := h.exact_complete (l := l) hvalid hkeeps
  have hundo (t' : TxnId) (hne : t' ≠ t) := h.undoable_other hvalid hl hkeeps hne
  have hother (t' : TxnId) (hne : t' ≠ t) := h.complete_other hvalid hl hkeeps hne
  have heq : s.complete tgt t stmt l = { s with
      table := s.table.applyChanges tgt stmt.changes, locks := l.release t .committed } := by
    unfold complete
    dsimp only
    rw [if_neg (by rw [hmode]; decide)]
  rw [heq] at hexact hundo hother ⊢
  have hne {t' : TxnId} {w : RowChange} (hw : w ∈ (s.txns t').writeSet) : t' ≠ t := by
    rintro rfl
    rw [(h.auto t' hmode).2] at hw
    cases hw
  have hne' {t' : TxnId} {r : GapRange} (hr : r ∈ (s.txns t').scanned) : t' ≠ t := by
    rintro rfl
    rw [(h.auto t' hmode).1] at hr
    cases hr
  refine ⟨hl.ok.release t _, hexact, fun t' => ?_, fun t' r hr => ?_,
    fun t' r hr rid rec hrow hin => ?_,
    fun t' w hw => ?_, fun t' w hw rec hrec => ?_, h.apart, h.auto⟩
  · by_cases ht : t' = t
    · subst ht
      change Undoable tgt _ (s.txns t').writeSet
      rw [(h.auto t' hmode).2]
      trivial
    · exact hundo t' ht
  · exact RangeLocks.mem_gaps_release.2 ⟨hne' hr, (hl.gaps _ _).2 (Or.inr (h.range t' r hr))⟩
  · have hhas := (hother t' (hne' hr)).1 r hr rid rec hrow hin
    exact (hl.ok.has_release _ t' rid).2 ⟨hne' hr, (hl.has t' rid).2 (Or.inr hhas)⟩
  · exact (hl.ok.has_release _ t' w.rid).2
      ⟨hne hw, (hl.has t' w.rid).2 (Or.inr (h.written t' w hw))⟩
  · have hsame := ((hother t' (hne hw)).2 w hw).1
    refine RangeLocks.mem_gaps_release.2 ⟨hne hw, (hl.gaps _ _).2 (Or.inr (h.point t' w hw rec ?_))⟩
    exact hrec.imp_right fun hrow => hsame.symm.trans hrow

/-! ### A statement of an explicit transaction -/

theorem locks_complete (hmode : s.modes t = true) : (s.complete tgt t stmt l).locks = l := by
  unfold complete
  dsimp only
  rw [if_pos hmode]

theorem modes_complete (hmode : s.modes t = true) : (s.complete tgt t stmt l).modes = s.modes := by
  unfold complete
  dsimp only
  rw [if_pos hmode]

theorem txns_complete_of_ne (hmode : s.modes t = true) {t' : TxnId} (ht : t' ≠ t) :
    (s.complete tgt t stmt l).txns t' = s.txns t' := by
  unfold complete
  dsimp only
  rw [if_pos hmode]
  exact Function.update_of_ne ht _ _

theorem txns_complete_self (hmode : s.modes t = true) : (s.complete tgt t stmt l).txns t =
    { scanned := stmt.range?.toList ++ (s.txns t).scanned
      writeSet := stmt.changes.reverse ++ (s.txns t).writeSet } := by
  unfold complete
  dsimp only
  rw [if_pos hmode]
  exact Function.update_self ..

theorem mem_scanned_complete (hmode : s.modes t = true) {r : GapRange} :
    r ∈ ((s.complete tgt t stmt l).txns t).scanned ↔
      stmt.range? = some r ∨ r ∈ (s.txns t).scanned := by
  rw [txns_complete_self hmode]
  simp

theorem mem_writeSet_complete (hmode : s.modes t = true) {w : RowChange} :
    w ∈ ((s.complete tgt t stmt l).txns t).writeSet ↔
      w ∈ stmt.changes ∨ w ∈ (s.txns t).writeSet := by
  rw [txns_complete_self hmode]
  simp

/-- The transaction has locked the records in the ranges that it has read. -/
theorem Inv.complete_read (h : s.Inv tgt) (hvalid : s.Valid tgt stmt)
    (hl : RangeLocks.Acquired tgt t (stmt.requests tgt (s.modes t)) s.locks l)
    (hmode : s.modes t = true) {r : GapRange}
    (hr : r ∈ ((s.complete tgt t stmt l).txns t).scanned) {rid : Rid} {rec : Bytes}
    (hrow : (s.complete tgt t stmt l).table.rows rid = some rec) (hin : tgt.inRange rec r = true) :
    l.Has tgt t rid := by
  rcases complete_row_cases (t := t) hvalid l rid with ⟨c, hc, rfl, -, -⟩ | ⟨-, hsame⟩
  · have hmem := stmt.exclusive_mem_requests tgt (s.modes t) hc
    exact (hl.has t c.rid).2 (Or.inl ⟨rfl, Or.inr hmem⟩)
  · rw [hsame] at hrow
    rcases (mem_scanned_complete hmode).1 hr with hr | hr
    · rw [hmode] at hl
      have hfound := (hvalid.found r hr rid).2 (h.exact.finds_iff.2 ⟨rec, hrow, hin⟩)
      exact (hl.has t rid).2 (Or.inl ⟨rfl, Or.inl ((stmt.scan_mem_requests tgt hr).2 rid hfound)⟩)
    · exact (hl.has t rid).2 (Or.inr (h.read t r hr rid rec hrow hin))

/-- The transaction has a point lock on the keys that it has written. -/
theorem Inv.complete_point (h : s.Inv tgt) (hvalid : s.Valid tgt stmt)
    (hl : RangeLocks.Acquired tgt t (stmt.requests tgt (s.modes t)) s.locks l)
    (hmode : s.modes t = true) {w : RowChange}
    (hw : w ∈ ((s.complete tgt t stmt l).txns t).writeSet) {rec : Bytes}
    (hrec : w.old = some rec ∨ (s.complete tgt t stmt l).table.rows w.rid = some rec) :
    (t, .point (tgt.keyOf rec)) ∈ l.gaps := by
  have hwritten {w : RowChange} (hw : w ∈ (s.txns t).writeSet) {rec : Bytes}
      (hrec : w.old = some rec ∨ s.table.rows w.rid = some rec) :
      (t, .point (tgt.keyOf rec)) ∈ l.gaps := (hl.gaps _ _).2 (Or.inr (h.point t w hw rec hrec))
  have hchanged {c : RowChange} (hc : c ∈ stmt.changes) {rec : Bytes}
      (hrec : c.old = some rec ∨ c.new = some rec) : (t, .point (tgt.keyOf rec)) ∈ l.gaps := by
    rw [hmode] at hl
    exact (hl.gaps _ _).2 (Or.inl ⟨rfl, stmt.point_mem_requests tgt hc hrec⟩)
  have hw := (mem_writeSet_complete hmode).1 hw
  rcases complete_row_cases (t := t) hvalid l w.rid with ⟨c, hc, -, -, hnew⟩ | ⟨hn, hsame⟩
  · rcases hrec with hrec | hrec
    · exact hw.elim (fun hc' => hchanged hc' (Or.inl hrec)) fun hw => hwritten hw (Or.inl hrec)
    · exact hchanged hc (Or.inr (hnew.symm.trans hrec))
  · rcases hw with hc' | hw
    · exact absurd (List.mem_map_of_mem hc') hn
    · exact hwritten hw (hrec.imp_right hsame.symm.trans)

/-- A record that another transaction has written is locked by it, and the statement has not written
it. -/
theorem Inv.complete_apart (h : s.Inv tgt) (hvalid : s.Valid tgt stmt)
    (hl : RangeLocks.Acquired tgt t (stmt.requests tgt (s.modes t)) s.locks l)
    (hkeeps : s.KeepsOut tgt (.run t stmt)) (hmode : s.modes t = true) {t' : TxnId} (ht : t' ≠ t)
    {w w' : RowChange} (hw : w ∈ (s.txns t').writeSet)
    (hw' : w' ∈ ((s.complete tgt t stmt l).txns t).writeSet) : w.rid ≠ w'.rid := by
  intro heq
  rcases (mem_writeSet_complete hmode).1 hw' with hc | hw'
  · refine ((h.complete_other hvalid hl hkeeps ht).2 w hw).2 ?_
    rw [heq]
    exact List.mem_map.2 ⟨w', hc, rfl⟩
  · exact ht (h.apart t' t w hw w' hw' heq)

theorem Inv.complete_explicit (h : s.Inv tgt) (hvalid : s.Valid tgt stmt)
    (hl : RangeLocks.Acquired tgt t (stmt.requests tgt (s.modes t)) s.locks l)
    (hkeeps : s.KeepsOut tgt (.run t stmt)) (hmode : s.modes t = true) :
    (s.complete tgt t stmt l).Inv tgt := by
  have hother (t' : TxnId) (hne : t' ≠ t) := h.complete_other hvalid hl hkeeps hne
  have hgap {t' : TxnId} {g : GapLock} (hg : (t', g) ∈ s.locks.gaps) : (t', g) ∈ l.gaps :=
    (hl.gaps t' g).2 (Or.inr hg)
  have hhas {t' : TxnId} {rid : Rid} (hr : s.locks.Has tgt t' rid) : l.Has tgt t' rid :=
    (hl.has t' rid).2 (Or.inr hr)
  have hlocks : (s.complete tgt t stmt l).locks = l := locks_complete hmode
  refine ⟨by rw [hlocks]; exact hl.ok, h.exact_complete hvalid hkeeps, fun t' => ?_,
    fun t' r hr => ?_, fun t' r hr rid rec hrow hin => ?_, fun t' w hw => ?_,
    fun t' w hw rec hrec => ?_, fun t₁ t₂ w₁ h₁ w₂ h₂ heq => ?_, fun t' ht' => ?_⟩
  · by_cases ht : t' = t
    · subst ht
      rw [txns_complete_self hmode, rows_complete]
      exact (h.undoable t').applyRows h.exact.distinct (h.fits hvalid hkeeps)
    · rw [txns_complete_of_ne hmode ht]
      exact h.undoable_other hvalid hl hkeeps ht
  · rw [hlocks]
    by_cases ht : t' = t
    · subst ht
      rcases (mem_scanned_complete hmode).1 hr with hr | hr
      · rw [hmode] at hl
        exact (hl.gaps _ _).2 (Or.inl ⟨rfl, (stmt.scan_mem_requests tgt hr).1⟩)
      · exact hgap (h.range t' r hr)
    · rw [txns_complete_of_ne hmode ht] at hr
      exact hgap (h.range t' r hr)
  · rw [hlocks]
    by_cases ht : t' = t
    · subst ht
      exact h.complete_read hvalid hl hmode hr hrow hin
    · rw [txns_complete_of_ne hmode ht] at hr
      exact hhas ((hother t' ht).1 r hr rid rec hrow hin)
  · rw [hlocks]
    by_cases ht : t' = t
    · subst ht
      rcases (mem_writeSet_complete hmode).1 hw with hc | hw
      · have hmem := stmt.exclusive_mem_requests tgt (s.modes t') hc
        exact (hl.has t' w.rid).2 (Or.inl ⟨rfl, Or.inr hmem⟩)
      · exact hhas (h.written t' w hw)
    · rw [txns_complete_of_ne hmode ht] at hw
      exact hhas (h.written t' w hw)
  · rw [hlocks]
    by_cases ht : t' = t
    · subst ht
      exact h.complete_point hvalid hl hmode hw hrec
    · rw [txns_complete_of_ne hmode ht] at hw
      refine hgap (h.point t' w hw rec (hrec.imp_right fun hrec => ?_))
      exact ((hother t' ht).2 w hw).1.symm.trans hrec
  · by_cases ht₁ : t₁ = t
    · by_cases ht₂ : t₂ = t
      · exact ht₁.trans ht₂.symm
      · rw [txns_complete_of_ne hmode ht₂] at h₂
        rw [ht₁] at h₁
        exact absurd heq.symm (h.complete_apart hvalid hl hkeeps hmode ht₂ h₂ h₁)
    · rw [txns_complete_of_ne hmode ht₁] at h₁
      by_cases ht₂ : t₂ = t
      · rw [ht₂] at h₂
        exact absurd heq (h.complete_apart hvalid hl hkeeps hmode ht₁ h₁ h₂)
      · rw [txns_complete_of_ne hmode ht₂] at h₂
        exact h.apart t₁ t₂ w₁ h₁ w₂ h₂ heq
  · rw [modes_complete hmode] at ht'
    have ht : t' ≠ t := by
      rintro rfl
      rw [hmode] at ht'
      cases ht'
    rw [txns_complete_of_ne hmode ht]
    exact h.auto t' ht'

/-- The end of a transaction that leaves the rows of the others alone. -/
theorem Inv.ends (h : s.Inv tgt) {table : RangeTable} {st : TransactionState} (hl : l.Ok tgt)
    (hexact : table.Exact tgt)
    (hgaps : ∀ t' g, t' ≠ t → (t', g) ∈ s.locks.gaps → (t', g) ∈ l.gaps)
    (hhas : ∀ t' rid, t' ≠ t → s.locks.Has tgt t' rid → l.Has tgt t' rid)
    (hread : ∀ t', t' ≠ t → ∀ r ∈ (s.txns t').scanned, ∀ rid rec, table.rows rid = some rec →
      tgt.inRange rec r = true → s.locks.Has tgt t' rid)
    (hwritten : ∀ t', t' ≠ t → ∀ w ∈ (s.txns t').writeSet, table.rows w.rid = s.table.rows w.rid)
    (hundo : ∀ t', t' ≠ t → Undoable tgt table.rows (s.txns t').writeSet) :
    Inv tgt { s with
      table := table, locks := l.release t st, txns := Function.update s.txns t {} } := by
  have hscanned {t' : TxnId} {r : GapRange} (hr : r ∈ (Function.update s.txns t {} t').scanned) :
      t' ≠ t ∧ r ∈ (s.txns t').scanned := by
    by_cases ht : t' = t
    · subst ht
      rw [Function.update_self] at hr
      cases hr
    · rw [Function.update_of_ne ht] at hr
      exact ⟨ht, hr⟩
  have hwrites {t' : TxnId} {w : RowChange} (hw : w ∈ (Function.update s.txns t {} t').writeSet) :
      t' ≠ t ∧ w ∈ (s.txns t').writeSet := by
    by_cases ht : t' = t
    · subst ht
      rw [Function.update_self] at hw
      cases hw
    · rw [Function.update_of_ne ht] at hw
      exact ⟨ht, hw⟩
  refine ⟨hl.release t st, hexact, fun t' => ?_, fun t' r hr => ?_,
    fun t' r hr rid rec hrow hin => ?_,
    fun t' w hw => ?_, fun t' w hw rec hrec => ?_, fun t₁ t₂ w₁ h₁ w₂ h₂ heq => ?_,
      fun t' ht' => ?_⟩
  · change Undoable tgt table.rows (Function.update s.txns t {} t').writeSet
    by_cases ht : t' = t
    · subst ht
      rw [Function.update_self]
      trivial
    · rw [Function.update_of_ne ht]
      exact hundo t' ht
  · obtain ⟨ht, hr⟩ := hscanned hr
    exact RangeLocks.mem_gaps_release.2 ⟨ht, hgaps _ _ ht (h.range t' r hr)⟩
  · obtain ⟨ht, hr⟩ := hscanned hr
    exact (hl.has_release st t' rid).2 ⟨ht, hhas _ _ ht (hread t' ht r hr rid rec hrow hin)⟩
  · obtain ⟨ht, hw⟩ := hwrites hw
    exact (hl.has_release st t' w.rid).2 ⟨ht, hhas _ _ ht (h.written t' w hw)⟩
  · obtain ⟨ht, hw⟩ := hwrites hw
    refine RangeLocks.mem_gaps_release.2 ⟨ht, hgaps _ _ ht (h.point t' w hw rec ?_)⟩
    exact hrec.imp_right fun hrow => (hwritten t' ht w hw).symm.trans hrow
  · exact h.apart t₁ t₂ w₁ (hwrites h₁).2 w₂ (hwrites h₂).2 heq
  · change (Function.update s.txns t {} t').scanned = [] ∧
      (Function.update s.txns t {} t').writeSet = []
    by_cases ht : t' = t
    · subst ht
      rw [Function.update_self]
      exact ⟨rfl, rfl⟩
    · rw [Function.update_of_ne ht]
      exact h.auto t' ht'

/-- Undoing a failed statement and the writes before it brings back the records, and the index is
exact with them. -/
theorem Inv.aborted (h : s.Inv tgt) {done : List RowChange} {rekeyed : Option RowChange}
    (hchecked : s.table.Checked tgt (done ++ rekeyed.toList))
    (hwhole : ∀ c ∈ rekeyed, c.old ≠ none ∧ c.new ≠ none) (hapart : KeysApart tgt done)
    (hkey : ∀ c ∈ rekeyed, c.old.map tgt.keyOf = c.new.map tgt.keyOf) :
    (s.aborted tgt t done rekeyed).Exact tgt ∧
      (s.aborted tgt t done rekeyed).rows = undoRows s.table.rows (s.txns t).writeSet := by
  have hnodup := hchecked.nodup
  rw [List.map_append, List.nodup_append] at hnodup
  have hdone : s.table.Checked tgt done := ⟨fun c hc => hchecked.old c (List.mem_append_left _ hc),
    hnodup.1, fun c hc => hchecked.unique c (List.mem_append_left _ hc)⟩
  have hfits := h.exact.fits hdone hapart
  have hrows := rows_applyChanges tgt s.table done
  have hexact := h.exact.applyChanges hfits
  have hundo : Undoable tgt (s.table.applyChanges tgt done).rows
      (done.reverse ++ (s.txns t).writeSet) := by
    rw [hrows]
    exact (h.undoable t).applyRows h.exact.distinct hfits
  have hback : undoRows (s.table.applyChanges tgt done).rows (done.reverse ++ (s.txns t).writeSet) =
      undoRows s.table.rows (s.txns t).writeSet := by
    rw [hrows, undoRows, List.foldl_append]
    exact congrArg (undoRows · (s.txns t).writeSet) (undoRows_applyRows hfits)
  cases rekeyed with
  | none =>
    obtain ⟨hexact', hrows'⟩ := hexact.undoWrites hundo
    exact ⟨hexact', hrows'.trans hback⟩
  | some c =>
    -- the record still has its old value when the entry is rewritten
    have hc : c ∈ done ++ (some c).toList := by simp
    have hold : (s.table.applyChanges tgt done).rows c.rid = c.old := by
      rw [hrows, applyRows_of_notMem _ fun hmem => ?_]
      · exact hchecked.old c hc
      · exact hnodup.2.2 c.rid hmem c.rid (by simp) rfl
    have hmoved := hexact.rekey hold (hkey c rfl)
    have hsame : ((s.table.applyChanges tgt done).rekey tgt c).undoWrite tgt c =
        (s.table.applyChanges tgt done).rekey tgt c := by
      obtain ⟨rid, old, new⟩ := c
      obtain ⟨old, rfl⟩ := Option.ne_none_iff_exists'.1 (hwhole _ rfl).1
      obtain ⟨new, rfl⟩ := Option.ne_none_iff_exists'.1 (hwhole _ rfl).2
      exact undoWrite_of_unwritten (by rw [rows_rekey]; exact hold)
    have haborted : s.aborted tgt t done (some c) =
        ((s.table.applyChanges tgt done).rekey tgt c).undoWrites tgt
          (done.reverse ++ (s.txns t).writeSet) :=
      congrArg (RangeTable.undoWrites tgt · (done.reverse ++ (s.txns t).writeSet)) hsame
    rw [← rows_rekey tgt _ c] at hundo hback
    obtain ⟨hexact', hrows'⟩ := hmoved.undoWrites hundo
    rw [haborted]
    exact ⟨hexact', hrows'.trans hback⟩

/-- Undoing the writes of `t` touches no record in a range of another transaction, and none that
another one has written. -/
theorem Inv.undo_other (h : s.Inv tgt) {t' : TxnId} (hne : t' ≠ t) :
    (∀ r ∈ (s.txns t').scanned, ∀ rid rec, tgt.inRange rec r = true →
      (undoRows s.table.rows (s.txns t).writeSet rid = some rec ↔ s.table.rows rid = some rec)) ∧
    (∀ w ∈ (s.txns t').writeSet, undoRows s.table.rows (s.txns t).writeSet w.rid =
      s.table.rows w.rid) := by
  constructor
  · intro r hr rid rec hin
    rcases undoRows_cases s.table.rows (s.txns t).writeSet rid with ⟨-, heq⟩ | ⟨w, hw, rfl, heq⟩
    · rw [heq]
    · have hout (rec' : Bytes) (hrec' : w.old = some rec' ∨ s.table.rows w.rid = some rec') :
          tgt.inRange rec' r = false :=
        h.not_inRange hne hr (h.point t w hw rec' hrec')
      rw [heq]
      refine iff_of_false (fun hrow => ?_) fun hrow => ?_
      · rw [hout rec (Or.inl hrow)] at hin
        cases hin
      · rw [hout rec (Or.inr hrow)] at hin
        cases hin
  · intro w hw
    rcases undoRows_cases s.table.rows (s.txns t).writeSet w.rid with ⟨-, heq⟩ | ⟨w', hw', hrid, -⟩
    · exact heq
    · exact absurd (h.apart t' t w hw w' hw' hrid.symm) hne

/-- The writes of the others can be undone after those of `t`. -/
theorem Inv.undoable_undo_other (h : s.Inv tgt) {t' : TxnId} (hne : t' ≠ t) :
    Undoable tgt (undoRows s.table.rows (s.txns t).writeSet) (s.txns t').writeSet := by
  refine (h.undoable t').congr (h.undo_other hne).2 fun w hw old ho rid rec hrow hrow' => ?_
  rcases undoRows_cases s.table.rows (s.txns t).writeSet rid with ⟨-, heq⟩ | ⟨w', hw', rfl, heq⟩
  · exact absurd (heq.symm.trans hrow) hrow'
  · exact h.ok.apart _ (h.point t w' hw' rec (Or.inl (heq.symm.trans hrow))) _
      (h.point t' w hw old (Or.inl ho)) hne.symm

/-- Every step that meets the condition keeps the invariant. -/
theorem inv_step (s : RangeState) (c : RangeCall) (s' : RangeState)
    (hs : Meeting (KeepsOut tgt) (Steps tgt) s c s') (h : s.Inv tgt) : s'.Inv tgt := by
  obtain ⟨hkeeps, hs⟩ := hs
  cases c with
  | run t stmt =>
    obtain ⟨hvalid, l, hl, rfl⟩ := hs
    have hacq := RangeLocks.acquired_of_acquireAll h.ok hl
    cases hmode : s.modes t with
    | true => exact h.complete_explicit hvalid hacq hkeeps hmode
    | false => exact h.complete_auto hvalid hacq hkeeps hmode
  | fail t reqs done rekeyed =>
    obtain ⟨hchecked, -, hwhole, l, hl, rfl⟩ := hs
    have hacq := RangeLocks.acquired_of_acquireAll h.ok hl
    obtain ⟨hexact, hrows⟩ := h.aborted (t := t) hchecked hwhole hkeeps.1 hkeeps.2
    refine h.ends hacq.ok hexact (fun t' g _ hg => (hacq.gaps t' g).2 (Or.inr hg))
      (fun t' rid _ hr => (hacq.has t' rid).2 (Or.inr hr)) (fun t' ht r hr rid rec hrow hin => ?_)
      (fun t' ht => ?_) fun t' ht => ?_
    · rw [hrows] at hrow
      exact h.read t' r hr rid rec (((h.undo_other ht).1 r hr rid rec hin).1 hrow) hin
    · rw [hrows]
      exact (h.undo_other ht).2
    · rw [hrows]
      exact h.undoable_undo_other ht
  | commit t =>
    obtain rfl := hs
    exact h.ends h.ok h.exact (fun _ _ _ hg => hg) (fun _ _ _ hr => hr)
      (fun t' _ r hr => h.read t' r hr) (fun _ _ _ _ => rfl) fun t' _ => h.undoable t'

/-! ## Reading again -/

/-- The step is one of the transaction `t` that may change what it has read or ends it. -/
def Touches (t : TxnId) : RangeCall → Prop
  | .run t' stmt => t' = t ∧ stmt.changes ≠ []
  | .fail t' _ _ _ => t' = t
  | .commit t' => t' = t

/-- The records in a range that `t` has read stay as they are, and the range stays read. -/
theorem Inv.reads_again (h : s.Inv tgt) {c : RangeCall}
    (hs : Meeting (KeepsOut tgt) (Steps tgt) s c s')
    (hc : ¬ Touches t c) {r : GapRange} (hr : r ∈ (s.txns t).scanned) :
    r ∈ (s'.txns t).scanned ∧ ∀ rid rec, tgt.inRange rec r = true →
      (s'.table.rows rid = some rec ↔ s.table.rows rid = some rec) := by
  obtain ⟨hkeeps, hs⟩ := hs
  cases c with
  | run t' stmt =>
    obtain ⟨hvalid, l, hl, rfl⟩ := hs
    have hacq := RangeLocks.acquired_of_acquireAll h.ok hl
    constructor
    · unfold complete
      dsimp only
      split_ifs
      · by_cases ht : t = t'
        · subst ht
          simp [hr]
        · simpa [Function.update_of_ne ht] using hr
      · exact hr
    · intro rid rec hin
      rcases complete_row_cases (t := t') hvalid l rid with ⟨c, hc', rfl, hold, hnew⟩ | ⟨-, hsame⟩
      · have ht : t ≠ t' := by
          rintro rfl
          exact hc ⟨rfl, List.ne_nil_of_mem hc'⟩
        have hout (hrec : c.old = some rec ∨ c.new = some rec) : False := by
          have := h.changes_outside hvalid hacq hkeeps ht hr hc' hrec
          rw [hin] at this
          cases this
        rw [hold, hnew]
        exact iff_of_false (fun hn => hout (Or.inr hn)) fun ho => hout (Or.inl ho)
      · rw [hsame]
  | fail t' reqs done rekeyed =>
    obtain ⟨hchecked, -, hwhole, l, hl, rfl⟩ := hs
    have ht : t ≠ t' := fun heq => hc heq.symm
    obtain ⟨-, hrows⟩ := h.aborted (t := t') hchecked hwhole hkeeps.1 hkeeps.2
    refine ⟨?_, ?_⟩
    · simpa [Function.update_of_ne ht] using hr
    · dsimp only
      rw [hrows]
      exact (h.undo_other ht).1 r hr
  | commit t' =>
    obtain rfl := hs
    have ht : t ≠ t' := fun heq => hc heq.symm
    refine ⟨?_, fun _ _ _ => Iff.rfl⟩
    simpa [Function.update_of_ne ht] using hr

/-- The table before the transactions of a run. -/
def start (table : RangeTable) (modes : TxnId → Bool) : RangeState :=
  { table := table, modes := modes }

theorem inv_start {table : RangeTable} (h : table.Exact tgt) (modes : TxnId → Bool) :
    (start table modes).Inv tgt where
  ok := ⟨fun _ _ => recordOk_empty, lockSetsExact_empty, by simp [start]⟩
  exact := h
  undoable := by simp [start, Undoable]
  range := by simp [start]
  read := by simp [start]
  written := by simp [start]
  point := by simp [start]
  apart := by simp [start]
  auto := by simp [start]

/-! ## Playing a run -/

/-- The state after a call whose requests are granted. -/
def next (tgt : RangeTarget) (s : RangeState) : RangeCall → RangeState
  | .run t stmt =>
    s.complete tgt t stmt ((s.locks.acquireAll tgt t (stmt.requests tgt (s.modes t))).getD s.locks)
  | .fail t reqs done rekeyed => { s with
      table := s.aborted tgt t done rekeyed
      locks := ((s.locks.acquireAll tgt t reqs).getD s.locks).release t .aborted
      txns := Function.update s.txns t {} }
  | .commit t => { s with
      locks := s.locks.release t .committed
      txns := Function.update s.txns t {} }

theorem steps_run_next {stmt : RangeStatement} (hvalid : s.Valid tgt stmt)
    (hgranted : (s.locks.acquireAll tgt t (stmt.requests tgt (s.modes t))).isSome = true) :
    Steps tgt s (.run t stmt) (s.next tgt (.run t stmt)) := by
  obtain ⟨l, hl⟩ := Option.isSome_iff_exists.1 hgranted
  exact ⟨hvalid, l, hl, by rw [next, hl, Option.getD_some]⟩

theorem steps_fail_next {reqs : List RangeRequest} {done : List RowChange}
    {rekeyed : Option RowChange}
    (hchecked : s.table.Checked tgt (done ++ rekeyed.toList))
    (hlocked : ∀ c ∈ done, .exclusiveRecord c.rid ∈ reqs)
    (hwhole : ∀ c ∈ rekeyed, c.old ≠ none ∧ c.new ≠ none)
    (hgranted : (s.locks.acquireAll tgt t reqs).isSome = true) :
    Steps tgt s (.fail t reqs done rekeyed) (s.next tgt (.fail t reqs done rekeyed)) := by
  obtain ⟨l, hl⟩ := Option.isSome_iff_exists.1 hgranted
  exact ⟨hchecked, hlocked, hwhole, l, hl, by rw [next, hl, Option.getD_some]⟩

end RangeState

open RangeState

/-- Index range reads of `t` are repeatable in the runs of `step` from a table with an exact index:
once `t` has read a range and until it ends, no statement of another transaction that completes has
a record of the range before or after its changes, and as long as `t` changes nothing itself,
scanning the range again gives the same records. -/
def RangeReadsRepeatable (tgt : RangeTarget) (step : RangeState → RangeCall → RangeState → Prop)
    (t : TxnId) : Prop :=
  ∀ (table : RangeTable) (modes : TxnId → Bool) (cs : List RangeCall) (s : RangeState),
    table.Exact tgt → Run step (start table modes) cs s → ∀ r ∈ (s.txns t).scanned,
    (∀ t' stmt s', t' ≠ t → step s (.run t' stmt) s' → ∀ c ∈ stmt.changes, ∀ rec,
      c.old = some rec ∨ c.new = some rec → tgt.inRange rec r = false) ∧
    ∀ cs' s', Run step s cs' s' → (∀ c ∈ cs', ¬ Touches t c) → ∀ rid rec,
      (s'.table.Gives tgt r rid rec ↔ s.table.Gives tgt r rid rec)

/-- A table with an index on its `INT` column. -/
def intRangeTarget : RangeTarget := ⟨⟨"t", [⟨"t", "a", .int, 4, 0⟩]⟩, 3⟩

/-- Two records, with the keys 6 and 12. -/
def intTable : RangeTable where
  rows rid :=
    if rid = ⟨1, 0⟩ then some [6, 0, 0, 0]
    else if rid = ⟨1, 1⟩ then some [12, 0, 0, 0] else none
  entries := [([6, 0, 0, 0], ⟨1, 0⟩), ([12, 0, 0, 0], ⟨1, 1⟩)]

theorem exact_intTable : intTable.Exact intRangeTarget := by
  have hsome {rid : Rid} {rec : Bytes} (h : intTable.rows rid = some rec) :
      (rid = ⟨1, 0⟩ ∧ rec = [6, 0, 0, 0]) ∨ (rid = ⟨1, 1⟩ ∧ rec = [12, 0, 0, 0]) := by
    simp only [intTable] at h
    split_ifs at h with h₀ h₁
    · exact Or.inl ⟨h₀, (Option.some.inj h).symm⟩
    · exact Or.inr ⟨h₁, (Option.some.inj h).symm⟩
  constructor
  · intro key rid
    constructor
    · intro h
      simp only [intTable, List.mem_cons, Prod.mk.injEq, List.not_mem_nil, or_false] at h
      rcases h with ⟨rfl, rfl⟩ | ⟨rfl, rfl⟩
      · exact ⟨_, rfl, rfl⟩
      · exact ⟨_, rfl, rfl⟩
    · rintro ⟨rec, hrow, rfl⟩
      rcases hsome hrow with ⟨rfl, rfl⟩ | ⟨rfl, rfl⟩ <;> decide
  · intro rid rec hrow rid' rec' hrow' hne
    rcases hsome hrow with ⟨rfl, rfl⟩ | ⟨rfl, rfl⟩ <;>
      rcases hsome hrow' with ⟨rfl, rfl⟩ | ⟨rfl, rfl⟩
    · exact absurd rfl hne
    · decide
    · decide
    · exact absurd rfl hne

/-- The range from 5 to 9. -/
def from5To9 : GapRange := ⟨[5, 0, 0, 0], [9, 0, 0, 0], false, false⟩

/-- Transaction 1 has read the range. -/
def afterScan : RangeState :=
  (start intTable fun t => t == 1 || t == 3).next intRangeTarget
    (.run 1 (.select (.index from5To9) [⟨1, 0⟩]))

end Rmdb
