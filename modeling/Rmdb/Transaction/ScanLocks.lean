import Rmdb.Transaction.LockSets

/-!
# Table scans and record writers

A sequential scan of an explicit transaction locks its table in shared mode, and a writer locks each
record it changes in exclusive mode, without a lock on the table.  `lock_on_record` looks at the
table's queue, so a writer is refused while another transaction scans.  `lock_on_table` does not
look at the record queues: a scan is let in while another transaction has changed records of the
table.  Up to that case the two locks exclude each other.
-/

namespace Rmdb

/-- The lock manager, and the records that were exclusively locked by transactions which have not
ended yet: where their uncommitted inserts, updates and deletes are. -/
structure ScanState where
  locks : LockManager := {}
  changed : List (TxnId × ℤ × Rid) := []

/-- The calls of a run: `lock_shared_on_table` of a sequential scan, and the record locks, commits
and aborts. -/
inductive ScanCall
  | lockTable (t : TxnId) (fd : ℤ)
  | other (c : LockCall)
deriving DecidableEq, Repr

namespace ScanState

def exec (s : ScanState) : ScanCall → ScanState
  | .lockTable t fd => { s with locks := (s.locks.lockSharedOnTable t fd).1 }
  | .other c =>
    { locks := s.locks.exec c
      changed := match c with
        | .lockShared _ _ _ => s.changed
        | .lockExclusive t rid fd =>
          if (s.locks.lockExclusiveOnRecord t rid fd).2 = .ok true then (t, fd, rid) :: s.changed
          else s.changed
        | .commit t => s.changed.filter (·.1 ≠ t)
        | .abort t => s.changed.filter (·.1 ≠ t) }

/-- `t` holds a shared lock on the table. -/
def ScansTable (s : ScanState) (t : TxnId) (fd : ℤ) : Prop :=
  ∃ req ∈ (s.locks.queue (.table fd)).requestQueue,
    req.txnId = t ∧ req.granted = true ∧ req.lockMode = .shared

/-- No transaction scans a table in which another one holds a record exclusively or has changed a
record. -/
def ScansExcludeWriters (s : ScanState) : Prop :=
  ∀ t t' fd rid, t ≠ t' → s.ScansTable t fd →
    ¬ s.locks.HoldsExclusive t' rid fd ∧ (t', fd, rid) ∉ s.changed

/-- The call is not a table lock on a table that another transaction has changed. -/
def FreeOfWriters (s : ScanState) : ScanCall → Prop
  | .lockTable t fd => ∀ c ∈ s.changed, c.2.1 = fd → c.1 = t
  | .other _ => True

end ScanState

open ScanState

def scanStep (s : ScanState) (c : ScanCall) (s' : ScanState) : Prop := s' = s.exec c

/-! ## The queue of a scanned table -/

/-- All requests are granted and shared, and the group mode says so. -/
structure ScanQueue (q : LockRequestQueue) : Prop where
  granted : ∀ req ∈ q.requestQueue, req.granted = true
  shared : ∀ req ∈ q.requestQueue, req.lockMode = .shared
  group : q.groupLockMode = if q.requestQueue = [] then .nonLock else .S

theorem groupLockModeLoop_shared {rs : List LockRequest}
    (h : ∀ req ∈ rs, req.granted = true ∧ req.lockMode = .shared) :
    groupLockModeLoop .nonLock rs = if rs = [] then .nonLock else .S := by
  have hS : ∀ rs : List LockRequest, (∀ req ∈ rs, req.granted = true ∧ req.lockMode = .shared) →
      groupLockModeLoop .S rs = .S := by
    intro rs
    induction rs with
    | nil => exact fun _ => rfl
    | cons req rs ih =>
      intro h
      rw [List.forall_mem_cons] at h
      rw [groupLockModeLoop, h.1.1, h.1.2]
      exact ih h.2
  cases rs with
  | nil => rfl
  | cons req rs =>
    rw [List.forall_mem_cons] at h
    rw [groupLockModeLoop, h.1.1, h.1.2]
    exact hS rs h.2

theorem scanQueue_update {rs : List LockRequest} (g : GroupLockMode)
    (h : ∀ req ∈ rs, req.granted = true ∧ req.lockMode = .shared) :
    ScanQueue (LockRequestQueue.updateGroupLockMode ⟨rs, g⟩) :=
  ⟨fun req hr => (h req hr).1, fun req hr => (h req hr).2, groupLockModeLoop_shared h⟩

theorem ScanQueue.eraseP {q : LockRequestQueue} (h : ScanQueue q) (p : LockRequest → Bool) :
    ScanQueue
    (LockRequestQueue.updateGroupLockMode { q with requestQueue := q.requestQueue.eraseP p }) :=
  scanQueue_update _ fun req hr =>
    ⟨h.granted req (List.mem_of_mem_eraseP hr), h.shared req (List.mem_of_mem_eraseP hr)⟩

/-- Changing requests to shared ones keeps a queue of shared requests as it is. -/
theorem updateFirst_shared {p : LockRequest → Bool} {rs : List LockRequest}
    (h : ∀ req ∈ rs, req.lockMode = .shared) :
    updateFirst p (fun req => { req with lockMode := combineTableLock req.lockMode .shared }) rs =
    rs := by
  induction rs with
  | nil => rfl
  | cons req rs ih =>
    rw [List.forall_mem_cons] at h
    rw [updateFirst, ih h.2]
    obtain ⟨t, mode, granted⟩ := req
    obtain rfl : mode = .shared := h.1
    exact ite_self _

/-- A shared request on a table with shared requests only is granted. -/
theorem ScanQueue.requestTable {q : LockRequestQueue} (h : ScanQueue q) (t : TxnId) :
    ∃ q', Rmdb.requestTable t .shared q = .ok q' ∧ ScanQueue q' ∧
      ∀ t', t' ∈ q'.requestQueue.map (·.txnId) ↔ t' = t ∨ t' ∈ q.requestQueue.map (·.txnId) := by
  have hall : ∀ req ∈ q.requestQueue, req.granted = true ∧ req.lockMode = .shared :=
    fun req hr => ⟨h.granted req hr, h.shared req hr⟩
  have hown (req : LockRequest) (hr : req ∈ q.requestQueue) :
      (req.txnId == t && req.granted) = (req.txnId == t) := by
    rw [h.granted req hr, Bool.and_true]
  unfold Rmdb.requestTable
  dsimp only
  split
  · rename_i hany
    obtain ⟨req, hr, hreq⟩ := List.any_eq_true.1 hany
    rw [hown req hr] at hreq
    rw [if_neg (by decide), updateFirst_shared h.shared]
    refine ⟨_, rfl, scanQueue_update _ hall, fun t' => ⟨Or.inr, ?_⟩⟩
    rintro (rfl | hmem)
    · exact List.mem_map.2 ⟨req, hr, beq_iff_eq.1 hreq⟩
    · exact hmem
  · rename_i hany
    have hothers (req : LockRequest) (hr : req ∈ q.requestQueue) : req.txnId ≠ t := by
      intro heq
      refine hany (List.any_eq_true.2 ⟨req, hr, ?_⟩)
      rw [hown req hr]
      exact beq_iff_eq.2 heq
    have hfree : (q.requestQueue.any fun req => req.txnId != t &&
        (!req.granted || tableConflict .shared q.groupLockMode)) = false := by
      refine List.any_eq_false.2 fun req hr => ?_
      rw [h.granted req hr, h.group, if_neg (List.ne_nil_of_mem hr)]
      simp [tableConflict]
    have hmine : (q.requestQueue.any fun req => req.txnId == t) = false :=
      List.any_eq_false.2 fun req hr => by simp [hothers req hr]
    rw [if_neg (by rw [hfree]; decide), if_neg (by rw [hmine]; decide)]
    refine ⟨_, rfl, scanQueue_update _ fun req hr => ?_, fun t' => ?_⟩
    · rcases List.mem_append.1 hr with hr | hr
      · exact hall req hr
      · rw [List.mem_singleton.1 hr]
        exact ⟨rfl, rfl⟩
    · simp [LockRequestQueue.updateGroupLockMode, or_comm]

/-- An exclusive record lock is refused while another transaction scans the table. -/
theorem ScanQueue.blocks {q : LockRequestQueue} (h : ScanQueue q) {t : TxnId} {req : LockRequest}
    (hr : req ∈ q.requestQueue) (hne : req.txnId ≠ t) :
    tableBlocksRecord t .exclusive q = true := by
  have hother : q.grantedToOther t = true :=
    List.any_eq_true.2 ⟨req, hr, by simp [h.granted req hr, hne]⟩
  simp [tableBlocksRecord, hother, h.group, List.ne_nil_of_mem hr]

/-! ## Where exclusive record locks come from -/

theorem of_mem_updateFirst {p : LockRequest → Bool} {f : LockRequest → LockRequest}
    {rs : List LockRequest} {req : LockRequest} (h : req ∈ updateFirst p f rs) :
    req ∈ rs ∨ ∃ old, p old = true ∧ req = f old := by
  induction rs with
  | nil => exact Or.inl h
  | cons r rs ih =>
    rw [updateFirst] at h
    split_ifs at h with hp
    · rcases List.mem_cons.1 h with rfl | h
      · exact Or.inr ⟨r, hp, rfl⟩
      · exact Or.inl (List.mem_cons_of_mem _ h)
    · rcases List.mem_cons.1 h with rfl | h
      · exact Or.inl List.mem_cons_self
      · exact (ih h).imp_left (List.mem_cons_of_mem _)

theorem Granted.of_mem {t : TxnId} {mode : LockMode} {q q' : LockRequestQueue}
    (h : Granted t mode q q') {req : LockRequest} (hr : req ∈ q'.requestQueue) :
    req ∈ q.requestQueue ∨ (req.txnId = t ∧ req.lockMode = mode) := by
  cases h with
  | held _ _ _ _ => exact Or.inl hr
  | upgrade p hp _ _ _ hx _ =>
    refine (of_mem_updateFirst hr).imp_right ?_
    rintro ⟨old, hold, rfl⟩
    exact ⟨(hp old hold).1, hx.symm⟩
  | rewrite p hp _ _ _ _ _ _ =>
    refine (of_mem_updateFirst hr).imp_right ?_
    rintro ⟨old, hold, rfl⟩
    exact ⟨hp old hold, rfl⟩
  | append _ _ _ =>
    refine (List.mem_append.1 hr).imp_right fun hr => ?_
    rw [List.mem_singleton.1 hr]
    exact ⟨rfl, rfl⟩

/-- An exclusive lock after a record lock request was there before, or is the one granted. -/
theorem holdsExclusive_of_lockOnRecord {m : LockManager} {t t' : TxnId} {rid rid' : Rid}
    {fd fd' : ℤ}
    {mode : LockMode} (h : (m.lockOnRecord t rid fd mode).1.HoldsExclusive t' rid' fd') :
    m.HoldsExclusive t' rid' fd' ∨
      ((m.lockOnRecord t rid fd mode).2 = .ok true ∧ mode = .exclusive ∧
        t' = t ∧ fd' = fd ∧ rid' = rid) := by
  obtain ⟨req, hr, rfl, hg, hx⟩ := h
  rcases lockOnRecord_cases m t rid fd mode with ⟨-, hq⟩ | ⟨hok, hne, hgr⟩
  · rw [hq] at hr
    exact Or.inl ⟨req, hr, rfl, hg, hx⟩
  · by_cases hid : LockDataId.record fd' rid' = .record fd rid
    · obtain ⟨rfl, rfl⟩ := LockDataId.record.inj hid
      rcases hgr.of_mem hr with hr | ⟨ht, hm⟩
      · exact Or.inl ⟨req, hr, rfl, hg, hx⟩
      · exact Or.inr ⟨hok, hm.symm.trans hx, ht, rfl, rfl⟩
    · rw [hne _ hid] at hr
      exact Or.inl ⟨req, hr, rfl, hg, hx⟩

theorem lockOnRecord_queue_table (m : LockManager) (t : TxnId) (rid : Rid) (fd fd' : ℤ)
    (mode : LockMode) :
    (m.lockOnRecord t rid fd mode).1.queue (.table fd') = m.queue (.table fd') := by
  rcases lockOnRecord_cases m t rid fd mode with ⟨-, hq⟩ | ⟨-, hne, -⟩
  · exact hq _
  · exact hne _ (by simp)

/-! ## Transactions between calls are not shrinking -/

theorem grant_state_ne {m : LockManager} (h : ∀ t, (m.txns t).state ≠ .shrinking) (t : TxnId)
    (id : LockDataId) (q : LockRequestQueue) (t' : TxnId) :
    (((m.setState t .growing).grant t id q).txns t').state ≠ .shrinking := by
  rcases eq_or_ne t' t with rfl | hne
  · simp [LockManager.grant, LockManager.insertLock, LockManager.setQueue, LockManager.setState]
  · simp [LockManager.grant, LockManager.insertLock, LockManager.setQueue,
      LockManager.setState, hne, h t']

theorem setState_state_ne {m : LockManager} (t : TxnId)
    (h : ∀ t', t' ≠ t → (m.txns t').state ≠ .shrinking)
    (st : TransactionState) (hst : st ≠ .shrinking) (t' : TxnId) :
    ((m.setState t st).txns t').state ≠ .shrinking := by
  rcases eq_or_ne t' t with rfl | hne
  · simpa [LockManager.setState] using hst
  · simpa [LockManager.setState, hne] using h t' hne

theorem lockOnRecord_state_ne {m : LockManager} (h : ∀ t, (m.txns t).state ≠ .shrinking) (t : TxnId)
    (rid : Rid) (fd : ℤ) (mode : LockMode) (t' : TxnId) :
    ((m.lockOnRecord t rid fd mode).1.txns t').state ≠ .shrinking := by
  have hset := setState_state_ne t (fun t' _ => h t') .growing (by decide)
  unfold LockManager.lockOnRecord
  dsimp only
  split
  · exact h t'
  · split
    · exact hset t'
    · split
      · exact hset t'
      · exact grant_state_ne h t _ _ t'

/-! ## The invariant of a run -/

structure ScanInv (s : ScanState) : Prop where
  tables : ∀ fd, ScanQueue (s.locks.queue (.table fd))
  changed : ∀ t rid fd, s.locks.HoldsExclusive t rid fd → (t, fd, rid) ∈ s.changed
  states : ∀ t, (s.locks.txns t).state ≠ .shrinking
  sets : LockSetsExact s.locks

/-- The transactions that scan a table. -/
theorem ScanInv.scansTable_iff {s : ScanState} (h : ScanInv s) (t : TxnId) (fd : ℤ) :
    s.ScansTable t fd ↔ t ∈ (s.locks.queue (.table fd)).requestQueue.map (·.txnId) := by
  rw [List.mem_map]
  refine ⟨fun ⟨req, hr, ht, _⟩ => ⟨req, hr, ht⟩, fun ⟨req, hr, ht⟩ => ⟨req, hr, ht, ?_⟩⟩
  exact ⟨(h.tables fd).granted req hr, (h.tables fd).shared req hr⟩

/-- The locks exclude each other when no scanned table is changed. -/
theorem ScanInv.excludes_iff {s : ScanState} (h : ScanInv s) :
    s.ScansExcludeWriters ↔ ∀ t t' fd rid, t ≠ t' → s.ScansTable t fd →
    (t', fd, rid) ∉ s.changed := by
  refine ⟨fun hs t t' fd rid hne ht => (hs t t' fd rid hne ht).2, fun hs t t' fd rid hne ht => ?_⟩
  have hnot := hs t t' fd rid hne ht
  exact ⟨fun hx => hnot (h.changed t' rid fd hx), hnot⟩

theorem scanInv_empty : ScanInv {} where
  tables _ :=
    ⟨by simp [LockManager.queue], by simp [LockManager.queue], by simp [LockManager.queue]⟩
  changed := by simp [LockManager.HoldsExclusive, LockManager.queue]
  states _ := by simp
  sets := lockSetsExact_empty

/-- A table lock of a scan is granted, and changes nothing but the queue of the table. -/
theorem ScanInv.lockTable {s : ScanState} (h : ScanInv s) (t : TxnId) (fd : ℤ) :
    ScanInv (s.exec (.lockTable t fd)) ∧
      ∀ t' fd', (s.exec (.lockTable t fd)).ScansTable t' fd' ↔ (t' = t ∧ fd' = fd) ∨
      s.ScansTable t' fd' := by
  obtain ⟨q, hq, hscan, hmem⟩ := (h.tables fd).requestTable t
  have heq : (s.locks.lockSharedOnTable t fd).1 = (s.locks.setState t .growing).grant t
      (.table fd) q := by
    unfold LockManager.lockSharedOnTable LockManager.lockOnTable
    dsimp only
    rw [if_neg (h.states t), LockManager.queue_setState, hq]
  have hqueue (id : LockDataId) (hid : id ≠ .table fd) :
      (s.exec (.lockTable t fd)).locks.queue id = s.locks.queue id := by
    change (s.locks.lockSharedOnTable t fd).1.queue id = _
    rw [heq, LockManager.queue_grant_of_ne _ _ _ _ _ hid, LockManager.queue_setState]
  have hself : (s.exec (.lockTable t fd)).locks.queue (.table fd) = q := by
    change (s.locks.lockSharedOnTable t fd).1.queue _ = _
    rw [heq, LockManager.queue_grant_self]
  have hinv : ScanInv (s.exec (.lockTable t fd)) := by
    refine ⟨fun fd' => ?_, fun t' rid fd' hx => ?_, fun t' => ?_,
      (lockOnTable_outcome _ t fd .shared).elim h.sets.same h.sets.granted⟩
    · by_cases hfd : fd' = fd
      · subst hfd
        rw [hself]
        exact hscan
      · rw [hqueue _ (by simpa using hfd)]
        exact h.tables fd'
    · refine h.changed t' rid fd' ?_
      unfold LockManager.HoldsExclusive at hx ⊢
      rwa [hqueue _ (by simp)] at hx
    · change ((s.locks.lockSharedOnTable t fd).1.txns t').state ≠ _
      rw [heq]
      exact grant_state_ne h.states t _ q t'
  refine ⟨hinv, fun t' fd' => ?_⟩
  rw [hinv.scansTable_iff, h.scansTable_iff]
  by_cases hfd : fd' = fd
  · subst hfd
    rw [hself, hmem]
    simp
  · rw [hqueue _ (by simpa using hfd)]
    simp [hfd]

/-- A record lock request keeps the table queues, and what it adds to the changes is not in a table
that another transaction scans. -/
theorem ScanInv.lockRecord {s s' : ScanState} (h : ScanInv s) {t : TxnId} {rid : Rid} {fd : ℤ}
    {mode : LockMode} (hlocks : s'.locks = (s.locks.lockOnRecord t rid fd mode).1)
    (hchanged : s'.changed =
      if mode = .exclusive ∧ (s.locks.lockOnRecord t rid fd mode).2 = .ok true
      then (t, fd, rid) :: s.changed else s.changed) :
    ScanInv s' ∧ (s.ScansExcludeWriters → s'.ScansExcludeWriters) := by
  have htable (fd' : ℤ) : s'.locks.queue (.table fd') = s.locks.queue (.table fd') := by
    rw [hlocks]
    exact lockOnRecord_queue_table _ _ _ _ _ _
  have hmem (c : TxnId × ℤ × Rid) : c ∈ s'.changed ↔ (mode = .exclusive ∧
      (s.locks.lockOnRecord t rid fd mode).2 = .ok true ∧ c = (t, fd, rid)) ∨ c ∈ s.changed := by
    rw [hchanged]
    split_ifs with hg
    · obtain ⟨rfl, hok⟩ := hg
      simp [hok]
    · rw [← and_assoc]
      simp [hg]
  have hinv : ScanInv s' := by
    refine ⟨fun fd' => ?_, fun t' rid' fd' hx => ?_, fun t' => ?_, ?_⟩
    · rw [htable]
      exact h.tables fd'
    · rw [hlocks] at hx
      rw [hmem]
      rcases holdsExclusive_of_lockOnRecord hx with hx | ⟨hok, hm, rfl, rfl, rfl⟩
      · exact Or.inr (h.changed t' rid' fd' hx)
      · exact Or.inl ⟨hm, hok, rfl⟩
    · rw [hlocks]
      exact lockOnRecord_state_ne h.states t rid fd mode t'
    · rw [hlocks]
      exact (lockOnRecord_outcome _ t rid fd mode).elim h.sets.same h.sets.granted
  refine ⟨hinv, fun hs => hinv.excludes_iff.2 fun t₁ t₂ fd' rid' hne hscan hc => ?_⟩
  rw [hinv.scansTable_iff, htable, ← h.scansTable_iff] at hscan
  rcases (hmem _).1 hc with ⟨rfl, hok, heq⟩ | hc
  · obtain ⟨rfl, rfl, rfl⟩ : t₂ = t ∧ fd' = fd ∧ rid' = rid := by simpa using heq
    -- the scan of the other transaction would have refused the record lock
    obtain ⟨req, hr, rfl, -⟩ := hscan
    unfold LockManager.lockOnRecord at hok
    dsimp only at hok
    rw [if_neg (h.states _), LockManager.queue_setState,
      if_pos ((h.tables fd').blocks hr hne)] at hok
    cases hok
  · exact (hs t₁ t₂ fd' rid' hne hscan).2 hc

/-- The end of a transaction keeps the other scans, and takes its changes away. -/
theorem ScanInv.ends {s s' : ScanState} (h : ScanInv s) {t : TxnId} (st : TransactionState)
    (hst : st ≠ .shrinking) (hlocks : s'.locks = (s.locks.releaseAllLocks t).setState t st)
    (hchanged : s'.changed = s.changed.filter (·.1 ≠ t)) :
    ScanInv s' ∧ (s.ScansExcludeWriters → s'.ScansExcludeWriters) := by
  have hreq (id : LockDataId) : (s'.locks.queue id).requestQueue =
      withoutRequests t (s.locks.queue id).requestQueue := by
    rw [hlocks, LockManager.queue_setState]
    exact h.sets.release_requests t id
  have hinv : ScanInv s' := by
    refine ⟨fun fd => ?_, fun t' rid fd hx => ?_, fun t' => ?_, ?_⟩
    · rw [hlocks, LockManager.queue_setState]
      exact releaseAllLocks_queue _ t _ (fun q hq => hq.eraseP _) (h.tables fd)
    · obtain ⟨req, hr, rfl, hg, hx⟩ := hx
      rw [hreq, withoutRequests, List.mem_filter] at hr
      rw [hchanged, List.mem_filter]
      refine ⟨h.changed _ rid fd ⟨req, hr.1, rfl, hg, hx⟩, ?_⟩
      simpa using hr.2
    · rw [hlocks]
      refine setState_state_ne t (fun t₁ hne => ?_) st hst t'
      rw [releaseAllLocks_txns_of_ne _ hne]
      exact h.states t₁
    · rw [hlocks]
      exact (h.sets.release t).same (sameLocks_setState _ t st)
  refine ⟨hinv, fun hs => hinv.excludes_iff.2 fun t₁ t₂ fd rid hne hscan hc => ?_⟩
  rw [hchanged, List.mem_filter] at hc
  refine (hs t₁ t₂ fd rid hne ?_).2 hc.1
  obtain ⟨req, hr, hrest⟩ := hscan
  rw [hreq] at hr
  exact ⟨req, List.mem_of_mem_filter hr, hrest⟩

/-- Every call but a table lock keeps the exclusion. -/
theorem ScanInv.other {s : ScanState} (h : ScanInv s) (c : LockCall) :
    ScanInv (s.exec (.other c)) ∧
      (s.ScansExcludeWriters → (s.exec (.other c)).ScansExcludeWriters) := by
  cases c with
  | lockShared t rid fd => exact h.lockRecord rfl (by simp [exec])
  | lockExclusive t rid fd =>
    refine h.lockRecord rfl (if_congr ?_ rfl rfl)
    exact ⟨fun hok => ⟨rfl, hok⟩, fun hok => hok.2⟩
  | commit t => exact h.ends .committed (by decide) rfl rfl
  | abort t => exact h.ends .aborted (by decide) rfl rfl

theorem scanInv_step (s : ScanState) (c : ScanCall) (s' : ScanState) (hs : scanStep s c s')
    (h : ScanInv s) : ScanInv s' := by
  subst hs
  cases c with
  | lockTable t fd => exact (h.lockTable t fd).1
  | other c => exact (h.other c).1

/-- One call keeps the exclusion just when it is not a table lock on a table that another
transaction has changed. -/
theorem excludes_step_iff (s : ScanState) (c : ScanCall) (s' : ScanState) (hs : scanStep s c s')
    (h : ScanInv s) (hex : s.ScansExcludeWriters) : s'.ScansExcludeWriters ↔ s.FreeOfWriters c := by
  subst hs
  cases c with
  | other c => exact ⟨fun _ => trivial, fun _ => (h.other c).2 hex⟩
  | lockTable t fd =>
    obtain ⟨hinv, hscan⟩ := h.lockTable t fd
    rw [hinv.excludes_iff]
    constructor
    · rintro hs ⟨t', fd', rid⟩ hc hfd
      obtain rfl : fd' = fd := hfd
      by_contra hne
      exact hs t t' fd' rid (Ne.symm hne) ((hscan t fd').2 (Or.inl ⟨rfl, rfl⟩)) hc
    · intro hfree t₁ t₂ fd' rid hne hs hc
      rcases (hscan t₁ fd').1 hs with ⟨rfl, rfl⟩ | hs
      · exact hne (hfree _ hc rfl).symm
      · exact (hex t₁ t₂ fd' rid hne hs).2 hc

/-- In a run, table scans exclude the writers of the table all the time if and only if no table is
locked for a scan while another transaction that has not ended has changed a record of it. -/
theorem scans_exclude_writers_iff (cs : List ScanCall) (s : ScanState) (h : Run scanStep {} cs s) :
    (∀ cs₁ cs₂ s₁, cs = cs₁ ++ cs₂ → Run scanStep {} cs₁ s₁ → s₁.ScansExcludeWriters) ↔
      Run (Meeting FreeOfWriters scanStep) {} cs s := by
  refine Run.meeting_iff (I := ScanInv) ?_ scanInv_step excludes_step_iff scanInv_empty ?_ h
  · rintro s a _ _ rfl rfl
    rfl
  · intro t t' fd rid _ ht
    simp [ScansTable, LockManager.queue] at ht

/-- A transaction scans a table after another one has changed a record of a different table. -/
theorem scans_exclude_writers_two_tables :
    (((({} : ScanState).exec (.other (.lockExclusive 1 ⟨1, 0⟩ 3))).exec
      (.lockTable 2 4))).ScansExcludeWriters :=
  (scans_exclude_writers_iff [.other (.lockExclusive 1 ⟨1, 0⟩ 3), .lockTable 2 4] _
    (.cons rfl (.single rfl))).2 (.cons
      ⟨trivial, rfl⟩ (.single ⟨by unfold FreeOfWriters; decide, rfl⟩))
    _ [] _ (List.append_nil _).symm (.cons rfl (.single rfl))

/-- Transaction 1 has changed a record, and transaction 2 is granted the shared lock on the
table. -/
theorem not_scans_exclude_writers :
    ¬ ∀ (cs : List ScanCall) (s : ScanState), Run scanStep {} cs s → s.ScansExcludeWriters := by
  intro h
  have hrun : Run scanStep {} [.other (.lockExclusive 1 ⟨1, 0⟩ 3), .lockTable 2 3] _ :=
    .cons rfl (.single rfl)
  refine (h _ _ hrun 2 1 3 ⟨1, 0⟩ (by decide) ?_).1 ?_
  · unfold ScansTable
    decide
  · decide

end Rmdb
