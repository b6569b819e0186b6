import Rmdb.Transaction.RecordLocks
import Rmdb.Transaction.GapManager

/-!
# Lock sets

A transaction's `lock_set_` is what `release_all_locks` works from, so it has to name every queue
that holds a request of the transaction.  Each granting path of the three lock kinds changes the own
request or appends one (`Regrant`) and puts the id into the set; a refused request changes neither
queues nor sets.  So the sets are exact in every run, and the end of a transaction removes all its
requests and nothing else.
-/

namespace Rmdb

/-! ## What a request does to a queue -/

/-- A granted request of `t` changes at most the own requests, or appends the only one. -/
inductive Regrant (t : TxnId) (rs : List LockRequest) : List LockRequest → Prop
  | same (ht : ∃ req ∈ rs, req.txnId = t) : Regrant t rs rs
  | update (p : LockRequest → Bool) (f : LockRequest → LockRequest)
      (hp : ∀ req, p req = true → req.txnId = t)
      (hf : ∀ req, (f req).txnId = req.txnId ∧ (req.granted = true → (f req).granted = true))
      (ht : ∃ req ∈ rs, req.txnId = t) : Regrant t rs (updateFirst p f rs)
  | append (mode : LockMode) (hn : ∀ req ∈ rs, req.txnId ≠ t) :
      Regrant t rs (rs ++ [{ txnId := t, lockMode := mode, granted := true }])

/-- Every request is granted, and no transaction has two. -/
structure QueueOk (rs : List LockRequest) : Prop where
  granted : ∀ req ∈ rs, req.granted = true
  nodup : (rs.map (·.txnId)).Nodup

section Update

variable {p : LockRequest → Bool} {f : LockRequest → LockRequest}

theorem map_txnId_updateFirst (hf : ∀ req, (f req).txnId = req.txnId) (rs : List LockRequest) :
    (updateFirst p f rs).map (·.txnId) = rs.map (·.txnId) := by
  induction rs with
  | nil => rfl
  | cons req rs ih =>
    rw [updateFirst]
    split_ifs with h
    · rw [List.map_cons, List.map_cons, hf]
    · rw [List.map_cons, List.map_cons, ih]

theorem granted_updateFirst (hf : ∀ req, req.granted = true → (f req).granted = true)
    {rs : List LockRequest} (h : ∀ req ∈ rs, req.granted = true) :
    ∀ req ∈ updateFirst p f rs, req.granted = true := by
  induction rs with
  | nil => exact h
  | cons r rs ih =>
    rw [List.forall_mem_cons] at h
    rw [updateFirst]
    split_ifs
    · exact List.forall_mem_cons.2 ⟨hf r h.1, h.2⟩
    · exact List.forall_mem_cons.2 ⟨h.1, ih h.2⟩

end Update

namespace Regrant

variable {t : TxnId} {rs rs' : List LockRequest}

theorem queueOk (h : Regrant t rs rs') (hok : QueueOk rs) : QueueOk rs' := by
  cases h with
  | same _ => exact hok
  | update p f hp hf _ =>
    refine ⟨granted_updateFirst (fun req => (hf req).2) hok.granted, ?_⟩
    rw [map_txnId_updateFirst fun req => (hf req).1]
    exact hok.nodup
  | append mode hn =>
    refine ⟨fun req hr => ?_, ?_⟩
    · rcases List.mem_append.1 hr with hr | hr
      · exact hok.granted req hr
      · rw [List.mem_singleton.1 hr]
    · rw [List.map_append, List.nodup_append]
      refine ⟨hok.nodup, List.nodup_singleton _, fun a ha b hb => ?_⟩
      obtain ⟨req, hr, rfl⟩ := List.mem_map.1 ha
      rw [List.mem_singleton.1 hb]
      exact hn req hr

/-- Who has a request afterwards. -/
theorem mem_iff (h : Regrant t rs rs') (t' : TxnId) :
    t' ∈ rs'.map (·.txnId) ↔ t' = t ∨ t' ∈ rs.map (·.txnId) := by
  have hmem (ht : ∃ req ∈ rs, req.txnId = t) : t ∈ rs.map (·.txnId) := List.mem_map.2 ht
  cases h with
  | same ht => exact ⟨Or.inr, fun h => h.elim (fun e => e ▸ hmem ht) id⟩
  | update p f hp hf ht =>
    rw [map_txnId_updateFirst fun req => (hf req).1]
    exact ⟨Or.inr, fun h => h.elim (fun e => e ▸ hmem ht) id⟩
  | append mode hn => simp [or_comm]

end Regrant

theorem requestTable_regrant {t : TxnId} {mode : LockMode} {q q' : LockRequestQueue}
    (h : requestTable t mode q = .ok q') : Regrant t q.requestQueue q'.requestQueue := by
  have hown (req : LockRequest) (hr : (req.txnId == t && req.granted) = true) : req.txnId = t :=
    beq_iff_eq.1 (Bool.and_eq_true_iff.1 hr).1
  unfold requestTable at h
  dsimp only at h
  split at h
  · rename_i hany
    obtain ⟨req, hr, hreq⟩ := List.any_eq_true.1 hany
    have ht : ∃ req ∈ q.requestQueue, req.txnId = t := ⟨req, hr, hown req hreq⟩
    split at h
    · split at h
      · cases h
      · cases h
        exact .update _ _ hown (fun _ => ⟨rfl, id⟩) ht
    · cases h
      exact .update _ _ hown (fun _ => ⟨rfl, id⟩) ht
  · split at h
    · cases h
    · cases h
      by_cases hmine : (q.requestQueue.any fun req => req.txnId == t) = true
      · rw [if_pos hmine]
        obtain ⟨req, hr, hreq⟩ := List.any_eq_true.1 hmine
        exact .update _ _ (fun _ hr => beq_iff_eq.1 hr) (fun _ => ⟨rfl, fun _ => rfl⟩)
          ⟨req, hr, beq_iff_eq.1 hreq⟩
      · rw [if_neg hmine]
        refine .append mode fun req hr ht => hmine (List.any_eq_true.2 ⟨req, hr, beq_iff_eq.2 ht⟩)

theorem Granted.regrant {t : TxnId} {mode : LockMode} {q q' : LockRequestQueue}
    (h : Granted t mode q q') : Regrant t q.requestQueue q'.requestQueue := by
  cases h with
  | held req hr ht _ => exact .same ⟨req, hr, ht⟩
  | upgrade p hp req hr hpr _ _ =>
    exact .update p _ (fun r h => (hp r h).1) (fun _ => ⟨rfl, id⟩) ⟨req, hr, (hp req hpr).1⟩
  | rewrite p hp _ req hr hpr _ _ =>
    exact .update p _ hp (fun _ => ⟨rfl, fun _ => rfl⟩) ⟨req, hr, hp req hpr⟩
  | append _ hn _ => exact .append mode hn

/-! ## What a request does to the lock manager -/

/-- The queues and the lock sets are the same. -/
structure SameLocks (m m' : LockManager) : Prop where
  queue : ∀ id, m'.queue id = m.queue id
  lockSet : ∀ t, (m'.txns t).lockSet = (m.txns t).lockSet

/-- A request of `t` for `id` has been granted. -/
structure GrantedTo (m : LockManager) (t : TxnId) (id : LockDataId) (m' : LockManager) : Prop where
  queue_ne : ∀ id', id' ≠ id → m'.queue id' = m.queue id'
  regrant : Regrant t (m.queue id).requestQueue (m'.queue id).requestQueue
  own : (m'.txns t).lockSet = (m.txns t).lockSet.insert id
  other : ∀ t', t' ≠ t → (m'.txns t').lockSet = (m.txns t').lockSet

theorem LockManager.lockSet_setState (m : LockManager) (t : TxnId) (st : TransactionState)
    (t' : TxnId) : ((m.setState t st).txns t').lockSet = (m.txns t').lockSet := by
  rcases eq_or_ne t' t with rfl | h
  · simp [setState]
  · simp [setState, h]

theorem sameLocks_setState (m : LockManager) (t : TxnId) (st : TransactionState) :
    SameLocks m (m.setState t st) := ⟨fun _ => rfl, m.lockSet_setState t st⟩

theorem grantedTo_grant {m : LockManager} {t : TxnId} {id : LockDataId} {q : LockRequestQueue}
    (st : TransactionState) (h : Regrant t (m.queue id).requestQueue q.requestQueue) :
    GrantedTo m t id ((m.setState t st).grant t id q) where
  queue_ne id' hne := LockManager.queue_grant_of_ne _ _ _ _ _ hne
  regrant := by rwa [LockManager.queue_grant_self]
  own := by
    simp [LockManager.grant, LockManager.insertLock, LockManager.setQueue, LockManager.setState]
  other t' hne := by
    simp [LockManager.grant, LockManager.insertLock, LockManager.setQueue,
      LockManager.setState, hne]

theorem lockOnTable_outcome (m : LockManager) (t : TxnId) (fd : ℤ) (mode : LockMode) :
    SameLocks m (m.lockOnTable t fd mode).1 ∨ GrantedTo m t (.table fd)
    (m.lockOnTable t fd mode).1 := by
  unfold LockManager.lockOnTable
  dsimp only
  split
  · exact Or.inl ⟨fun _ => rfl, fun _ => rfl⟩
  · split
    · exact Or.inl (sameLocks_setState m t .growing)
    · rename_i hq
      exact Or.inr (grantedTo_grant _ (requestTable_regrant hq))

theorem lockOnRecord_outcome (m : LockManager) (t : TxnId) (rid : Rid) (fd : ℤ) (mode : LockMode) :
    SameLocks m (m.lockOnRecord t rid fd mode).1 ∨
      GrantedTo m t (.record fd rid) (m.lockOnRecord t rid fd mode).1 := by
  unfold LockManager.lockOnRecord
  dsimp only
  split
  · exact Or.inl ⟨fun _ => rfl, fun _ => rfl⟩
  · split
    · exact Or.inl (sameLocks_setState m t .growing)
    · split
      · exact Or.inl (sameLocks_setState m t .growing)
      · rename_i hq
        exact Or.inr (grantedTo_grant _ (requestRecord_granted hq).regrant)

theorem lockOnGap_outcome (after : Bytes → Bytes) {m : LockManager}
    (hok : ∀ id, QueueOk (m.queue id).requestQueue) (t : TxnId) (fd : ℤ) (gapKey : Bytes)
    (mode : LockMode) (cols : List (ColType × ℕ)) (isRange : Bool) (r : GapRange) :
    SameLocks m (m.lockOnGap after t fd gapKey mode cols isRange r).1 ∨
      GrantedTo m t (.gap fd gapKey) (m.lockOnGap after t fd gapKey mode cols isRange r).1 := by
  unfold LockManager.lockOnGap
  dsimp only
  split
  · exact Or.inl ⟨fun _ => rfl, fun _ => rfl⟩
  · split
    · rename_i hany
      obtain ⟨req, hr, hreq⟩ := List.any_eq_true.1 hany
      refine Or.inr ⟨fun _ _ => rfl, .same ⟨req, hr, ?_⟩, ?_, fun t' hne => ?_⟩
      · exact beq_iff_eq.1 (Bool.and_eq_true_iff.1 hreq).1
      · simp [LockManager.insertLock, LockManager.setState]
      · simp [LockManager.insertLock, LockManager.setState, hne]
    · rename_i hany
      split
      · exact Or.inl (sameLocks_setState m t .growing)
      · -- an own request that is not granted would be left in the queue, but there is none
        refine Or.inr (grantedTo_grant _ (.append mode fun req hr ht => hany ?_))
        refine List.any_eq_true.2 ⟨req, hr, ?_⟩
        rw [(hok _).granted req hr, Bool.and_true]
        exact beq_iff_eq.2 ht

/-! ## The invariant -/

/-- The lock sets name the requests, there is at most one request of a transaction in a queue, and
every request is granted. -/
structure LockSetsExact (m : LockManager) : Prop where
  queueOk : ∀ id, QueueOk (m.queue id).requestQueue
  mem_iff : ∀ t id, t ∈ (m.queue id).requestQueue.map (·.txnId) ↔ id ∈ (m.txns t).lockSet

theorem LockSetsExact.same {m m' : LockManager} (h : LockSetsExact m) (hs : SameLocks m m') :
    LockSetsExact m' where
  queueOk id := by
    rw [hs.queue]
    exact h.queueOk id
  mem_iff t id := by
    rw [hs.queue, hs.lockSet]
    exact h.mem_iff t id

theorem LockSetsExact.granted {m m' : LockManager} {t : TxnId} {id : LockDataId}
    (h : LockSetsExact m) (hg : GrantedTo m t id m') : LockSetsExact m' where
  queueOk id' := by
    rcases eq_or_ne id' id with rfl | hne
    · exact hg.regrant.queueOk (h.queueOk id')
    · rw [hg.queue_ne id' hne]
      exact h.queueOk id'
  mem_iff t' id' := by
    have hset : id' ∈ (m'.txns t').lockSet ↔ (t' = t ∧ id' = id) ∨ id' ∈ (m.txns t').lockSet := by
      rcases eq_or_ne t' t with rfl | hne
      · rw [hg.own, List.mem_insert_iff]
        simp
      · rw [hg.other t' hne]
        simp [hne]
    rw [hset, ← h.mem_iff]
    rcases eq_or_ne id' id with rfl | hne
    · rw [hg.regrant.mem_iff]
      simp
    · rw [hg.queue_ne id' hne]
      simp [hne]

/-! ## The end of a transaction -/

/-- Where a transaction has one request at most, erasing the first removes them all. -/
theorem eraseP_eq_filter {rs : List LockRequest} (t : TxnId) (h : (rs.map (·.txnId)).Nodup) :
    rs.eraseP (fun req => req.txnId == t) = rs.filter (fun req => req.txnId != t) := by
  induction rs with
  | nil => rfl
  | cons r rs ih =>
    rw [List.map_cons, List.nodup_cons] at h
    by_cases hr : r.txnId = t
    · have hrest : rs.filter (fun req => req.txnId != t) = rs := by
        refine List.filter_eq_self.2 fun req hreq => bne_iff_ne.2 fun ht => h.1 ?_
        exact List.mem_map.2 ⟨req, hreq, ht.trans hr.symm⟩
      simp [hr, hrest]
    · simp [hr, ih h.2]

/-- The requests that are left when those of `t` are gone. -/
def withoutRequests (t : TxnId) (rs : List LockRequest) : List LockRequest :=
  rs.filter fun req => req.txnId != t

theorem withoutRequests_of_forall_ne {t : TxnId} {rs : List LockRequest}
    (h : ∀ req ∈ rs, req.txnId ≠ t) : withoutRequests t rs = rs :=
  List.filter_eq_self.2 fun req hr => bne_iff_ne.2 (h req hr)

theorem QueueOk.without {rs : List LockRequest} (h : QueueOk rs) (t : TxnId) :
    QueueOk (withoutRequests t rs) where
  granted req hr := h.granted req (List.mem_of_mem_filter hr)
  nodup := h.nodup.sublist (List.filter_sublist.map _)

/-- `unlock` takes the requests of the transaction out of the queue. -/
theorem unlock_requests {m : LockManager} (t : TxnId) (id id' : LockDataId)
    (hok : QueueOk (m.queue id).requestQueue) :
    ((m.unlock t id).1.queue id').requestQueue =
      if id' = id then withoutRequests t (m.queue id).requestQueue else
        (m.queue id').requestQueue := by
  rcases unlock_queue m t id id' with ⟨heq, hnone⟩ | ⟨rfl, heq⟩
  · rw [heq]
    split_ifs with hid
    · rw [withoutRequests_of_forall_ne (hnone hid), hid]
    · rfl
  · rw [heq, if_pos rfl]
    exact eraseP_eq_filter t hok.nodup

theorem unlock_txns_of_ne (m : LockManager) {t t' : TxnId} (id : LockDataId) (h : t' ≠ t) :
    (m.unlock t id).1.txns t' = m.txns t' := by
  unfold LockManager.unlock
  dsimp only
  split
  · simp [LockManager.setState, h]
  · split
    · split_ifs <;> simp [LockManager.setState, LockManager.setQueue, LockManager.eraseLock, h]
    · simp [LockManager.setState, h]

/-- Unlocking a list of ids takes the requests of the transaction out of their queues. -/
theorem unlockAll_requests (t : TxnId) (ids : List LockDataId) {m : LockManager}
    (hok : ∀ id, QueueOk (m.queue id).requestQueue) (id : LockDataId) :
    ((ids.foldl (fun m i => (m.unlock t i).1) m).queue id).requestQueue =
      if id ∈ ids then withoutRequests t (m.queue id).requestQueue else
        (m.queue id).requestQueue := by
  induction ids generalizing m with
  | nil => simp
  | cons i ids ih =>
    have hstep (id' : LockDataId) := unlock_requests t i id' (hok i)
    have hok' (id' : LockDataId) : QueueOk ((m.unlock t i).1.queue id').requestQueue := by
      rw [hstep]
      split_ifs
      · exact (hok i).without t
      · exact hok id'
    rw [List.foldl_cons, ih hok', hstep]
    by_cases hi : id = i
    · subst hi
      simp only [if_true, List.mem_cons, true_or]
      split_ifs
      · exact withoutRequests_of_forall_ne fun req hr => bne_iff_ne.1 (List.mem_filter.1 hr).2
      · rfl
    · simp [hi]

theorem unlockAll_txns_of_ne (t : TxnId) (ids : List LockDataId) (m : LockManager) {t' : TxnId}
    (h : t' ≠ t) : (ids.foldl (fun m i => (m.unlock t i).1) m).txns t' = m.txns t' := by
  induction ids generalizing m with
  | nil => rfl
  | cons i ids ih => rw [List.foldl_cons, ih, unlock_txns_of_ne m i h]

/-- `release_all_locks` removes the requests of the transaction and no others. -/
theorem LockSetsExact.release_requests {m : LockManager} (h : LockSetsExact m) (t : TxnId)
    (id : LockDataId) :
    ((m.releaseAllLocks t).queue id).requestQueue = withoutRequests t
    (m.queue id).requestQueue := by
  change ((List.foldl (fun m i => (m.unlock t i).1) m (m.txns t).lockSet).queue id).requestQueue = _
  rw [unlockAll_requests t _ h.queueOk]
  split_ifs with hmem
  · rfl
  · refine (withoutRequests_of_forall_ne fun req hr ht => hmem ?_).symm
    rw [← h.mem_iff]
    exact List.mem_map.2 ⟨req, hr, ht⟩

theorem releaseAllLocks_lockSet_self (m : LockManager) (t : TxnId) :
    ((m.releaseAllLocks t).txns t).lockSet = [] := by
  simp [LockManager.releaseAllLocks]

theorem releaseAllLocks_txns_of_ne (m : LockManager) {t t' : TxnId} (h : t' ≠ t) :
    (m.releaseAllLocks t).txns t' = m.txns t' := by
  unfold LockManager.releaseAllLocks
  dsimp only
  rw [Function.update_of_ne h]
  exact unlockAll_txns_of_ne t _ m h

theorem LockSetsExact.release {m : LockManager} (h : LockSetsExact m) (t : TxnId) :
    LockSetsExact (m.releaseAllLocks t) where
  queueOk id := by
    rw [h.release_requests]
    exact (h.queueOk id).without t
  mem_iff t' id := by
    rw [h.release_requests]
    rcases eq_or_ne t' t with rfl | hne
    · rw [releaseAllLocks_lockSet_self]
      simp [withoutRequests]
    · rw [releaseAllLocks_txns_of_ne m hne, ← h.mem_iff]
      simp only [withoutRequests, List.mem_map, List.mem_filter, bne_iff_ne]
      refine ⟨fun ⟨req, hr, ht⟩ => ⟨req, hr.1, ht⟩, fun ⟨req, hr, ht⟩ => ⟨req, ⟨hr, ?_⟩, ht⟩⟩
      rwa [ht]

/-! ## Runs of lock requests of all kinds -/

/-- The calls of a run: lock requests, and the ends of transactions. -/
inductive ManagerCall
  | table (t : TxnId) (fd : ℤ) (mode : LockMode)
  | record (t : TxnId) (rid : Rid) (fd : ℤ) (mode : LockMode)
  | gapRange (t : TxnId) (indexFd : ℤ) (cols : List (ColType × ℕ)) (r : GapRange)
  | gapPoint (t : TxnId) (indexFd : ℤ) (cols : List (ColType × ℕ)) (key : Bytes)
  | commit (t : TxnId)
  | abort (t : TxnId)

/-- The state after a call, granted or refused. -/
def ManagerCall.exec (after : Bytes → Bytes) (m : LockManager) : ManagerCall → LockManager
  | .table t fd mode => (m.lockOnTable t fd mode).1
  | .record t rid fd mode => (m.lockOnRecord t rid fd mode).1
  | .gapRange t fd cols r => (m.lockSharedOnGapRange after t fd cols r).1
  | .gapPoint t fd cols key => (m.lockExclusiveOnGapPoint after t fd cols key).1
  | .commit t => (m.releaseAllLocks t).setState t .committed
  | .abort t => (m.releaseAllLocks t).setState t .aborted

/-- One call, as a step relation. -/
def callStep (after : Bytes → Bytes) (m : LockManager) (c : ManagerCall)
    (m' : LockManager) : Prop :=
  m' = c.exec after m

theorem lockSetsExact_step (after : Bytes → Bytes) (m : LockManager) (c : ManagerCall)
    (m' : LockManager) (hs : callStep after m c m') (h : LockSetsExact m) : LockSetsExact m' := by
  subst hs
  cases c with
  | table t fd mode => exact (lockOnTable_outcome m t fd mode).elim h.same h.granted
  | record t rid fd mode => exact (lockOnRecord_outcome m t rid fd mode).elim h.same h.granted
  | gapRange t fd cols r =>
    exact (lockOnGap_outcome after h.queueOk t fd _ _ cols true r).elim h.same h.granted
  | gapPoint t fd cols key =>
    exact (lockOnGap_outcome after h.queueOk t fd _ _ cols false _).elim h.same h.granted
  | commit t => exact (h.release t).same (sameLocks_setState _ t .committed)
  | abort t => exact (h.release t).same (sameLocks_setState _ t .aborted)

theorem lockSetsExact_empty : LockSetsExact {} :=
  ⟨fun _ => ⟨by simp [LockManager.queue], by simp [LockManager.queue]⟩, by simp [LockManager.queue]⟩

theorem lockSetsExact_run {after : Bytes → Bytes} {cs : List ManagerCall} {m : LockManager}
    (h : Run (callStep after) {} cs m) : LockSetsExact m :=
  h.invariant (lockSetsExact_step after) lockSetsExact_empty

/-- The requests of `t` in the queue of `id`. -/
def LockManager.requestsOf (m : LockManager) (t : TxnId) (id : LockDataId) : List LockRequest :=
  (m.queue id).requestQueue.filter fun req => req.txnId == t

/-- A transaction has one request at most in a queue without repetitions. -/
theorem length_requests_le (t : TxnId) {rs : List LockRequest} (h : (rs.map (·.txnId)).Nodup) :
    (rs.filter fun req => req.txnId == t).length ≤ 1 := by
  have hcount : (rs.filter fun req => req.txnId == t).length = (rs.map (·.txnId)).count t := by
    rw [List.count, List.countP_map, List.countP_eq_length_filter]
    rfl
  rw [hcount]
  exact List.nodup_iff_count_le_one.1 h t

/-- In every run the lock sets are exact, and a commit or an abort removes all requests of its
transaction and none of another one. -/
theorem locks_released_at_end (after : Bytes → Bytes) (cs : List ManagerCall) (m : LockManager)
    (h : Run (callStep after) {} cs m) (t : TxnId) :
    (∀ id, m.requestsOf t id ≠ [] ↔ id ∈ (m.txns t).lockSet) ∧
    (∀ id, (m.requestsOf t id).length ≤ 1) ∧
    (∀ id, ∀ req ∈ m.requestsOf t id, req.granted = true) ∧
    ∀ c : ManagerCall, c = .commit t ∨ c = .abort t → ∀ id,
      (c.exec after m).requestsOf t id = [] ∧
      ∀ t', t' ≠ t → (c.exec after m).requestsOf t' id = m.requestsOf t' id := by
  have hok := lockSetsExact_run h
  refine ⟨fun id => ?_, fun id => ?_, fun id req hr => ?_, fun c hc id => ?_⟩
  · rw [← hok.mem_iff, LockManager.requestsOf, ne_eq, List.filter_eq_nil_iff, List.mem_map]
    simp
  · exact length_requests_le t (hok.queueOk id).nodup
  · exact (hok.queueOk id).granted req (List.mem_of_mem_filter hr)
  · have hq : ((c.exec after m).queue id).requestQueue =
        withoutRequests t (m.queue id).requestQueue := by
      rcases hc with rfl | rfl <;> exact hok.release_requests t id
    constructor
    · rw [LockManager.requestsOf, hq, withoutRequests, List.filter_filter]
      simp
    · intro t' hne
      rw [LockManager.requestsOf, hq, withoutRequests, List.filter_filter, LockManager.requestsOf]
      refine List.filter_congr fun req _ => ?_
      by_cases ht : req.txnId = t'
      · simp [ht, hne]
      · simp [ht]

/-- A record lock, and the commit that releases it. -/
theorem record_lock_released_at_end :
    let m := (ManagerCall.record 1 ⟨1, 0⟩ 3 .exclusive).exec id {}
    m.requestsOf 1 (.record 3 ⟨1, 0⟩) ≠ [] ∧
      ((ManagerCall.commit 1).exec id m).requestsOf 1 (.record 3 ⟨1, 0⟩) = [] := by
  have h := locks_released_at_end id [.record 1 ⟨1, 0⟩ 3 .exclusive] _ (.single rfl) 1
  exact ⟨by decide, (h.2.2.2 _ (Or.inl rfl) _).1⟩

end Rmdb
