import Rmdb.Lib.Run
import Rmdb.Transaction.LockManager

/-!
# Exclusive record locks

`RecordOk` is what every record queue satisfies in every run of record lock requests, commits and
aborts: all requests are granted, there is one for each transaction, and an exclusive request is
alone in its queue.  An exclusive lock therefore keeps every other transaction out for as long as it
keeps its mode (`HoldsExclusive`).  `lock_on_record` takes the mode away in one case only: the
holder asks for the same record in shared mode, finds no request of that mode in the first loop, and
the last loop overwrites `EXLUCSIVE` by `SHARED`.
-/

namespace Rmdb

/-! ## Queues under the elementary updates -/

namespace LockManager

variable (m : LockManager) (t : TxnId) (id id' : LockDataId) (q : LockRequestQueue)

@[simp] theorem queue_setQueue_self : (m.setQueue id q).queue id = q := by
  simp [queue, setQueue]

theorem queue_setQueue_of_ne (h : id' ≠ id) : (m.setQueue id q).queue id' = m.queue id' := by
  simp [queue, setQueue, AList.lookup_insert_ne h]

@[simp] theorem queue_setState (st : TransactionState) : (m.setState t st).queue id =
    m.queue id := rfl

@[simp] theorem queue_insertLock : (m.insertLock t id').queue id = m.queue id := rfl

@[simp] theorem queue_eraseLock : (m.eraseLock t id').queue id = m.queue id := rfl

@[simp] theorem queue_grant_self : (m.grant t id q).queue id = q :=
  queue_setQueue_self m id q

theorem queue_grant_of_ne (h : id' ≠ id) : (m.grant t id q).queue id' = m.queue id' :=
  queue_setQueue_of_ne m id id' q h

end LockManager

/-- The changed request is in the result. -/
theorem exists_mem_updateFirst {p : LockRequest → Bool} (f : LockRequest → LockRequest)
    {rs : List LockRequest} {req : LockRequest} (hr : req ∈ rs) (hp : p req = true) :
    ∃ old ∈ rs, p old = true ∧ f old ∈ updateFirst p f rs := by
  induction rs with
  | nil => cases hr
  | cons r rs ih =>
    rw [updateFirst]
    split_ifs with h
    · exact ⟨r, List.mem_cons_self, h, List.mem_cons_self⟩
    · rcases List.mem_cons.1 hr with rfl | hr
      · exact absurd hp h
      · obtain ⟨old, ho, hpo, hf⟩ := ih hr
        exact ⟨old, List.mem_cons_of_mem _ ho, hpo, List.mem_cons_of_mem _ hf⟩

/-! ## The invariant of a record queue -/

structure RecordOk (q : LockRequestQueue) : Prop where
  granted : ∀ req ∈ q.requestQueue, req.granted = true
  mode : ∀ req ∈ q.requestQueue, req.lockMode = .shared ∨ req.lockMode = .exclusive
  nodup : (q.requestQueue.map (·.txnId)).Nodup
  alone : ∀ req ∈ q.requestQueue, req.lockMode = .exclusive → q.requestQueue = [req]

theorem recordOk_empty : RecordOk {} := ⟨by simp, by simp, by simp, by simp⟩

theorem recordOk_singleton {req : LockRequest} {g : GroupLockMode} (hg : req.granted = true)
    (hm : req.lockMode = .shared ∨ req.lockMode = .exclusive) :
    RecordOk { requestQueue := [req], groupLockMode := g } := by
  constructor <;> simp [hg, hm]

/-- A queue whose requests all belong to one transaction holds at most one request. -/
theorem RecordOk.eq_singleton {q : LockRequestQueue} (h : RecordOk q) {t : TxnId}
    (ht : ∀ req ∈ q.requestQueue, req.txnId = t) {req : LockRequest} (hr : req ∈ q.requestQueue) :
    q.requestQueue = [req] := by
  have hn := h.nodup
  rcases hq : q.requestQueue with _ | ⟨a, _ | ⟨b, rest⟩⟩
  · rw [hq] at hr
    cases hr
  · rw [hq] at hr
    rw [List.mem_singleton.1 hr]
  · rw [hq] at hn ht
    have : a.txnId = b.txnId := (ht a (by simp)).trans (ht b (by simp)).symm
    simp [this] at hn

theorem RecordOk.eraseP {q : LockRequestQueue} (h : RecordOk q) (p : LockRequest → Bool)
    (g : GroupLockMode) :
    RecordOk { requestQueue := q.requestQueue.eraseP p, groupLockMode := g } where
  granted req hr := h.granted req (List.mem_of_mem_eraseP hr)
  mode req hr := h.mode req (List.mem_of_mem_eraseP hr)
  nodup := h.nodup.sublist ((List.eraseP_sublist).map _)
  alone req hr hx := by
    have hq := h.alone req (List.mem_of_mem_eraseP hr) hx
    simp only [hq, List.eraseP_cons, List.eraseP_nil] at hr ⊢
    cases hp : p req <;> simp_all

/-! ## One record lock request -/

/-- The queue after a granted request of `t` in `mode`. -/
inductive Granted (t : TxnId) (mode : LockMode) (q : LockRequestQueue) : LockRequestQueue → Prop
  /-- `t` holds the lock in the requested mode already. -/
  | held (req : LockRequest) (hr : req ∈ q.requestQueue) (ht : req.txnId = t)
      (hm : req.lockMode = mode) : Granted t mode q q
  /-- `t` is the only holder and turns its shared lock into an exclusive one. -/
  | upgrade (p : LockRequest → Bool) (hp : ∀ r, p r = true → r.txnId = t ∧ r.granted = true)
      (req : LockRequest) (hr : req ∈ q.requestQueue) (hpr : p req = true) (hx : mode = .exclusive)
      (ho : q.grantedToOther t = false) :
      Granted t mode q
        { requestQueue := updateFirst p ({ · with lockMode := .exclusive }) q.requestQueue
          groupLockMode := .X }
  /-- No request of another transaction is in the way, and the mode of `t`'s own request, if there
  is one, is overwritten. -/
  | rewrite (p : LockRequest → Bool) (hp : ∀ r, p r = true → r.txnId = t) (g : GroupLockMode)
      (req : LockRequest) (hr : req ∈ q.requestQueue) (hpr : p req = true)
      (hm : req.granted = true →
        req.lockMode ≠ mode ∧ ¬ (mode = .exclusive ∧ req.lockMode = .shared))
      (hc : ∀ r ∈ q.requestQueue, r.txnId ≠ t → recordConflict mode r.lockMode = false) :
      Granted t mode q
        { requestQueue := updateFirst p (fun req => { req with lockMode := mode, granted := true })
            q.requestQueue
          groupLockMode := g }
  | append (g : GroupLockMode) (hn : ∀ r ∈ q.requestQueue, r.txnId ≠ t)
      (hc : ∀ r ∈ q.requestQueue, r.txnId ≠ t → recordConflict mode r.lockMode = false) :
      Granted t mode q
        { requestQueue := q.requestQueue ++ [{ txnId := t, lockMode := mode, granted := true }]
          groupLockMode := g }

theorem requestRecord_granted {t : TxnId} {mode : LockMode} {q q' : LockRequestQueue}
    (h : requestRecord t mode q = .ok q') : Granted t mode q q' := by
  unfold requestRecord at h
  dsimp only at h
  split at h
  · rename_i req hf
    have hr := List.mem_of_find?_eq_some hf
    have hpr := List.find?_some hf
    have hp := hpr
    simp only [Bool.and_eq_true, beq_iff_eq, Bool.or_eq_true] at hp
    split_ifs at h with hu ho
    · cases h
      simp only [Bool.and_eq_true, beq_iff_eq] at hu
      refine .upgrade _ (fun r hr' => ?_) req hr hpr hu.1 (by simpa using ho)
      simp only [Bool.and_eq_true, beq_iff_eq] at hr'
      exact hr'.1
    · cases h
      simp only [Bool.and_eq_true, beq_iff_eq] at hu
      exact .held req hr hp.1.1 (hp.2.resolve_left hu)
  · rename_i hf
    rw [List.find?_eq_none] at hf
    split at h
    · cases h
    · rename_i hw
      cases h
      have hc : ∀ r ∈ q.requestQueue, r.txnId ≠ t → recordConflict mode r.lockMode = false := by
        intro r hr ht
        rw [← Bool.not_eq_true]
        intro hx
        exact hw (List.any_eq_true.2 ⟨r, hr, by simp [ht, hx]⟩)
      by_cases ho : (q.requestQueue.any fun req => req.txnId == t) = true
      · rw [if_pos ho]
        obtain ⟨req, hr, hpr⟩ := List.any_eq_true.1 ho
        have ht := beq_iff_eq.1 hpr
        refine .rewrite _ (fun r hr' => beq_iff_eq.1 hr') _ req hr hpr (fun hg => ?_) hc
        have := hf req hr
        simp only [ht, hg, beq_self_eq_true, Bool.and_true, Bool.true_and, Bool.or_eq_true,
          Bool.and_eq_true, beq_iff_eq, not_or] at this
        exact ⟨this.2, this.1⟩
      · rw [if_neg ho]
        refine .append _ (fun r hr ht => ho ?_) hc
        exact List.any_eq_true.2 ⟨r, hr, by simpa using ht⟩

/-- What `lock_on_record` does to the queues: nothing when it refuses, one of `Granted` when it
grants. -/
theorem lockOnRecord_cases (m : LockManager) (t : TxnId) (rid : Rid) (fd : ℤ) (mode : LockMode) :
    ((m.lockOnRecord t rid fd mode).2 ≠ .ok true ∧
      ∀ id, (m.lockOnRecord t rid fd mode).1.queue id = m.queue id) ∨
    ((m.lockOnRecord t rid fd mode).2 = .ok true ∧
      (∀ id, id ≠ .record fd rid → (m.lockOnRecord t rid fd mode).1.queue id = m.queue id) ∧
      Granted t mode (m.queue (.record fd rid))
        ((m.lockOnRecord t rid fd mode).1.queue (.record fd rid))) := by
  generalize hx : m.lockOnRecord t rid fd mode = x
  unfold LockManager.lockOnRecord at hx
  dsimp only at hx
  split at hx
  · subst hx
    exact Or.inl ⟨by simp, fun _ => rfl⟩
  split at hx
  · subst hx
    exact Or.inl ⟨by simp, fun _ => rfl⟩
  split at hx
  · subst hx
    exact Or.inl ⟨by simp, fun _ => rfl⟩
  · rename_i q hq
    subst hx
    refine Or.inr ⟨rfl, fun id hid => ?_, ?_⟩
    · rw [LockManager.queue_grant_of_ne _ _ _ _ _ hid, LockManager.queue_setState]
    · rw [LockManager.queue_grant_self]
      exact requestRecord_granted hq

/-! ## Every record queue satisfies the invariant -/

theorem Granted.recordOk {t : TxnId} {mode : LockMode} {q q' : LockRequestQueue}
    (hm : mode = .shared ∨ mode = .exclusive) (h : Granted t mode q q') (hq : RecordOk q) :
    RecordOk q' := by
  cases h with
  | held req hr ht hmode => exact hq
  | upgrade p hp req hr hpr hx ho =>
    -- No other transaction is in the queue, so the upgraded request stands alone.
    have hall : ∀ r ∈ q.requestQueue, r.txnId = t := by
      intro r hr
      by_contra hne
      have := List.any_eq_false.1 ho r hr
      simp [hq.granted r hr, hne] at this
    have hs := hq.eq_singleton hall hr
    rw [hs]
    rw [updateFirst, if_pos hpr]
    exact recordOk_singleton (hq.granted req hr) (Or.inr rfl)
  | rewrite p hp g req hr hpr hmode hc =>
    -- The own request is exclusive, hence alone, and the requested mode is shared.
    have hne := hmode (hq.granted req hr)
    have hx : req.lockMode = .exclusive := by
      rcases hq.mode req hr with hs | hx
      · rcases hm with hm | hm
        · exact absurd (hs.trans hm.symm) hne.1
        · exact absurd ⟨hm, hs⟩ hne.2
      · exact hx
    rw [hq.alone req hr hx, updateFirst, if_pos hpr]
    exact recordOk_singleton rfl hm
  | append g hn hc =>
    have hcr : ∀ r ∈ q.requestQueue, recordConflict mode r.lockMode = false :=
      fun r hr => hc r hr (hn r hr)
    refine ⟨?_, ?_, ?_, ?_⟩
    · intro r hr
      rcases List.mem_append.1 hr with hr | hr
      · exact hq.granted r hr
      · rw [List.mem_singleton.1 hr]
    · intro r hr
      rcases List.mem_append.1 hr with hr | hr
      · exact hq.mode r hr
      · rw [List.mem_singleton.1 hr]
        exact hm
    · rw [List.map_append, List.nodup_append]
      refine ⟨hq.nodup, by simp, ?_⟩
      intro a ha b hb
      obtain ⟨r, hr, rfl⟩ := List.mem_map.1 ha
      rw [List.mem_singleton.1 hb]
      exact hn r hr
    · intro r hr hx
      rcases List.mem_append.1 hr with hr | hr
      · have := hcr r hr
        rcases hm with rfl | rfl <;> simp [recordConflict, hx] at this
      · rw [List.mem_singleton.1 hr] at hx ⊢
        change mode = .exclusive at hx
        subst hx
        have hnil : q.requestQueue = [] := by
          rw [List.eq_nil_iff_forall_not_mem]
          intro r' hr'
          have := hcr r' hr'
          rcases hq.mode r' hr' with h' | h' <;> simp [recordConflict, h'] at this
        rw [hnil, List.nil_append]

/-- Unlocking an id removes at most requests of `t` from its queue and leaves the others alone. -/
theorem unlock_queue (m : LockManager) (t : TxnId) (id id' : LockDataId) :
    ((m.unlock t id).1.queue id' = m.queue id' ∧
        (id' = id → ∀ req ∈ (m.queue id).requestQueue, req.txnId ≠ t)) ∨
      (id' = id ∧ (m.unlock t id).1.queue id' = LockRequestQueue.updateGroupLockMode
        { m.queue id with requestQueue := (m.queue id).requestQueue.eraseP fun req =>
          req.txnId == t }) := by
  generalize hx : m.unlock t id = x
  unfold LockManager.unlock at hx
  dsimp only at hx
  split at hx
  · rename_i hq
    subst hx
    refine Or.inl ⟨rfl, fun _ => ?_⟩
    change m.lockTable.lookup id = none at hq
    simp [LockManager.queue, hq]
  rename_i q hq
  have hqm : m.queue id = q := by
    change (m.lockTable.lookup id).getD {} = q
    change m.lockTable.lookup id = some q at hq
    rw [hq]
    rfl
  split at hx
  swap
  · rename_i hany
    subst hx
    refine Or.inl ⟨rfl, fun _ req hr ht => hany (List.any_eq_true.2 ⟨req, ?_, beq_iff_eq.2 ht⟩)⟩
    rwa [hqm] at hr
  subst hx
  by_cases hid : id' = id
  · subst hid
    refine Or.inr ⟨rfl, ?_⟩
    rw [hqm]
    split_ifs with he
    · rw [List.isEmpty_iff.1 he]
      simp [LockManager.queue, LockRequestQueue.updateGroupLockMode, groupLockModeLoop]
    · rw [LockManager.queue_eraseLock, LockManager.queue_setQueue_self]
  · refine Or.inl ⟨?_, fun heq => absurd heq hid⟩
    split_ifs
    · have : ∀ m' : LockManager, LockManager.queue
        { m' with lockTable := m'.lockTable.erase id } id' =
          m'.queue id' := fun m' => by
        simp [LockManager.queue, AList.lookup_erase_ne hid]
      rw [this, LockManager.queue_eraseLock, LockManager.queue_setQueue_of_ne _ _ _ _ hid,
        LockManager.queue_setState]
    · rw [LockManager.queue_eraseLock, LockManager.queue_setQueue_of_ne _ _ _ _ hid,
        LockManager.queue_setState]

/-- What `release_all_locks` keeps: any property of one queue that erasing `t`'s requests keeps. -/
theorem releaseAllLocks_queue {P : LockRequestQueue → Prop} (m : LockManager) (t : TxnId)
    (id : LockDataId)
    (hP : ∀ q, P q → P (LockRequestQueue.updateGroupLockMode
      { q with requestQueue := q.requestQueue.eraseP fun req => req.txnId == t }))
    (h : P (m.queue id)) : P ((m.releaseAllLocks t).queue id) := by
  have key : ∀ (ids : List LockDataId) (m : LockManager), P (m.queue id) →
      P ((ids.foldl (fun m i => (m.unlock t i).1) m).queue id) := by
    intro ids
    induction ids with
    | nil => exact fun m h => h
    | cons i ids ih =>
      intro m h
      refine ih _ ?_
      rcases unlock_queue m t i id with ⟨e, -⟩ | ⟨rfl, e⟩
      · rwa [e]
      · rw [e]
        exact hP _ h
  exact key _ m h

/-! ## Runs of record lock requests -/

/-- The calls of a run: record lock requests, and the ends of transactions, which release all locks
of the transaction. -/
inductive LockCall
  | lockShared (t : TxnId) (rid : Rid) (fd : ℤ)
  | lockExclusive (t : TxnId) (rid : Rid) (fd : ℤ)
  | commit (t : TxnId)
  | abort (t : TxnId)
deriving DecidableEq, Repr

/-- The state after a call.  A refused request is a call too: its transaction goes on or is ended by
a later `abort`. -/
def LockManager.exec (m : LockManager) : LockCall → LockManager
  | .lockShared t rid fd => (m.lockSharedOnRecord t rid fd).1
  | .lockExclusive t rid fd => (m.lockExclusiveOnRecord t rid fd).1
  | .commit t => (m.releaseAllLocks t).setState t .committed
  | .abort t => (m.releaseAllLocks t).setState t .aborted

/-- One call, as a step relation. -/
def lockStep (m : LockManager) (c : LockCall) (m' : LockManager) : Prop := m' = m.exec c

/-- `t` holds an exclusive lock on a record. -/
def LockManager.HoldsExclusive (m : LockManager) (t : TxnId) (rid : Rid) (fd : ℤ) : Prop :=
  ∃ req ∈ (m.queue (.record fd rid)).requestQueue,
    req.txnId = t ∧ req.granted = true ∧ req.lockMode = .exclusive

instance (m : LockManager) (t : TxnId) (rid : Rid) (fd : ℤ) :
    Decidable (m.HoldsExclusive t rid fd) :=
  inferInstanceAs (Decidable (∃ req ∈ (m.queue (.record fd rid)).requestQueue,
    req.txnId = t ∧ req.granted = true ∧ req.lockMode = .exclusive))

/-- Every record queue satisfies `RecordOk`. -/
def LockManager.RecordsOk (m : LockManager) : Prop := ∀ fd rid, RecordOk (m.queue (.record fd rid))

theorem recordsOk_lockOnRecord {m : LockManager} (h : m.RecordsOk) (t : TxnId) (rid : Rid) (fd : ℤ)
    {mode : LockMode} (hm : mode = .shared ∨ mode = .exclusive) :
    (m.lockOnRecord t rid fd mode).1.RecordsOk := by
  intro fd' rid'
  rcases lockOnRecord_cases m t rid fd mode with ⟨-, hq⟩ | ⟨-, hne, hg⟩
  · rw [hq]
    exact h fd' rid'
  · by_cases e : LockDataId.record fd' rid' = .record fd rid
    · rw [e]
      exact hg.recordOk hm (h fd rid)
    · rw [hne _ e]
      exact h fd' rid'

theorem recordsOk_step (m : LockManager) (c : LockCall) (m' : LockManager) (hs : lockStep m c m')
    (h : m.RecordsOk) : m'.RecordsOk := by
  subst hs
  cases c with
  | lockShared t rid fd => exact recordsOk_lockOnRecord h t rid fd (Or.inl rfl)
  | lockExclusive t rid fd => exact recordsOk_lockOnRecord h t rid fd (Or.inr rfl)
  | commit t | abort t =>
    intro fd rid
    exact releaseAllLocks_queue m t _ (fun q hq => hq.eraseP _ _) (h fd rid)

theorem recordsOk_run {m : LockManager} {cs : List LockCall} (h : Run lockStep {} cs m) :
    m.RecordsOk :=
  h.invariant recordsOk_step fun _ _ => recordOk_empty

/-- No request of another transaction is granted in a queue with an exclusive request. -/
theorem not_granted_of_exclusive {t' : TxnId} {mode : LockMode} {q q' : LockRequestQueue}
    (hm : mode = .shared ∨ mode = .exclusive) (hok : RecordOk q) {req : LockRequest}
    (hr : req ∈ q.requestQueue) (hx : req.lockMode = .exclusive) (hne : t' ≠ req.txnId) :
    ¬ Granted t' mode q q' := by
  have hq := hok.alone req hr hx
  intro hg
  cases hg with
  | held r hr' ht' _ =>
    rw [hq, List.mem_singleton] at hr'
    exact hne (ht'.symm.trans (congrArg _ hr'))
  | upgrade _ hp r hr' hpr _ _ =>
    rw [hq, List.mem_singleton] at hr'
    exact hne ((hp r hpr).1.symm.trans (congrArg _ hr'))
  | rewrite _ hp _ r hr' hpr _ _ =>
    rw [hq, List.mem_singleton] at hr'
    exact hne ((hp r hpr).symm.trans (congrArg _ hr'))
  | append g hn hc =>
    have hconf : recordConflict mode req.lockMode = true := by
      rcases hm with rfl | rfl <;> simp [recordConflict, hx]
    exact absurd (hc req hr (hn req hr)) (by simp [hconf])

/-- While `t` holds a record exclusively, every other transaction's request for it is refused. -/
theorem lockOnRecord_refused {m : LockManager} (hok : m.RecordsOk) {t t' : TxnId}
    {rid : Rid} {fd : ℤ}
    {mode : LockMode} (hm : mode = .shared ∨ mode = .exclusive) (hne : t' ≠ t)
    (h : m.HoldsExclusive t rid fd) : (m.lockOnRecord t' rid fd mode).2 ≠ .ok true := by
  obtain ⟨req, hr, rfl, -, hx⟩ := h
  rcases lockOnRecord_cases m t' rid fd mode with ⟨hn, -⟩ | ⟨-, -, hg⟩
  · exact hn
  · exact absurd hg (not_granted_of_exclusive hm (hok fd rid) hr hx hne)

/-- A call weakens an exclusive lock when it is the holder's own shared request for the record. -/
def Weakens (m : LockManager) : LockCall → Prop
  | .lockShared t rid fd => m.HoldsExclusive t rid fd
  | _ => False

instance (m : LockManager) (c : LockCall) : Decidable (Weakens m c) := by
  cases c <;> unfold Weakens <;> infer_instance

/-- A granted exclusive request leaves its transaction with an exclusive lock. -/
theorem Granted.exclusive {t : TxnId} {q q' : LockRequestQueue} (h : Granted t .exclusive q q')
    (hok : RecordOk q) :
    ∃ r ∈ q'.requestQueue, r.txnId = t ∧ r.granted = true ∧ r.lockMode = .exclusive := by
  cases h with
  | held req hr ht hm => exact ⟨req, hr, ht, hok.granted req hr, hm⟩
  | upgrade p hp req hr hpr _ _ =>
    obtain ⟨old, -, hpo, hf⟩ := exists_mem_updateFirst ({ · with lockMode := .exclusive }) hr hpr
    exact ⟨_, hf, (hp old hpo).1, (hp old hpo).2, rfl⟩
  | rewrite p hp g req hr hpr _ _ =>
    obtain ⟨old, -, hpo, hf⟩ := exists_mem_updateFirst
      (fun req => { req with lockMode := .exclusive, granted := true }) hr hpr
    exact ⟨_, hf, hp old hpo, rfl, rfl⟩
  | append g _ _ => exact ⟨_, List.mem_append_right _ (List.mem_singleton_self _), rfl, rfl, rfl⟩

theorem holdsExclusive_lockOnRecord {m : LockManager} (hok : m.RecordsOk) {t : TxnId} {rid : Rid}
    {fd : ℤ} (h : m.HoldsExclusive t rid fd) {t' : TxnId} {rid' : Rid} {fd' : ℤ} {mode : LockMode}
    (hm : mode = .shared ∨ mode = .exclusive)
    (hw : t' = t → rid' = rid → fd' = fd → mode = .exclusive) :
    (m.lockOnRecord t' rid' fd' mode).1.HoldsExclusive t rid fd := by
  rcases lockOnRecord_cases m t' rid' fd' mode with ⟨-, hq⟩ | ⟨hgr, hne, hg⟩
  · unfold LockManager.HoldsExclusive
    rwa [hq]
  by_cases e : LockDataId.record fd rid = .record fd' rid'
  · cases e
    by_cases ht : t' = t
    · subst ht
      obtain rfl := hw rfl rfl rfl
      exact hg.exclusive (hok fd rid)
    · exact absurd hgr (lockOnRecord_refused hok hm ht h)
  · unfold LockManager.HoldsExclusive
    rwa [hne _ e]

/-- The calls that end transaction `t`. -/
def Ends (t : TxnId) (c : LockCall) : Prop := c = .commit t ∨ c = .abort t

instance (t : TxnId) (c : LockCall) : Decidable (Ends t c) :=
  inferInstanceAs (Decidable (c = .commit t ∨ c = .abort t))

theorem holdsExclusive_release {m : LockManager} (hok : m.RecordsOk) {t t' : TxnId} {rid : Rid}
    {fd : ℤ} (hne : t' ≠ t) (h : m.HoldsExclusive t rid fd) :
    (m.releaseAllLocks t').HoldsExclusive t rid fd := by
  obtain ⟨req, hr, rfl, hg, hx⟩ := h
  have hq := (hok fd rid).alone req hr hx
  have := releaseAllLocks_queue (P := fun q => q.requestQueue = [req]) m t' (.record fd rid)
    (fun q e => by simp [LockRequestQueue.updateGroupLockMode, e, hne.symm]) hq
  exact ⟨req, by rw [this]; exact List.mem_singleton_self _, rfl, hg, hx⟩

/-- One call keeps an exclusive lock, unless it ends the holder or weakens the lock. -/
theorem holdsExclusive_step {m m' : LockManager} {c : LockCall} (hs : lockStep m c m')
    (hok : m.RecordsOk) (hw : ¬ Weakens m c) {t : TxnId} {rid : Rid} {fd : ℤ} (he : ¬ Ends t c)
    (h : m.HoldsExclusive t rid fd) : m'.HoldsExclusive t rid fd := by
  subst hs
  cases c with
  | lockShared t' rid' fd' =>
    refine holdsExclusive_lockOnRecord hok h (Or.inl rfl) fun ht hrid hfd => ?_
    subst ht hrid hfd
    exact absurd h hw
  | lockExclusive t' rid' fd' =>
    exact holdsExclusive_lockOnRecord hok h (Or.inr rfl) fun _ _ _ => rfl
  | commit t' => exact holdsExclusive_release hok (fun e => he (Or.inl (by rw [e]))) h
  | abort t' => exact holdsExclusive_release hok (fun e => he (Or.inr (by rw [e]))) h

theorem holdsExclusive_of_granted {m : LockManager} (hok : m.RecordsOk) {t : TxnId} {rid : Rid}
    {fd : ℤ} (h : (m.lockExclusiveOnRecord t rid fd).2 = .ok true) :
    (m.lockExclusiveOnRecord t rid fd).1.HoldsExclusive t rid fd := by
  rcases lockOnRecord_cases m t rid fd .exclusive with ⟨hn, -⟩ | ⟨-, -, hg⟩
  · exact absurd h hn
  · exact hg.exclusive (hok fd rid)

/-! ## Exclusive locks are held to the end -/

/-- The exclusive locks of `t` on a record are held to the end of `t` in the runs of `step`: after a
granted exclusive request and as long as `t` has not ended, `t` still holds the record exclusively
and no request of another transaction for it is granted. -/
def ExclusiveHeldToEnd (step : LockManager → LockCall → LockManager → Prop) (t : TxnId) (rid : Rid)
    (fd : ℤ) : Prop :=
  ∀ (cs cs' : List LockCall) (m m₁ m' : LockManager),
    Run step {} cs m → step m (.lockExclusive t rid fd) m₁ →
    (m.lockExclusiveOnRecord t rid fd).2 = .ok true →
    Run step m₁ cs' m' → (∀ c ∈ cs', ¬ Ends t c) →
    m'.HoldsExclusive t rid fd ∧
    ∀ t', t' ≠ t → (m'.lockSharedOnRecord t' rid fd).2 ≠ .ok true ∧
      (m'.lockExclusiveOnRecord t' rid fd).2 ≠ .ok true

/-- In every run in which no transaction asks for a shared lock on a record that it holds
exclusively, exclusive record locks are held to the end. -/
theorem exclusive_held_to_end_of_not_weakened (t : TxnId) (rid : Rid) (fd : ℤ) :
    ExclusiveHeldToEnd (Meeting (fun m c => ¬ Weakens m c) lockStep) t rid fd := by
  intro cs cs' m m₁ m' hrun hstep hgr hrun' hends
  obtain ⟨-, rfl⟩ := hstep
  have hok : m.RecordsOk := recordsOk_run (hrun.mono fun _ _ _ h => h.2)
  have hok₁ := recordsOk_step m (.lockExclusive t rid fd) _ rfl hok
  -- Both facts together are kept by every step that neither weakens the lock nor ends `t`.
  have hinv : m'.RecordsOk ∧ m'.HoldsExclusive t rid fd :=
    hrun'.invariant_of_labels (P := fun m => m.RecordsOk ∧ m.HoldsExclusive t rid fd)
      (fun s c s' hs he h => ⟨recordsOk_step s c s' hs.2 h.1,
        holdsExclusive_step hs.2 h.1 hs.1 he h.2⟩)
      hends ⟨hok₁, holdsExclusive_of_granted hok hgr⟩
  exact ⟨hinv.2, fun t' ht' => ⟨lockOnRecord_refused hinv.1 (Or.inl rfl) ht' hinv.2,
    lockOnRecord_refused hinv.1 (Or.inr rfl) ht' hinv.2⟩⟩

/-- Transaction 1 gets a record exclusively once transaction 2, which shared it, has ended, and asks
for it again; transaction 3 is refused it and ends. -/
theorem exclusive_held_to_end_asked_again :
    ∃ m', Run (Meeting (fun m c => ¬ Weakens m c) lockStep) {}
      ([.lockShared 1 ⟨1, 0⟩ 3, .lockShared 2 ⟨1, 0⟩ 3, .commit 2] ++ .lockExclusive 1 ⟨1, 0⟩ 3 ::
        [.lockShared 3 ⟨1, 0⟩ 3, .lockExclusive 1 ⟨1, 0⟩ 3, .lockShared 1 ⟨1, 1⟩ 3, .abort 3]) m' ∧
    m'.HoldsExclusive 1 ⟨1, 0⟩ 3 ∧ (m'.lockSharedOnRecord 3 ⟨1, 0⟩ 3).2 ≠ .ok true := by
  let m :=
    List.foldl LockManager.exec {} [.lockShared 1 ⟨1, 0⟩ 3, .lockShared 2 ⟨1, 0⟩ 3, .commit 2]
  have hrun : Run (Meeting (fun m c => ¬ Weakens m c) lockStep) {}
      [.lockShared 1 ⟨1, 0⟩ 3, .lockShared 2 ⟨1, 0⟩ 3, .commit 2] m := Run.of_along (by decide)
  have hstep : Meeting (fun m c => ¬ Weakens m c) lockStep m (.lockExclusive 1 ⟨1, 0⟩ 3)
      (m.exec (.lockExclusive 1 ⟨1, 0⟩ 3)) := ⟨by decide, rfl⟩
  have hrun' : Run (Meeting (fun m c => ¬ Weakens m c) lockStep)
    (m.exec (.lockExclusive 1 ⟨1, 0⟩ 3))
      [.lockShared 3 ⟨1, 0⟩ 3, .lockExclusive 1 ⟨1, 0⟩ 3, .lockShared 1 ⟨1, 1⟩ 3, .abort 3] _ :=
    Run.of_along (by decide)
  have hheld := exclusive_held_to_end_of_not_weakened 1 ⟨1, 0⟩ 3 _ _ _ _ _ hrun hstep
    (by decide) hrun' (by decide)
  exact ⟨_, hrun.append (.cons hstep hrun'), hheld.1, (hheld.2 3 (by decide)).1⟩

/-- Transaction 1 locks a record exclusively and then asks for it in shared mode; transaction 2 is
granted a shared lock on it while transaction 1 is still running. -/
theorem not_exclusive_held_to_end : ¬ ExclusiveHeldToEnd lockStep 1 ⟨1, 0⟩ 3 := by
  intro h
  have := h [] [.lockShared 1 ⟨1, 0⟩ 3] {} _ _ (.nil _) rfl (by decide) (.single rfl) (by decide)
  exact (this.2 2 (by decide)).1 (by decide)

end Rmdb
