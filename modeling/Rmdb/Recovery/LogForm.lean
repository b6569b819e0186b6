import Rmdb.Transaction.ClientInv

/-!
# The form of the log

Whatever the clients do and however often the server is restarted, the log is in the form that
recovery relies on: the LSN of a record is its place, the records of a transaction are linked from
its BEGIN to its end, and a run takes no transaction id that an earlier run has written to disk.

`commit` and `abort` log nothing for a transaction whose write set is empty.  A transaction that
`abort` has ended is closed by an ABORT record if it has logged a row operation, with one exception:
`DeleteExecutor::Next` logs its record before `delete_record` asks for the lock, and a transaction
that has written nothing else can be refused this lock.  A transaction of which only the BEGIN is in
the log (an UPDATE that matches no row, a BEGIN that is followed by queries) is not closed at all,
and is one of the losers of every later recovery, whether it has committed or not.
-/

namespace Rmdb

/-- The form of a log that recovery relies on. -/
structure WellFormedLog (logs : List LogRecord) : Prop where
  /-- The LSN of a record is its place. -/
  lsn : ∀ (i : ℕ) (r : LogRecord), logs[i]? = some r → r.lsn = i
  /-- The first record of a transaction is a BEGIN. -/
  first : ∀ l r l', logs = l ++ r :: l' → recordsOf r.logTid l = [] →
    r.body = .begin ∧ r.prevLsn = INVALID_LSN
  /-- Every later one leads to the one before it. -/
  later : ∀ l r l' r', logs = l ++ r :: l' → (recordsOf r.logTid l).getLast? = some r' →
    r.body ≠ .begin ∧ r.prevLsn = r'.lsn
  /-- Nothing follows a COMMIT or ABORT. -/
  ended : ∀ l r l', logs = l ++ r :: l' → r.body = .commit ∨ r.body = .abort →
    ∀ r' ∈ l', r'.logTid ≠ r.logTid

theorem Linked.at_split {l l' : List LogRecord} {r : LogRecord} (h : Linked (l ++ r :: l')) :
    r.lsn = l.length ∧ r.prevLsn = lastLsn l r.logTid ∧
    (r.body = .begin ↔ recordsOf r.logTid l = []) ∧ endedIn l r.logTid = false := by
  have htake := h.take (l.length + 1)
  rw [List.take_append, List.take_of_length_le (Nat.le_succ _), Nat.add_sub_cancel_left] at htake
  exact htake.of_snoc.2

theorem Linked.wellFormedLog {logs : List LogRecord} (h : Linked logs) : WellFormedLog logs := by
  refine ⟨fun i r hi => ?_, ?_, ?_, ?_⟩
  · obtain ⟨hlt, hget⟩ := List.getElem?_eq_some_iff.1 hi
    have hsplit : logs = logs.take i ++ r :: logs.drop (i + 1) := by
      rw [← hget, List.getElem_cons_drop, List.take_append_drop]
    rw [hsplit] at h
    rw [h.at_split.1, List.length_take, min_eq_left hlt.le]
  · rintro l r l' rfl hnil
    obtain ⟨-, hprev, hbegin, -⟩ := h.at_split
    exact ⟨hbegin.2 hnil, hprev.trans (Linked.lastLsn_eq_invalid hnil)⟩
  · rintro l r l' r' rfl hlast
    obtain ⟨-, hprev, hbegin, -⟩ := h.at_split
    refine ⟨fun hb => ?_, ?_⟩
    · rw [hbegin.1 hb] at hlast
      cases hlast
    · rw [hprev, lastLsn, hlast]
      rfl
  · rintro l r l' rfl hb r' hr' hid
    obtain ⟨l₁, l₂, rfl⟩ := List.append_of_mem hr'
    rw [show l ++ r :: (l₁ ++ r' :: l₂) = (l ++ r :: l₁) ++ r' :: l₂ by simp] at h
    have hopen := h.at_split.2.2.2
    have hclosed : endedIn (l ++ r :: l₁) r'.logTid = true := by
      rw [endedIn_iff]
      exact ⟨r, by simp [recordsOf, hid], hb⟩
    rw [hclosed] at hopen
    cases hopen

namespace Engine

variable {s s' : Engine} {t : TxnId} {txn : Transaction}

/-! ## What a step does to the log -/

theorem logRecord_log (s : Engine) (t : TxnId) (txn : Transaction) (body : LogBody) :
    ∃ r : LogRecord, r.logTid = t ∧ (s.logRecord t txn body).log.all = s.log.all ++ [r] :=
  ⟨⟨s.log.globalLsn, t, txn.prevLsn, body⟩, rfl, s.log.all_addLogToBuffer t txn.prevLsn body⟩

theorem logRecord_disk (s : Engine) (t : TxnId) (txn : Transaction) (body : LogBody) :
    s.log.disk <+: (s.logRecord t txn body).log.disk := by
  rcases s.log.disk_addLogToBuffer t txn.prevLsn body with h | h
  · exact h ▸ List.prefix_rfl
  · exact h ▸ List.prefix_append _ _

/-- A call adds at most one record, of its own transaction. -/
theorem perform_log (s : Engine) (t : TxnId) (txn : Transaction) (a : Action) :
    (s.perform t txn a).log.all = s.log.all ∨
      ∃ r : LogRecord, r.logTid = t ∧ (s.perform t txn a).log.all = s.log.all ++ [r] := by
  cases a with
  | ensureBegin =>
    rw [perform]
    split
    · exact .inr (logRecord_log s t txn _)
    · exact .inl rfl
  | addLog body => exact .inr (logRecord_log s t txn body)
  | flushLog => exact .inl s.log.all_flushLogToDisk
  | _ => exact .inl rfl

theorem perform_disk (s : Engine) (t : TxnId) (txn : Transaction) (a : Action) :
    s.log.disk <+: (s.perform t txn a).log.disk := by
  cases a with
  | ensureBegin =>
    rw [perform]
    split
    · exact logRecord_disk s t txn _
    · exact List.prefix_rfl
  | addLog body => exact logRecord_disk s t txn body
  | flushLog => exact List.prefix_append _ _
  | _ => exact List.prefix_rfl

theorem perform_txns (s : Engine) (t : TxnId) (txn : Transaction) (a : Action) :
    ∃ txn', (s.perform t txn a).txns = Function.update s.txns t (some txn') ∧
      (s.perform t txn a).nextTxnId = s.nextTxnId := by
  cases a with
  | ensureBegin =>
    rw [perform]
    split
    · exact ⟨_, rfl, rfl⟩
    · exact ⟨_, rfl, rfl⟩
  | _ => exact ⟨_, rfl, rfl⟩

/-- What was on disk at a restart stays, and what comes after it has later transaction ids. -/
structure Since (old : List LogRecord) (s : Engine) : Prop where
  disk : old <+: s.log.disk
  new : ∀ r ∈ s.log.all.drop old.length, getNextTxnId old ≤ r.logTid
  next : getNextTxnId old ≤ s.nextTxnId
  txns : ∀ t, s.txns t ≠ none → getNextTxnId old ≤ t

theorem Since.setTxn {old : List LogRecord} (h : Since old s) (ht : s.txns t ≠ none)
    (txn : Transaction) : Since old (s.setTxn t txn) := by
  refine ⟨h.disk, h.new, h.next, fun t' ht' => ?_⟩
  by_cases hne : t' = t
  · exact hne ▸ h.txns t ht
  · simp only [Engine.setTxn, Function.update_of_ne hne] at ht'
    exact h.txns t' ht'

theorem Since.perform {old : List LogRecord} (h : Since old s) (ht : s.txns t ≠ none)
    (txn : Transaction) (a : Action) : Since old (s.perform t txn a) := by
  obtain ⟨txn', htxns, hid⟩ := s.perform_txns t txn a
  refine ⟨h.disk.trans (s.perform_disk t txn a), ?_, hid ▸ h.next, fun t' ht' => ?_⟩
  · rcases s.perform_log t txn a with hlog | ⟨r, hr, hlog⟩
    · rw [hlog]
      exact h.new
    · rw [hlog]
      intro r' hr'
      have hle : old.length ≤ s.log.all.length := (h.disk.trans (List.prefix_append _ _)).length_le
      rw [List.drop_append_of_le_length hle] at hr'
      rcases List.mem_append.1 hr' with hr' | hr'
      · exact h.new r' hr'
      · rw [List.mem_singleton.1 hr', hr]
        exact h.txns t ht
  · by_cases hne : t' = t
    · exact hne ▸ h.txns t ht
    · rw [htxns, Function.update_of_ne hne] at ht'
      exact h.txns t' ht'

theorem Since.step {old : List LogRecord} {op : EngineOp} (h : Since old s)
    (hstep : s.step op = some s') : Since old s' := by
  cases op with
  | begin =>
    cases hstep
    refine ⟨h.disk, h.new, h.next.trans (lt_add_one s.nextTxnId).le, fun t ht => ?_⟩
    by_cases hne : t = s.nextTxnId
    · exact hne ▸ h.next
    · simp only [Engine.setTxn, Function.update_of_ne hne] at ht
      exact h.txns t ht
  | start t req =>
    simp only [Engine.step] at hstep
    split at hstep
    · cases hstep
    · rename_i txn ht
      split at hstep
      · cases hstep
        exact h.setTxn (by simp [ht]) _
      · cases hstep
  | act t =>
    simp only [Engine.step] at hstep
    split at hstep
    · cases hstep
    · rename_i txn ht
      split at hstep
      · cases hstep
      · cases hstep
        exact h.perform (by simp [ht]) _ _
  | fail t =>
    simp only [Engine.step] at hstep
    split at hstep
    · cases hstep
    · rename_i txn ht
      split at hstep
      · cases hstep
      · split at hstep
        · cases hstep
          exact h.setTxn (by simp [ht]) _
        · cases hstep
  | writeBack page =>
    cases hstep
    exact ⟨h.disk, h.new, h.next, h.txns⟩
  | restart =>
    cases hstep
    have hall : (LogManager.reopen s.log.disk).all = s.log.disk := List.append_nil _
    refine ⟨h.disk, ?_, getNextTxnId_mono h.disk, fun t ht => absurd rfl ht⟩
    intro r hr
    have hdrop : s.log.disk.drop old.length <+: s.log.all.drop old.length :=
      (List.prefix_append s.log.disk s.log.buffer).drop _
    exact h.new r (hdrop.subset (hall ▸ hr))

theorem since_restart (hstep : s.step .restart = some s') : Since s.log.disk s' := by
  cases hstep
  have hall : (LogManager.reopen s.log.disk).all = s.log.disk := List.append_nil _
  refine ⟨List.prefix_rfl, ?_, le_rfl, fun t ht => absurd rfl ht⟩
  intro r hr
  simp [hall] at hr

/-! ## The log is well formed -/

/-- In every run, with any number of restarts, the log on disk followed by the buffer is well
formed, no transaction id is in the records of two runs, and recovery can read the log. -/
theorem log_well_formed {ops : List EngineOp} (h : Run Steps {} ops s) : WellFormedLog s.log.all ∧
    (∀ (ops₁ ops₂ : List EngineOp) (s₁ s₂ : Engine), Run Steps {} ops₁ s₁ → Steps s₁ .restart s₂ →
      Run Steps s₂ ops₂ s → s₁.log.disk <+: s.log.disk ∧
        ∀ r ∈ s₁.log.disk, ∀ r' ∈ s.log.disk.drop s₁.log.disk.length, r'.logTid ≠ r.logTid) ∧
    (analyze s.log.disk).isSome ∧
    ∀ now log, lastLog s.log.disk now = some log → log.prevLsn < now := by
  have hinv : Inv NoEnd s := .of_run h (inv_init NoEnd)
  have hdisk : Linked s.log.disk := by
    have htake := hinv.linked.take s.log.disk.length
    rwa [LogManager.all, List.take_left] at htake
  refine ⟨hinv.linked.wellFormedLog, ?_, ?_, fun now log => hdisk.prevLsn_lt⟩
  · intro ops₁ ops₂ s₁ s₂ _ hrestart hafter
    have hsince : Since s₁.log.disk s :=
      hafter.invariant (fun _ _ _ hstep hs => hs.step hstep) (since_restart hrestart)
    refine ⟨hsince.disk, fun r hr r' hr' hid => ?_⟩
    have hdrop : s.log.disk.drop s₁.log.disk.length <+: s.log.all.drop s₁.log.disk.length :=
      (List.prefix_append s.log.disk s.log.buffer).drop _
    have hge := hsince.new r' (hdrop.subset hr')
    exact absurd (logTid_lt_getNextTxnId hr) (not_lt.2 (hid ▸ hge))
  · obtain ⟨a, ha, -⟩ := hdisk.analyze
    rw [ha]
    rfl

/-- One client inserts a record and commits, and the server is restarted. -/
def insertCommitRestart : List EngineOp :=
  .begin :: .start 0 (.insert "t" ⟨"t", [], []⟩ ⟨1, 0⟩ [1]) :: List.replicate 7 (.act 0) ++
    .start 0 .commit :: List.replicate 6 (.act 0) ++ [.restart]

theorem log_well_formed_insert : ∃ s, Run Steps {} insertCommitRestart s ∧ s.log.disk.length = 3 ∧
    WellFormedLog s.log.all := by
  obtain ⟨s, hrun, hlen⟩ : ∃ s, Run Steps {} insertCommitRestart s ∧
    decide (s.log.disk.length = 3) :=
    exists_run (by decide +kernel)
  exact ⟨s, hrun, of_decide_eq_true hlen, (log_well_formed hrun).1⟩

/-! ## Aborted transactions -/

/-- Every aborted transaction with an INSERT, UPDATE or DELETE record in the log has its ABORT
record there. -/
def AbortsClosed (s : Engine) : Prop :=
  ∀ t txn, s.txns t = some txn → txn.state = .aborted →
    (∃ r ∈ s.log.all, r.logTid = t ∧ r.body.isData = true) → abortedIn s.log.all t

/-- Every transaction that recovery would treat as a loser is active, and so is every one that is
active, not about to end, and known to the log on disk. -/
def LosersActive (s : Engine) : Prop :=
  ∃ a, analyze s.log.disk = some a ∧
    (∀ t, a.IsLoser t → ∃ txn, s.txns t = some txn ∧ txn.state = .growing) ∧
    ∀ t txn, s.txns t = some txn → txn.state = .growing → (∀ state, .finish state ∉ txn.todo) →
      (∃ r ∈ s.log.disk, r.logTid = t) → a.IsLoser t

/-- No transaction with an empty write set is refused the lock of `delete_record`. -/
def NoSilentDelete (s : Engine) : EngineOp → Prop
  | .fail t => ∀ txn op todo, s.txns t = some txn → txn.todo = .lockRecord op :: todo →
      op.isDelete = true → txn.writeSet ≠ []
  | _ => True

/-- At a restart every transaction of the log on disk has an end there. -/
def EndedAtRestart (s : Engine) : EngineOp → Prop
  | .restart => ∀ r ∈ s.log.disk, endedIn s.log.disk r.logTid = true
  | _ => True

/-- No transaction that has a record in the log starts to commit or to roll back with an empty write
set, and the server is not restarted while the log on disk has a transaction without an end. -/
def NoSilentEnd (s : Engine) (op : EngineOp) : Prop :=
  s.EndsAfterWrites (· ≠ []) op ∧ s.EndedAtRestart op

instance (s : Engine) : ∀ op, Decidable (s.EndedAtRestart op)
  | .restart => inferInstanceAs (Decidable (∀ r ∈ s.log.disk, endedIn s.log.disk r.logTid = true))
  | .begin => isTrue trivial
  | .start _ _ => isTrue trivial
  | .act _ => isTrue trivial
  | .fail _ => isTrue trivial
  | .writeBack _ => isTrue trivial

instance (s : Engine) (op : EngineOp) : Decidable (s.NoSilentEnd op) :=
  inferInstanceAs (Decidable (_ ∧ _))

theorem dataOps_ne_nil {logs : List LogRecord}
    (h : ∃ r ∈ logs, r.logTid = t ∧ r.body.isData = true) : dataOps (recordsOf t logs) ≠ [] := by
  obtain ⟨r, hr, hid, hd⟩ := h
  refine List.ne_nil_of_mem (a := r.body) (List.mem_filter.2 ⟨List.mem_map_of_mem ?_, hd⟩)
  exact List.mem_filter.2 ⟨hr, by simpa using hid⟩

/-- After the end record only `finish` leads to rest. -/
theorem finish_mem_of_ended {q : Stage} {body : LogBody} {flushed : Bool} {todo : List Action}
    (h : q.Conforms todo) (hq : q.row = .ended body flushed) : ∃ state, .finish state ∈ todo := by
  induction todo generalizing q flushed with
  | nil =>
    obtain ⟨q', hq', -, hrow⟩ := h
    cases hq'
    simp [hq] at hrow
  | cons a todo ih =>
    obtain ⟨q', hnext, hconf⟩ := h.cons
    by_cases ha : ∃ state, a = .finish state
    · obtain ⟨state, rfl⟩ := ha
      exact ⟨state, List.mem_cons_self⟩
    · have hrow : ∃ flushed', q'.row = .ended body flushed' := by
        cases a with
        | finish state => exact absurd ⟨state, rfl⟩ ha
        | flushLog =>
          simp only [Stage.next, hq, Option.some.injEq] at hnext
          exact ⟨true, hnext ▸ rfl⟩
        | clearWriteSet =>
          obtain ⟨-, rfl⟩ := Stage.next_clearWriteSet hnext
          exact ⟨flushed, hq⟩
        | flushPages =>
          obtain ⟨-, rfl⟩ := Stage.next_flushPages hnext
          exact ⟨flushed, hq⟩
        | addLog body' =>
          obtain ⟨-, hcases⟩ := Stage.next_addLog hnext
          simp [hq] at hcases
        | _ => simp [Stage.next, hq] at hnext
      obtain ⟨flushed', hrow⟩ := hrow
      obtain ⟨state, hmem⟩ := ih hconf hrow
      exact ⟨state, List.mem_cons_of_mem _ hmem⟩

/-- A transaction is open, or about to end, or has ended. -/
theorem rowInv_cases {mustEnd : List LogRecord → Prop} {recs disk : List LogRecord} {p : Progress}
    (h : RowInv mustEnd recs disk txn p) : ¬ HasEnd recs ∧ txn.state = .growing ∨
      (∃ body flushed, p = .ended body flushed) ∧ txn.state = .growing ∨
      p = .finished txn.state ∧ (txn.state = .committed ∨ txn.state = .aborted) := by
  cases p with
  | idle => exact .inl h.2.2
  | changed op => exact .inl h.2.2.2
  | logged op => exact .inl h.2.2.2
  | applied op => exact .inl h.2.2
  | noted op => exact .inl h.2.2.2
  | undoing n had => exact .inl h.2.2.2
  | closing => exact .inl h.2
  | ended body flushed => exact .inr (.inl ⟨⟨body, flushed, rfl⟩, h.2.2.2⟩)
  | finished state =>
    obtain ⟨rfl, hended, -⟩ := h
    exact .inr (.inr ⟨rfl, hended⟩)

/-- A transaction that had to end and has ended has its end on disk. -/
theorem Inv.endedIn_disk {mustEnd : List LogRecord → Prop} (h : Inv mustEnd s)
    (ht : s.txns t = some txn)
    (hstate : txn.state ≠ .growing) (hm : mustEnd (recordsOf t s.log.all)) :
    txn.state = .committed ∧ committedIn s.log.disk t ∨ txn.state = .aborted ∧
    abortedIn s.log.disk t := by
  obtain ⟨q, -, htracks⟩ := h.txns t txn ht
  have hrow := htracks.row
  obtain ⟨-, hgrowing⟩ | ⟨-, hgrowing⟩ | ⟨hq, -⟩ := rowInv_cases hrow
  · exact absurd hgrowing hstate
  · exact absurd hgrowing hstate
  rw [hq] at hrow
  obtain ⟨-, hended, hcommitted, haborted⟩ := hrow
  rcases hended with hst | hst
  · exact .inl ⟨hst, committedIn_iff.2 (hcommitted hst hm)⟩
  · exact .inr ⟨hst, abortedIn_iff.2 (haborted hst hm)⟩

theorem Inv.abortsClosed {mustEnd : List LogRecord → Prop} (h : Inv mustEnd s)
    (hmust : ∀ recs, dataOps recs ≠ [] → mustEnd recs) : AbortsClosed s := by
  intro t txn ht hstate hd
  have hsub : s.log.disk <+: s.log.all := List.prefix_append _ _
  rcases h.endedIn_disk ht (by simp [hstate]) (hmust _ (dataOps_ne_nil hd)) with ⟨hst, -⟩ | ⟨-, hab⟩
  · rw [hst] at hstate
    cases hstate
  · obtain ⟨r, hr, hb⟩ := abortedIn_iff.1 hab
    exact abortedIn_iff.2 ⟨r, (hsub.filter _).subset hr, hb⟩

/-- An active transaction has no end in the log, unless it is about to end. -/
theorem Inv.not_endedIn {mustEnd : List LogRecord → Prop} (h : Inv mustEnd s)
    (ht : s.txns t = some txn)
    (hstate : txn.state = .growing) (hfinish : ∀ state, .finish state ∉ txn.todo) :
    ¬ HasEnd (recordsOf t s.log.all) := by
  obtain ⟨q, hconf, htracks⟩ := h.txns t txn ht
  rcases rowInv_cases htracks.row with ⟨hnone, -⟩ | ⟨⟨body, flushed, hq⟩, -⟩ | ⟨-, hst⟩
  · exact hnone
  · obtain ⟨state, hmem⟩ := finish_mem_of_ended hconf hq
    exact absurd hmem (hfinish state)
  · simp [hstate] at hst

/-- The transactions of the log are those of this run, and others that have ended. -/
def OthersEnded (s : Engine) : Prop :=
  ∀ r ∈ s.log.all, s.txns r.logTid ≠ none ∨ endedIn s.log.disk r.logTid = true

theorem endedIn_mono {logs logs' : List LogRecord} (h : logs <+: logs')
    (hend : endedIn logs t = true) : endedIn logs' t = true := by
  rw [endedIn_iff] at hend ⊢
  obtain ⟨r, hr, hb⟩ := hend
  exact ⟨r, (h.filter _).subset hr, hb⟩

theorem OthersEnded.setTxn (h : OthersEnded s) (txn : Transaction) :
    OthersEnded (s.setTxn t txn) := by
  intro r hr
  refine (h r hr).imp_left fun hsome => ?_
  by_cases hid : r.logTid = t
  · simp [Engine.setTxn, hid]
  · simpa only [Engine.setTxn, Function.update_of_ne hid] using hsome

theorem OthersEnded.perform (h : OthersEnded s) (txn : Transaction) (a : Action) :
    OthersEnded (s.perform t txn a) := by
  obtain ⟨txn', htxns, -⟩ := s.perform_txns t txn a
  have hself : (s.perform t txn a).txns t ≠ none := by simp [htxns]
  have hold : ∀ r ∈ s.log.all, (s.perform t txn a).txns r.logTid ≠ none ∨
      endedIn (s.perform t txn a).log.disk r.logTid = true := by
    intro r hr
    refine (h r hr).imp (fun hsome => ?_) (endedIn_mono (s.perform_disk t txn a))
    by_cases hid : r.logTid = t
    · rwa [hid]
    · rwa [htxns, Function.update_of_ne hid]
  intro r hr
  rcases s.perform_log t txn a with hlog | ⟨r', hr', hlog⟩ <;> rw [hlog] at hr
  · exact hold r hr
  · rcases List.mem_append.1 hr with hr | hr
    · exact hold r hr
    · rw [List.mem_singleton.1 hr, hr']
      exact .inl hself

theorem OthersEnded.step {op : EngineOp} (h : OthersEnded s) (hstep : s.step op = some s')
    (hrestart : s.EndedAtRestart op) : OthersEnded s' := by
  cases op with
  | begin =>
    cases hstep
    exact OthersEnded.setTxn (s := { s with nextTxnId := s.nextTxnId + 1 }) h _
  | start t req =>
    simp only [Engine.step] at hstep
    split at hstep
    · cases hstep
    · split at hstep
      · cases hstep
        exact h.setTxn _
      · cases hstep
  | act t =>
    simp only [Engine.step] at hstep
    split at hstep
    · cases hstep
    · split at hstep
      · cases hstep
      · cases hstep
        exact h.perform _ _
  | fail t =>
    simp only [Engine.step] at hstep
    split at hstep
    · cases hstep
    · split at hstep
      · cases hstep
      · split at hstep
        · cases hstep
          exact h.setTxn _
        · cases hstep
  | writeBack page =>
    cases hstep
    exact h
  | restart =>
    cases hstep
    have hall : (LogManager.reopen s.log.disk).all = s.log.disk := List.append_nil _
    intro r hr
    exact .inr (hrestart r (hall ▸ hr))

theorem Inv.losersActive (h : Inv (· ≠ []) s) (hothers : OthersEnded s) : LosersActive s := by
  have hdisk : Linked s.log.disk := by
    have htake := h.linked.take s.log.disk.length
    rwa [LogManager.all, List.take_left] at htake
  have hsub : s.log.disk <+: s.log.all := List.prefix_append _ _
  obtain ⟨a, ha, -, hatt, hcommitted, haborted, -⟩ := hdisk.analyze
  have hloser (t : TxnId) : a.IsLoser t ↔ recordsOf t s.log.disk ≠ [] ∧
      ¬ endedIn s.log.disk t = true := by
    rw [Analysis.IsLoser, hcommitted, haborted, endedIn, Bool.or_eq_true, not_or]
    refine and_congr_left' ⟨fun hmem => ?_, fun hne => ?_⟩
    · obtain ⟨e, he, rfl⟩ := List.mem_map.1 hmem
      exact ((hatt e).1 he).1
    · exact List.mem_map.2 ⟨(t, lastLsn s.log.disk t), (hatt _).2 ⟨hne, rfl⟩, rfl⟩
  refine ⟨a, ha, fun t ht => ?_, fun t txn ht hstate hfinish hrec => ?_⟩
  · obtain ⟨hrecs, hopen⟩ := (hloser t).1 ht
    obtain ⟨r, hr⟩ := List.exists_mem_of_ne_nil _ hrecs
    have hid : r.logTid = t := of_decide_eq_true (List.mem_filter.1 hr).2
    obtain ⟨txn, htxn⟩ : ∃ txn, s.txns t = some txn := by
      have hknown := hothers r (hsub.subset (List.mem_of_mem_filter hr))
      rw [hid] at hknown
      exact Option.ne_none_iff_exists'.1 (hknown.resolve_right hopen)
    refine ⟨txn, htxn, ?_⟩
    by_contra hstate
    have hne : recordsOf t s.log.all ≠ [] := List.ne_nil_of_mem ((hsub.filter _).subset hr)
    refine hopen ?_
    rw [endedIn, Bool.or_eq_true]
    exact (h.endedIn_disk htxn hstate hne).imp And.right And.right
  · obtain ⟨r, hr, hid⟩ := hrec
    refine (hloser t).2 ⟨List.ne_nil_of_mem (List.mem_filter.2 ⟨hr, by simpa using hid⟩),
      fun hend => ?_⟩
    exact h.not_endedIn ht hstate hfinish (endedIn_iff.1 (endedIn_mono hsub hend))

/-- Without a refused first DELETE a transaction with a row operation in the log has a write set
when it starts to end. -/
theorem Inv.endsAfterWrites {mustEnd : List LogRecord → Prop} {op : EngineOp} (h : Inv mustEnd s)
    (hstep : s.step op = some s') (hdelete : s.NoSilentDelete op) :
    s.EndsAfterWrites (fun recs => dataOps recs ≠ []) op := by
  intro t hends txn ht hd hw
  rw [Option.mem_def] at hends ht
  obtain ⟨q, hconf, htracks⟩ := h.txns t txn ht
  have hrow := htracks.row
  have hlen : (dataOps (recordsOf t s.log.all)).length ≠ txn.writeSet.length := fun hlen =>
    hd (List.eq_nil_of_length_eq_zero (hlen.trans (by rw [hw]; rfl)))
  cases op with
  | start t' req =>
    have hid : t' = t := by
      rw [EngineOp.ends?] at hends
      split at hends
      · exact Option.some.inj hends
      · cases hends
    subst hid
    simp only [Engine.step, ht] at hstep
    split at hstep
    · rename_i hready
      rw [hready.1] at hconf
      rw [(htracks.idle_of_nil hconf hready.2).1] at hrow
      exact hlen hrow.1
    · cases hstep
  | fail t' =>
    obtain rfl : t' = t := Option.some.inj hends
    simp only [Engine.step, ht] at hstep
    split at hstep
    · cases hstep
    · rename_i a todo htodo
      split at hstep
      · rename_i hfail
        rw [htodo] at hconf
        obtain ⟨q', hq, -⟩ := hconf.cons
        obtain hidle | ⟨op, hnoted⟩ | ⟨op, -, rfl, hdel⟩ := Stage.next_canFail hfail hq
        · rw [hidle] at hrow
          exact hlen hrow.1
        · rw [hnoted] at hrow
          exact hlen hrow.1
        · exact hdelete txn op todo ht htodo hdel hw
      · cases hstep
  | _ => cases hends

/-- In every run in which no transaction with an empty write set is refused the lock of
`delete_record`, every aborted transaction is closed in the log.  In every run in which no
transaction that has logged a record ends with an empty write set, and at every restart all have
ended, the losers are those that are active too. -/
theorem aborts_logged_of_no_silent_end {ops : List EngineOp} :
    (Run (Meeting NoSilentDelete Steps) {} ops s → AbortsClosed s) ∧
    (Run (Meeting NoSilentEnd Steps) {} ops s → AbortsClosed s ∧ LosersActive s) := by
  constructor
  · intro h
    have hinv : Inv (fun recs => dataOps recs ≠ []) s :=
      h.invariant (fun _ _ _ hstep hinv => hinv.step hstep.2 (hinv.endsAfterWrites hstep.2 hstep.1))
        (inv_init _)
    exact hinv.abortsClosed fun _ => id
  · intro h
    have hinv : Inv (· ≠ []) s := h.invariant (fun _ _ _ hstep hinv => hinv.step hstep.2 hstep.1.1)
      (inv_init _)
    have hothers : OthersEnded s :=
      h.invariant (fun _ _ _ hstep hs => hs.step hstep.2 hstep.1.2) fun r hr => by cases hr
    refine ⟨hinv.abortsClosed fun recs hd hnil => hd ?_, hinv.losersActive hothers⟩
    rw [hnil]
    rfl

/-- A client inserts a record and commits, and the server is restarted; a client inserts a record
and rolls back, and one inserts a record and goes on. -/
def insertAbort : List EngineOp :=
  insertCommitRestart ++
    .begin :: .start 1 (.insert "t" ⟨"t", [], []⟩ ⟨1, 1⟩ [2]) :: List.replicate 7 (.act 1) ++
    .start 1 .abort :: List.replicate 4 (.act 1) ++
    .begin :: .start 2 (.insert "t" ⟨"t", [], []⟩ ⟨1, 1⟩ [3]) :: List.replicate 7 (.act 2)

theorem aborts_logged_insert : ∃ s, Run (Meeting NoSilentDelete Steps) {} insertAbort s ∧
    Run (Meeting NoSilentEnd Steps) {} insertAbort s ∧
    (s.txns 1).any (·.state = .aborted) = true ∧ (s.txns 2).any (·.state = .growing) = true ∧
    AbortsClosed s ∧ LosersActive s := by
  obtain ⟨s, hrun, hstates⟩ : ∃ s, Run (Meeting NoSilentEnd Steps) {} insertAbort s ∧
      ((s.txns 1).any (·.state = .aborted) && (s.txns 2).any (·.state = .growing)) = true :=
    Run.exists_meeting step NoSilentEnd {} insertAbort _ (by decide +kernel)
  have hmeet : Run (Meeting NoSilentDelete Steps) {} insertAbort s := by
    refine (hrun.mono fun _ _ _ hstep => hstep.2).meeting fun op hop s => ?_
    cases op with
    | fail t => simp [insertAbort, insertCommitRestart] at hop
    | _ => trivial
  obtain ⟨haborted, hgrowing⟩ := Bool.and_eq_true_iff.1 hstates
  exact ⟨s, hmeet, hrun, haborted, hgrowing, aborts_logged_of_no_silent_end.1 hmeet,
    (aborts_logged_of_no_silent_end.2 hrun).2⟩

/-- A client is refused the lock of the first record that it deletes. -/
theorem not_aborts_logged : ¬ ∀ (ops : List EngineOp) (s : Engine), Run Steps {} ops s →
    AbortsClosed s ∧ LosersActive s := by
  intro h
  obtain ⟨s, hrun, hbad⟩ : ∃ s, Run Steps {} [.begin,
    .start 0 (.delete "t" ⟨"t", [], []⟩ [] [(⟨1, 0⟩, [1])]),
      .act 0, .act 0, .act 0, .fail 0, .act 0] s ∧
      ((s.txns 0).any (·.state = .aborted) && s.log.all.any
        (fun r => r.logTid = 0 ∧ r.body.isData = true) &&
        !abortedIn s.log.all 0) = true := exists_run (by decide +kernel)
  simp only [Bool.and_eq_true, Option.any_eq_true, List.any_eq_true, decide_eq_true_eq,
    Bool.not_eq_true'] at hbad
  obtain ⟨⟨⟨txn, ht, hstate⟩, hdata⟩, hnot⟩ := hbad
  rw [(h _ s hrun).1 0 txn ht hstate hdata] at hnot
  cases hnot

end Engine

end Rmdb
