import Rmdb.Recovery.LinkedLog
import Rmdb.Transaction.Clients

/-!
# The order of the calls of a statement

Every row operation of a statement is logged, applied to its page and noted in the write set, but
`InsertExecutor`, `DeleteExecutor` and `UpdateExecutor` do these in three different orders.  `Stage`
says how far a transaction has come, `Stage.next` what may come next, and every list of calls of a
client follows it (`conforms_actions`).
-/

namespace Rmdb

open KeyIndex

def LogBody.isData : LogBody → Bool
  | .insert _ _ _ => true
  | .delete _ _ _ => true
  | .update _ _ _ _ => true
  | _ => false

def LogBody.isIndex : LogBody → Bool
  | .indexInsert _ _ _ => true
  | .indexDelete _ _ _ => true
  | _ => false

def LogBody.isDelete : LogBody → Bool
  | .delete _ _ _ => true
  | _ => false

/-- How far a transaction has come with its present operation, or with its end. -/
inductive Progress
  | idle
  /-- The page is changed. -/
  | changed (op : LogBody)
  /-- The record is logged. -/
  | logged (op : LogBody)
  /-- The page is changed and the record is logged. -/
  | applied (op : LogBody)
  /-- The record is logged and the write set has the operation. -/
  | noted (op : LogBody)
  /-- `abort` has `n` records of the write set to undo; `had` is its `had_writes`. -/
  | undoing (n : ℕ) (had : Bool)
  /-- `commit` without writes. -/
  | closing
  /-- The COMMIT or ABORT record is logged, and flushed. -/
  | ended (body : LogBody) (flushed : Bool)
  | finished (state : TransactionState)
deriving DecidableEq

/-- The progress of a transaction; it has logged its BEGIN; it has changed pages since its last
flush of the log. -/
structure Stage where
  begun : Bool
  dirty : Bool
  row : Progress
deriving DecidableEq

namespace Stage

/-- The stage after a call, if the call may come. -/
def next (q : Stage) : Action → Option Stage
  | .lock _ => if q.row = .idle then some q else none
  | .check => if q.row = .idle then some q else none
  | .setTxnMode => if q.row = .idle then some q else none
  | .lockRecord op =>
    match q.row with
    | .idle => some q
    | .logged op' => if op' = op ∧ op.isDelete then some q else none
    | .noted _ => some q
    | _ => none
  | .ensureBegin => if q.row = .idle then some { q with begun := true } else none
  | .addLog body =>
    if q.begun = false then none
    else if body.isData then
      match q.row with
      | .idle => some { q with row := .logged body }
      | .changed op => if op = body then some { q with row := .applied op } else none
      | _ => none
    else if body.isIndex then
      match q.row with
      | .idle => some q
      | .applied _ => some q
      | _ => none
    else
      match q.row, body with
      | .idle, .commit => some { q with row := .ended .commit false }
      | .undoing 0 true, .abort => some { q with row := .ended .abort false, dirty := false }
      | _, _ => none
  | .change op =>
    match q.row with
    | .idle => if op.isData then some { q with row := .changed op, dirty := true } else none
    | .logged op' => if op' = op then some { q with row := .applied op, dirty := true } else none
    | .noted op' => if op' = op then some { q with row := .idle, dirty := true } else none
    | _ => none
  | .appendWriteRecord _ =>
    if q.begun = false then none
    else
      match q.row with
      | .applied _ => some { q with row := .idle }
      | .logged op => some { q with row := .noted op }
      | _ => none
  | .flushLog =>
    match q.row with
    | .idle => some { q with dirty := false }
    | .ended body _ => some { q with row := .ended body true }
    | _ => none
  | .undoWrite =>
    match q.row with
    | .undoing (n + 1) had => some { q with row := .undoing n had }
    | _ => none
  | .clearWriteSet =>
    match q.row with
    | .closing => some q
    | .ended _ true => some q
    | _ => none
  | .flushPages =>
    match q.row with
    | .ended _ true => some q
    | _ => none
  | .finish state =>
    match q.row with
    | .closing => if state = .committed then some { q with row := .finished state } else none
    | .undoing 0 false =>
      if state = .aborted then some { q with row := .finished state, dirty := false } else none
    | .ended .commit true =>
      if state = .committed then some { q with row := .finished state } else none
    | .ended .abort true =>
      if state = .aborted then some { q with row := .finished state } else none
    | _ => none

/-- The stage at the end of a statement, or of the transaction. -/
def Rests (q : Stage) : Prop := q.dirty = false ∧ (q.row = .idle ∨ ∃ state, q.row = .finished state)

/-- The calls follow `next` from the stage `q` on, to a stage that rests. -/
def Conforms (q : Stage) (todo : List Action) : Prop :=
  ∃ q', todo.foldlM next q = some q' ∧ q'.Rests

variable {q q' : Stage} {a : Action} {as todo : List Action}

theorem Conforms.cons (h : q.Conforms (a :: todo)) :
    ∃ q', q.next a = some q' ∧ q'.Conforms todo := by
  obtain ⟨q₂, h, hrests⟩ := h
  rw [List.foldlM_cons] at h
  obtain ⟨q₁, h₁, h₂⟩ := Option.bind_eq_some_iff.1 h
  exact ⟨q₁, h₁, q₂, h₂, hrests⟩

theorem Conforms.append (has : as.foldlM next q = some q') (h : q'.Conforms todo) :
    q.Conforms (as ++ todo) := by
  obtain ⟨q₂, h, hrests⟩ := h
  refine ⟨q₂, ?_, hrests⟩
  rw [List.foldlM_append, has]
  exact h

theorem Rests.conforms_nil (h : q.Rests) : q.Conforms [] :=
  ⟨q, rfl, h⟩

theorem foldlM_stay (h : ∀ a ∈ as, q.next a = some q) : as.foldlM next q = some q := by
  induction as with
  | nil => rfl
  | cons a as ih =>
    rw [List.foldlM_cons, h a List.mem_cons_self]
    exact ih fun b hb => h b (List.mem_cons_of_mem _ hb)

theorem foldlM_trans {bs : List Action} {q'' : Stage} (h : as.foldlM next q = some q')
    (h' : bs.foldlM next q' = some q'') : (as ++ bs).foldlM next q = some q'' := by
  rw [List.foldlM_append, h]
  exact h'

/-! ## What each call needs and does -/

section Inversion

/-- Calls that the stage does not count. -/
theorem next_silent (ha : a = .setTxnMode ∨ Engine.canFail a = true) (h : q.next a = some q') :
    q' = q := by
  rcases ha with rfl | ha
  · simp only [next, Option.ite_none_right_eq_some, Option.some.injEq] at h
    exact h.2.symm
  · cases a with
    | lock req =>
      simp only [next, Option.ite_none_right_eq_some, Option.some.injEq] at h
      exact h.2.symm
    | check =>
      simp only [next, Option.ite_none_right_eq_some, Option.some.injEq] at h
      exact h.2.symm
    | lockRecord op =>
      cases hq : q.row <;> simp [next, hq] at h
      · exact h.symm
      · exact h.2.symm
      · exact h.symm
    | _ => cases ha

/-- A call fails in one of three situations. -/
theorem next_canFail (ha : Engine.canFail a = true) (h : q.next a = some q') :
    q.row = .idle ∨ (∃ op, q.row = .noted op) ∨
      ∃ op, q.row = .logged op ∧ a = .lockRecord op ∧ op.isDelete = true := by
  cases a with
  | lock req =>
    simp only [next, Option.ite_none_right_eq_some] at h
    exact .inl h.1
  | check =>
    simp only [next, Option.ite_none_right_eq_some] at h
    exact .inl h.1
  | lockRecord op =>
    cases hq : q.row <;> simp [next, hq] at h
    · exact .inl rfl
    · obtain ⟨⟨rfl, hd⟩, -⟩ := h
      exact .inr (.inr ⟨_, rfl, rfl, hd⟩)
    · exact .inr (.inl ⟨_, rfl⟩)
  | _ => cases ha

theorem next_ensureBegin (h : q.next .ensureBegin = some q') :
    q.row = .idle ∧ q' = { q with begun := true } := by
  simp only [next, Option.ite_none_right_eq_some, Option.some.injEq] at h
  exact ⟨h.1, h.2.symm⟩

theorem next_addLog {body : LogBody} (h : q.next (.addLog body) = some q') : q.begun = true ∧
    (body.isData = true ∧ q.row = .idle ∧ q' = { q with row := .logged body } ∨
      body.isData = true ∧ q.row = .changed body ∧ q' = { q with row := .applied body } ∨
      body.isIndex = true ∧ (q.row = .idle ∨ ∃ op, q.row = .applied op) ∧ q' = q ∨
      body = .commit ∧ q.row = .idle ∧ q' = { q with row := .ended .commit false } ∨
      body = .abort ∧ q.row = .undoing 0 true ∧
        q' = { q with row := .ended .abort false, dirty := false }) := by
  unfold next at h
  dsimp only at h
  split at h
  · cases h
  · rename_i hb
    refine ⟨by simpa using hb, ?_⟩
    split at h
    · rename_i hdata
      split at h
      · rename_i hq
        exact .inl ⟨hdata, hq, (Option.some.inj h).symm⟩
      · rename_i op hq
        split at h
        · rename_i heq
          subst heq
          exact .inr (.inl ⟨hdata, hq, (Option.some.inj h).symm⟩)
        · cases h
      · cases h
    · split at h
      · rename_i hindex
        split at h
        · rename_i hq
          exact .inr (.inr (.inl ⟨hindex, .inl hq, (Option.some.inj h).symm⟩))
        · rename_i op hq
          exact .inr (.inr (.inl ⟨hindex, .inr ⟨op, hq⟩, (Option.some.inj h).symm⟩))
        · cases h
      · split at h
        · rename_i hq _ _
          exact .inr (.inr (.inr (.inl ⟨rfl, hq, (Option.some.inj h).symm⟩)))
        · rename_i hq _ _
          exact .inr (.inr (.inr (.inr ⟨rfl, hq, (Option.some.inj h).symm⟩)))
        · cases h

theorem next_change {op : LogBody} (h : q.next (.change op) = some q') :
    q.row = .idle ∧ op.isData = true ∧ q' = { q with row := .changed op, dirty := true } ∨
      q.row = .logged op ∧ q' = { q with row := .applied op, dirty := true } ∨
      q.row = .noted op ∧ q' = { q with row := .idle, dirty := true } := by
  cases hq : q.row <;> simp [next, hq] at h
  · exact .inl ⟨rfl, h.1, h.2.symm⟩
  · obtain ⟨rfl, h⟩ := h
    exact .inr (.inl ⟨rfl, h.symm⟩)
  · obtain ⟨rfl, h⟩ := h
    exact .inr (.inr ⟨rfl, h.symm⟩)

theorem next_appendWriteRecord {w : WriteRecord} (h : q.next (.appendWriteRecord w) = some q') :
    q.begun = true ∧ ((∃ op, q.row = .applied op) ∧ q' = { q with row := .idle } ∨
      ∃ op, q.row = .logged op ∧ q' = { q with row := .noted op }) := by
  cases hq : q.row <;> simp [next, hq] at h
  · exact ⟨h.1, .inr ⟨_, rfl, h.2.symm⟩⟩
  · exact ⟨h.1, .inl ⟨⟨_, rfl⟩, h.2.symm⟩⟩

theorem next_flushLog (h : q.next .flushLog = some q') :
    q.row = .idle ∧ q' = { q with dirty := false } ∨
      ∃ body flushed, q.row = .ended body flushed ∧ q' = { q with row := .ended body true } := by
  cases hq : q.row <;> simp [next, hq] at h
  · exact .inl ⟨rfl, h.symm⟩
  · exact .inr ⟨_, _, rfl, h.symm⟩

theorem next_undoWrite (h : q.next .undoWrite = some q') :
    ∃ n had, q.row = .undoing (n + 1) had ∧ q' = { q with row := .undoing n had } := by
  rw [next] at h
  split at h
  · rename_i n had hq
    exact ⟨n, had, hq, (Option.some.inj h).symm⟩
  · cases h

theorem next_clearWriteSet (h : q.next .clearWriteSet = some q') :
    (q.row = .closing ∨ ∃ body, q.row = .ended body true) ∧ q' = q := by
  rw [next] at h
  split at h
  · rename_i hq
    exact ⟨.inl hq, (Option.some.inj h).symm⟩
  · rename_i body hq
    exact ⟨.inr ⟨body, hq⟩, (Option.some.inj h).symm⟩
  · cases h

theorem next_flushPages (h : q.next .flushPages = some q') :
    (∃ body, q.row = .ended body true) ∧ q' = q := by
  rw [next] at h
  split at h
  · rename_i body hq
    exact ⟨⟨body, hq⟩, (Option.some.inj h).symm⟩
  · cases h

theorem next_finish {state : TransactionState} (h : q.next (.finish state) = some q') :
    q.row = .closing ∧ state = .committed ∧ q' = { q with row := .finished state } ∨
      q.row = .undoing 0 false ∧ state = .aborted ∧
        q' = { q with row := .finished state, dirty := false } ∨
      q.row = .ended .commit true ∧ state = .committed ∧ q' = { q with row := .finished state } ∨
      q.row = .ended .abort true ∧ state = .aborted ∧ q' = { q with row := .finished state } := by
  rw [next] at h
  split at h
  · rename_i hq
    simp only [Option.ite_none_right_eq_some, Option.some.injEq] at h
    exact .inl ⟨hq, h.1, h.2.symm⟩
  · rename_i hq
    simp only [Option.ite_none_right_eq_some, Option.some.injEq] at h
    exact .inr (.inl ⟨hq, h.1, h.2.symm⟩)
  · rename_i hq
    simp only [Option.ite_none_right_eq_some, Option.some.injEq] at h
    exact .inr (.inr (.inl ⟨hq, h.1, h.2.symm⟩))
  · rename_i hq
    simp only [Option.ite_none_right_eq_some, Option.some.injEq] at h
    exact .inr (.inr (.inr ⟨hq, h.1, h.2.symm⟩))
  · cases h

end Inversion

/-! ## Parts of statements -/

section Parts

variable (txnMode : Bool) (tabName : String) (tab : TabMeta) (rec : Bytes) (rid : Rid)

theorem next_lock (h : q.row = .idle) (req : RequestedLock) : q.next (.lock req) = some q :=
  if_pos h

theorem foldlM_locks (h : q.row = .idle) (reqs : List RequestedLock) :
    (reqs.map .lock).foldlM next q = some q := by
  refine foldlM_stay fun a ha => ?_
  obtain ⟨req, -, rfl⟩ := List.mem_map.1 ha
  exact next_lock h req

theorem foldlM_gapLocks (h : q.row = .idle) :
    (gapLocks txnMode tabName tab rec).foldlM next q = some q :=
  foldlM_locks h _

theorem foldlM_readLocks (h : q.row = .idle) :
    (readLocks txnMode tabName rid).foldlM next q = some q :=
  foldlM_locks h _

theorem foldlM_checks {α : Type} (h : q.row = .idle) (l : List α) :
    (l.map fun _ => Action.check).foldlM next q = some q := by
  refine foldlM_stay fun a ha => ?_
  obtain ⟨_, -, rfl⟩ := List.mem_map.1 ha
  exact if_pos h

theorem next_index {body : LogBody} (hb : q.begun = true) (hi : body.isIndex = true)
    (h : q.row = .idle ∨ ∃ op, q.row = .applied op) : q.next (.addLog body) = some q := by
  have hd : body.isData = false := by cases body <;> simp_all [LogBody.isIndex, LogBody.isData]
  rcases h with h | ⟨op, h⟩ <;> simp [next, hb, hd, hi, h]

theorem foldlM_logIndexInsert (hb : q.begun = true)
    (h : q.row = .idle ∨ ∃ op, q.row = .applied op) :
    (logIndexInsert tabName tab rec rid).foldlM next q = some q := by
  refine foldlM_stay fun a ha => ?_
  obtain ⟨_, -, rfl⟩ := List.mem_map.1 ha
  exact next_index hb rfl h

theorem foldlM_logIndexDelete (hb : q.begun = true)
    (h : q.row = .idle ∨ ∃ op, q.row = .applied op) :
    (logIndexDelete tabName tab rec rid).foldlM next q = some q := by
  refine foldlM_stay fun a ha => ?_
  obtain ⟨_, -, rfl⟩ := List.mem_map.1 ha
  exact next_index hb rfl h

/-- Rows one after the other. -/
theorem foldlM_rows {α : Type} {f : α → List Action} {P : Stage → Prop}
    (hf : ∀ x q, P q → ∃ q', (f x).foldlM next q = some q' ∧ P q')
    (l : List α) (h : P q) : ∃ q', (l.flatMap f).foldlM next q = some q' ∧ P q' := by
  induction l generalizing q with
  | nil => exact ⟨q, rfl, h⟩
  | cons x l ih =>
    obtain ⟨q₁, h₁, hP₁⟩ := hf x q h
    obtain ⟨q₂, h₂, hP₂⟩ := ih hP₁
    exact ⟨q₂, by rw [List.flatMap_cons]; exact foldlM_trans h₁ h₂, hP₂⟩

theorem conforms_flushLog (h : q.row = .idle) : q.Conforms [.flushLog] :=
  ⟨{ q with dirty := false }, by simp [next, h], rfl, .inl h⟩

theorem conforms_insertActions (h : q.row = .idle) :
    q.Conforms (insertActions txnMode tabName tab rid rec) := by
  have hcheck : [Action.check].foldlM next q = some q := foldlM_checks h [()]
  have hpre := foldlM_trans (foldlM_trans hcheck (foldlM_checks h tab.indexes))
    (foldlM_gapLocks txnMode tabName tab rec h)
  have hop : [Action.ensureBegin, .lockRecord (.insert tabName rid rec),
    .change (.insert tabName rid rec), .addLog (.insert tabName rid rec)].foldlM next q =
        some ⟨true, true, .applied (.insert tabName rid rec)⟩ := by
    simp [next, h, LogBody.isData]
  have hindex := foldlM_logIndexInsert tabName tab rec rid
    (q := ⟨true, true, .applied (.insert tabName rid rec)⟩) rfl (.inr ⟨_, rfl⟩)
  refine Conforms.append (foldlM_trans (foldlM_trans hpre hop) hindex) ?_
  exact ⟨⟨true, false, .idle⟩, rfl, rfl, .inl rfl⟩

theorem foldlM_deleteRowActions (row : Rid × Bytes) (q : Stage) (h : q.row = .idle) :
    ∃ q', (deleteRowActions txnMode tabName tab row).foldlM next q = some q' ∧ q'.row = .idle := by
  have hpre := foldlM_trans (foldlM_readLocks txnMode tabName row.1 h)
    (foldlM_gapLocks txnMode tabName tab row.2 h)
  have hop : [Action.ensureBegin, .addLog (.delete tabName row.1 row.2),
      .lockRecord (.delete tabName row.1 row.2),
        .change (.delete tabName row.1 row.2)].foldlM next q =
        some ⟨true, true, .applied (.delete tabName row.1 row.2)⟩ := by
    simp [next, h, LogBody.isData, LogBody.isDelete]
  have hindex := foldlM_logIndexDelete tabName tab row.2 row.1
    (q := ⟨true, true, .applied (.delete tabName row.1 row.2)⟩) rfl (.inr ⟨_, rfl⟩)
  exact ⟨_, foldlM_trans (foldlM_trans (foldlM_trans hpre hop) hindex) rfl, rfl⟩

theorem conforms_deleteActions (h : q.row = .idle) (rows : List (Rid × Bytes)) :
    q.Conforms (deleteActions txnMode tabName tab rows) := by
  have hcheck : [Action.check].foldlM next q = some q := foldlM_checks h [()]
  obtain ⟨q', hrows, hidle⟩ := foldlM_rows (P := fun q => q.row = .idle)
    (foldlM_deleteRowActions txnMode tabName tab) rows h
  exact Conforms.append (foldlM_trans hcheck hrows) (conforms_flushLog hidle)

theorem foldlM_updateRowActions (c : Change Rid Bytes) (q : Stage)
    (h : q.row = .idle ∧ q.begun = true) :
    ∃ q', (updateRowActions txnMode tabName tab c).foldlM next q = some q' ∧
      (q'.row = .idle ∧ q'.begun = true) := by
  have hlocks := foldlM_trans (foldlM_gapLocks txnMode tabName tab c.old h.1)
    (foldlM_gapLocks txnMode tabName tab c.new h.1)
  have hold := foldlM_logIndexDelete tabName tab c.old c.row h.2 (.inl h.1)
  have hnew := foldlM_logIndexInsert tabName tab c.new c.row h.2 (.inl h.1)
  have hop : [Action.addLog (.update tabName c.row c.old c.new),
      .appendWriteRecord (.updateTuple tabName c.row c.old),
        .lockRecord (.update tabName c.row c.old c.new),
      .change (.update tabName c.row c.old c.new)].foldlM next q = some ⟨true, true, .idle⟩ := by
    simp [next, h, LogBody.isData]
  exact ⟨_, foldlM_trans (foldlM_trans (foldlM_trans hlocks hold) hnew) hop, rfl, rfl⟩

theorem conforms_updateActions (h : q.row = .idle) (changes : List (Change Rid Bytes)) :
    q.Conforms (updateActions txnMode tabName tab changes) := by
  have hbegin : [Action.check, .ensureBegin].foldlM next q = some { q with begun := true } := by
    simp [next, h]
  have hreads : (changes.flatMap fun c => readLocks txnMode tabName c.row ++ [.check]).foldlM next
      { q with begun := true } = some { q with begun := true } := by
    refine foldlM_stay fun a ha => ?_
    obtain ⟨c, -, ha⟩ := List.mem_flatMap.1 ha
    rcases List.mem_append.1 ha with ha | ha
    · obtain ⟨req, -, rfl⟩ := List.mem_map.1 ha
      exact if_pos h
    · rw [List.mem_singleton.1 ha]
      exact if_pos h
  have hchecks : (changes.flatMap fun _ => tab.indexes.map fun _ => Action.check).foldlM next
      { q with begun := true } = some { q with begun := true } := by
    refine foldlM_stay fun a ha => ?_
    obtain ⟨c, -, ha⟩ := List.mem_flatMap.1 ha
    obtain ⟨_, -, rfl⟩ := List.mem_map.1 ha
    exact if_pos h
  obtain ⟨q', hrows, hidle, -⟩ := foldlM_rows (P := fun q => q.row = .idle ∧ q.begun = true)
    (foldlM_updateRowActions txnMode tabName tab) changes
    (q := { q with begun := true }) ⟨h, rfl⟩
  exact Conforms.append (foldlM_trans (foldlM_trans (foldlM_trans hbegin hreads) hchecks) hrows)
    (conforms_flushLog hidle)

end Parts

/-! ## The end of a transaction -/

/-- The stage in which `commit` starts. -/
def committing (q : Stage) (writeSet : List WriteRecord) : Stage :=
  if writeSet = [] then { q with row := .closing } else q

theorem conforms_commitActions (h : q.row = .idle) (hd : q.dirty = false)
    (writeSet : List WriteRecord) : (q.committing writeSet).Conforms (commitActions writeSet) := by
  by_cases hw : writeSet = []
  · rw [committing, if_pos hw, commitActions, if_pos hw]
    exact ⟨{ q with row := .finished .committed }, rfl, hd, .inr ⟨_, rfl⟩⟩
  · rw [committing, if_neg hw, commitActions, if_neg hw]
    refine ⟨⟨true, false, .finished .committed⟩, ?_, rfl, .inr ⟨_, rfl⟩⟩
    simp [next, h, hd, LogBody.isData, LogBody.isIndex]

/-- The stage in which `abort` starts. -/
def aborting (q : Stage) (writeSet : List WriteRecord) : Stage :=
  { q with row := .undoing writeSet.length (writeSet ≠ []) }

theorem foldlM_undoWrite (b d : Bool) (writeSet : List WriteRecord) (had : Bool) :
    (writeSet.map fun _ => Action.undoWrite).foldlM next ⟨b, d, .undoing writeSet.length had⟩ =
      some ⟨b, d, .undoing 0 had⟩ := by
  induction writeSet with
  | nil => rfl
  | cons w writeSet ih => exact ih

theorem conforms_abortActions {writeSet : List WriteRecord} (hb : writeSet ≠ [] → q.begun = true) :
    (q.aborting writeSet).Conforms (abortActions writeSet) := by
  rw [abortActions, List.append_assoc]
  refine Conforms.append (foldlM_undoWrite q.begun q.dirty writeSet _) ?_
  by_cases hw : writeSet = []
  · subst hw
    exact ⟨⟨q.begun, false, .finished .aborted⟩, rfl, rfl, .inr ⟨_, rfl⟩⟩
  · rw [if_neg hw, hb hw, decide_eq_true hw]
    exact ⟨⟨true, false, .finished .aborted⟩, rfl, rfl, .inr ⟨_, rfl⟩⟩

end Stage

end Rmdb
