import Rmdb.Lib.Serial
import Rmdb.Lib.UndoRedo
import Rmdb.Transaction.ScanLocks

/-!
# Explicit transactions are serializable

Transactions between BEGIN and COMMIT or ABORT, interleaved at the calls of `RmFileHandle` and
`SeqScanExecutor::beginTuple`: a scan locks its table in shared mode, `get_record` its record in
shared mode, and `insert_record`, `update_record` and `delete_record` their record in exclusive
mode, and all locks are held until `release_all_locks`.  `TransactionManager::abort` takes the write
set back from its end.

In a run in which no lock is weakened and no scan let in while another transaction has changed the
table, the history is serial in the order of the commits: the committed transactions, run one after
another, read what they have read and leave what they have left.
-/

namespace Rmdb

/-- Where a record is: the descriptor of its file and its record id. -/
abbrev Place := ℤ × Rid

abbrev Rows := Place → Option Bytes

/-! ## What a transaction does to the records -/

/-- What a call has done, with what it has read: a free slot has no record. -/
inductive RowEvent
  | read (x : Place) (v : Option Bytes)
  | scan (fd : ℤ) (content : Rid → Option Bytes)
  | write (x : Place) (old new : Option Bytes)
  | undo (x : Place) (cur old : Option Bytes)

namespace RowEvent

/-- The records that the event has come upon. -/
def sees : RowEvent → Place → Option (Option Bytes)
  | .read x v, y => if y = x then some v else none
  | .scan fd content, y => if y.1 = fd then some (content y.2) else none
  | .write x old _, y => if y = x then some old else none
  | .undo x cur _, y => if y = x then some cur else none

/-- The record that the event leaves. -/
def puts : RowEvent → Option (Place × Option Bytes)
  | .read _ _ => none
  | .scan _ _ => none
  | .write x _ new => some (x, new)
  | .undo x _ old => some (x, old)

def apply (e : RowEvent) (rows : Rows) : Rows :=
  match e.puts with
  | none => rows
  | some (x, v) => Function.update rows x v

/-- The event is a step of the states that hold what it has come upon. -/
def Step (rows : Rows) (e : RowEvent) (rows' : Rows) : Prop :=
  (∀ x v, e.sees x = some v → rows x = v) ∧ rows' = e.apply rows

/-- What the transaction knows of a record after the event. -/
def shows (e : RowEvent) (x : Place) : Option (Option Bytes) :=
  match e.puts with
  | none => e.sees x
  | some (y, v) => if x = y then some v else e.sees x

/-- The write set before and after the event. -/
def Stacks (w : List (Place × Option Bytes)) (e : RowEvent) (w' : List (Place × Option Bytes)) :
    Prop :=
  match e with
  | .read _ _ => w' = w
  | .scan _ _ => w' = w
  | .write x old _ => w' = (x, old) :: w
  | .undo x _ old => w = (x, old) :: w'

variable {e e' : RowEvent} {es : List RowEvent} {rows rows' : Rows} {x : Place} {v : Option Bytes}
  {w w' : List (Place × Option Bytes)}

theorem sees_of_puts (h : e.puts = some (x, v)) : e.sees x ≠ none := by
  cases e with
  | read _ _ => cases h
  | scan _ _ => cases h
  | write y old new =>
    cases h
    simp [sees]
  | undo y cur old =>
    cases h
    simp [sees]

theorem apply_of_ne (h : ∀ v, e.puts ≠ some (x, v)) : e.apply rows x = rows x := by
  cases hputs : e.puts with
  | none => simp only [apply, hputs]
  | some p =>
    simp only [apply, hputs]
    refine Function.update_of_ne ?_ _ _
    rintro rfl
    exact h p.2 hputs

theorem apply_of_puts (h : e.puts = some (x, v)) : e.apply rows x = v := by
  simp [apply, h]

/-- Events on records of which neither changes one that the other has come upon. -/
theorem movesLeft (h : ∀ x v, e.puts = some (x, v) → e'.sees x = none)
    (h' : ∀ x v, e'.puts = some (x, v) → e.sees x = none) : History.MovesLeft Step e e' := by
  rintro s _ _ ⟨hsees, rfl⟩ ⟨hsees', rfl⟩
  have hkeep {x : Place} (hx : e'.sees x ≠ none) : e.apply s x = s x :=
    apply_of_ne fun v hv => hx (h x v hv)
  have hkeep' {x : Place} (hx : e.sees x ≠ none) : e'.apply s x = s x :=
    apply_of_ne fun v hv => hx (h' x v hv)
  refine ⟨e'.apply s, ⟨fun x v hv => ?_, rfl⟩, fun x v hv => ?_, ?_⟩
  · rw [← hkeep (by simp [hv])]
    exact hsees' x v hv
  · rw [hkeep' (by simp [hv])]
    exact hsees x v hv
  · cases hputs : e.puts with
    | none => simp only [apply, hputs]
    | some p =>
      cases hputs' : e'.puts with
      | none => simp only [apply, hputs, hputs']
      | some p' =>
        have hne : p'.1 ≠ p.1 := by
          intro heq
          exact sees_of_puts (x := p'.1) (v := p'.2) hputs' (heq ▸ h p.1 p.2 hputs)
        simp only [apply, hputs, hputs']
        exact Function.update_comm hne.symm _ _ _

/-! ## What a transaction knows -/

/-- What a transaction knows of a record after its events. -/
def seen (x : Place) (es : List RowEvent) : Option (Option Bytes) :=
  es.foldl (fun known e => (e.shows x).or known) none

theorem seen_append (es : List RowEvent) (e : RowEvent) :
    seen x (es ++ [e]) = (e.shows x).or (seen x es) := by
  rw [seen, List.foldl_append]
  rfl

theorem exists_sees_of_seen (h : seen x es ≠ none) : ∃ e ∈ es, e.sees x ≠ none := by
  induction es using List.reverseRecOn with
  | nil => exact absurd rfl h
  | append_singleton es e ih =>
    by_cases he : e.sees x = none
    · have hshows : e.shows x = none := by
        unfold shows
        split
        · exact he
        · next y v hputs =>
          rw [if_neg, he]
          rintro rfl
          exact sees_of_puts hputs he
      rw [seen_append, hshows, Option.none_or] at h
      obtain ⟨e', hmem, hsees⟩ := ih h
      exact ⟨e', List.mem_append_left _ hmem, hsees⟩
    · exact ⟨e, List.mem_append_right _ (List.mem_singleton_self e), he⟩

theorem eq_of_shows (h : Step rows e rows') (hx : e.shows x = some v) : rows' x = v := by
  obtain ⟨hsees, rfl⟩ := h
  cases hputs : e.puts with
  | none =>
    simp only [shows, hputs] at hx
    rw [apply_of_ne (by simp [hputs])]
    exact hsees x v hx
  | some p =>
    simp only [shows, hputs] at hx
    split at hx
    · next heq =>
      subst heq
      cases hx
      exact apply_of_puts hputs
    · next hne =>
      rw [apply_of_ne fun u hu => ?_]
      · exact hsees x v hx
      · rw [hputs] at hu
        cases hu
        exact hne rfl

/-! ## Taking a write set back -/

/-- The records after the write set has been taken back. -/
def unwind (rows : Rows) (w : List (Place × Option Bytes)) : Rows :=
  w.foldl (fun rows e => Function.update rows e.1 e.2) rows

theorem unwind_step (hw : Stacks w e w') (h : Step rows e rows') :
    unwind rows' w' = unwind rows w := by
  obtain ⟨hsees, rfl⟩ := h
  cases e with
  | read x v =>
    obtain rfl : w' = w := hw
    rfl
  | scan fd content =>
    obtain rfl : w' = w := hw
    rfl
  | write x old new =>
    obtain rfl : w' = (x, old) :: w := hw
    have hold : rows x = old := hsees x old (if_pos rfl)
    rw [← hold]
    simp [unwind, apply, puts]
  | undo x cur old =>
    obtain rfl : w = (x, old) :: w' := hw
    rfl

theorem unwind_run (hw : Run Stacks w es w') (h : Run Step rows es rows') :
    unwind rows' w' = unwind rows w := by
  induction es generalizing w rows with
  | nil =>
    cases hw
    cases h
    rfl
  | cons e es ih =>
    cases hw with
    | cons hw₁ hw =>
      cases h with
      | cons h₁ h =>
        rw [ih hw h]
        exact unwind_step hw₁ h₁

end RowEvent

/-! ## The system -/

/-- The locks, the records, the write sets of the transactions, and what they have done so far.  A
scan is the call that takes the lock on the table and sees which records there are; its `get_record`
calls are the `read` calls that follow it. -/
structure TableServer where
  locks : ScanState := {}
  rows : Rows
  writeSet : TxnId → List (Place × Option Bytes) := fun _ => []
  history : List (HistoryEvent TxnId RowEvent) := []

/-- The calls of explicit transactions; `undo` is one round of the loop of `abort`. -/
inductive RowCall
  | scan (t : TxnId) (fd : ℤ)
  | read (t : TxnId) (x : Place)
  | write (t : TxnId) (x : Place) (op : SlotOp Bytes)
  | undo (t : TxnId)
  | commit (t : TxnId)
  | abort (t : TxnId)

namespace RowCall

def txn : RowCall → TxnId
  | .scan t _ => t
  | .read t _ => t
  | .write t _ _ => t
  | .undo t => t
  | .commit t => t
  | .abort t => t

end RowCall

namespace TableServer

open History

/-- The event of a transaction, with its write set afterwards. -/
def did (s : TableServer) (t : TxnId) (e : RowEvent) (w : List (Place × Option Bytes)) :
    TableServer where
  locks := s.locks
  rows := e.apply s.rows
  writeSet := Function.update s.writeSet t w
  history := s.history ++ [.op t e]

/-- The end of a transaction. -/
def finish (s : TableServer) (t : TxnId) (c : LockCall) (e : HistoryEvent TxnId RowEvent) :
    TableServer where
  locks := s.locks.exec (.other c)
  rows := s.rows
  writeSet := Function.update s.writeSet t []
  history := s.history ++ [e]

/-- The executors know the record that they change or delete, and `insert_record` has found a free
slot. -/
def Informed (s : TableServer) (t : TxnId) (x : Place) : SlotOp Bytes → Bool
  | .insert _ => s.rows x = none
  | op => RowEvent.seen x (opsOf t s.history) = some op.before

/-- A call of a transaction that has not ended.  A refused call changes the state of its transaction
only, which goes on or is ended by a later `abort`. -/
def step (s : TableServer) (c : RowCall) : Option TableServer :=
  if ended c.txn s.history then none
  else match c with
    | .scan t fd =>
      let s' := { s with locks := s.locks.exec (.lockTable t fd) }
      if (s.locks.locks.lockSharedOnTable t fd).2 = .ok true then
        some (s'.did t (.scan fd fun rid => s.rows (fd, rid)) (s.writeSet t))
      else some s'
    | .read t x =>
      let s' := { s with locks := s.locks.exec (.other (.lockShared t x.2 x.1)) }
      if (s.locks.locks.lockSharedOnRecord t x.2 x.1).2 = .ok true then
        some (s'.did t (.read x (s.rows x)) (s.writeSet t))
      else some s'
    | .write t x op =>
      if s.Informed t x op then
        let s' := { s with locks := s.locks.exec (.other (.lockExclusive t x.2 x.1)) }
        if (s.locks.locks.lockExclusiveOnRecord t x.2 x.1).2 = .ok true then
          some (s'.did t (.write x op.before op.after) ((x, op.before) :: s.writeSet t))
        else some s'
      else none
    | .undo t =>
      match s.writeSet t with
      | [] => none
      | (x, old) :: w => some (s.did t (.undo x (s.rows x) old) w)
    | .commit t => some (s.finish t (.commit t) (.commit t))
    | .abort t => if s.writeSet t = [] then some (s.finish t (.abort t) (.abort t)) else none

def Steps (s : TableServer) (c : RowCall) (s' : TableServer) : Prop := s.step c = some s'

/-- The call does not weaken an exclusive lock of its transaction, and does not scan a table that
another transaction has changed. -/
def KeepsLocks (s : TableServer) : RowCall → Prop
  | .scan t fd => s.locks.FreeOfWriters (.lockTable t fd)
  | .read t x => ¬ Weakens s.locks.locks (.lockShared t x.2 x.1)
  | _ => True

instance (s : TableServer) (c : RowCall) : Decidable (s.KeepsLocks c) := by
  cases c with
  | scan t fd => exact inferInstanceAs (Decidable (∀ c ∈ s.locks.changed, c.2.1 = fd → c.1 = t))
  | read t x => exact inferInstanceAs (Decidable (¬ Weakens s.locks.locks (.lockShared t x.2 x.1)))
  | write _ _ _ => exact instDecidableTrue
  | undo _ => exact instDecidableTrue
  | commit _ => exact instDecidableTrue
  | abort _ => exact instDecidableTrue

def start (rows : Rows) : TableServer := { rows := rows }

/-! ## Locks -/

/-- `t` has a request in the queue of `id`. -/
def Holds (m : LockManager) (t : TxnId) (id : LockDataId) : Prop :=
  t ∈ (m.queue id).requestQueue.map (·.txnId)

/-- The locks that an event of `t` has left: each record it has come upon is locked, or its table
is, and a record it has changed is locked exclusively. -/
structure Covers (s : ScanState) (t : TxnId) (e : RowEvent) : Prop where
  sees : ∀ x, e.sees x ≠ none → Holds s.locks t (.record x.1 x.2) ∨ Holds s.locks t (.table x.1)
  puts : ∀ x v, e.puts = some (x, v) → (t, x.1, x.2) ∈ s.changed

/-- What the locks are in every run that keeps them. -/
structure LockInv (s : ScanState) : Prop where
  scan : ScanInv s
  records : s.locks.RecordsOk
  excludes : s.ScansExcludeWriters
  changed : ∀ t fd rid, (t, fd, rid) ∈ s.changed → s.locks.HoldsExclusive t rid fd

section Locks

variable {s : ScanState} {c : ScanCall} {m : LockManager} {t t' : TxnId}
  {id : LockDataId} {x : Place}
  {e e' : RowEvent}

theorem holds_same {m' : LockManager} (h : SameLocks m m') : Holds m' t id ↔ Holds m t id := by
  rw [Holds, Holds, h.queue]

theorem holds_granted {m' : LockManager} {id' : LockDataId} (hg : GrantedTo m t' id' m')
    (h : Holds m t id) : Holds m' t id := by
  rcases eq_or_ne id id' with rfl | hne
  · exact (hg.regrant.mem_iff t).mpr (.inr h)
  · rwa [Holds, hg.queue_ne id hne]

theorem holds_release (h : LockSetsExact m) (hne : t ≠ t') (hh : Holds m t id) :
    Holds (m.releaseAllLocks t') t id := by
  obtain ⟨req, hr, rfl⟩ := List.mem_map.mp hh
  rw [Holds, h.release_requests]
  exact List.mem_map.mpr ⟨req, List.mem_filter.mpr ⟨hr, bne_iff_ne.mpr hne⟩, rfl⟩

/-- What the call does not end, it keeps. -/
theorem LockInv.holds_exec (h : LockInv s) (hends : ∀ k, c = .other k → ¬ Ends t k)
    (hh : Holds s.locks t id) : Holds (s.exec c).locks t id := by
  cases c with
  | lockTable t' fd =>
    exact (lockOnTable_outcome s.locks t' fd .shared).elim (fun hs => (holds_same hs).mpr hh)
      fun hg => holds_granted hg hh
  | other k =>
    cases k with
    | lockShared t' rid fd =>
      exact (lockOnRecord_outcome s.locks t' rid fd .shared).elim (fun hs => (holds_same hs).mpr hh)
        fun hg => holds_granted hg hh
    | lockExclusive t' rid fd =>
      exact (lockOnRecord_outcome s.locks t' rid fd .exclusive).elim
        (fun hs => (holds_same hs).mpr hh)
        fun hg => holds_granted hg hh
    | commit t' =>
      refine holds_release h.scan.sets (fun heq => hends _ rfl (.inl ?_)) hh
      rw [heq]
    | abort t' =>
      refine holds_release h.scan.sets (fun heq => hends _ rfl (.inr ?_)) hh
      rw [heq]

theorem changed_exec (hends : ∀ k, c = .other k → ¬ Ends t k) {fd : ℤ} {rid : Rid}
    (h : (t, fd, rid) ∈ s.changed) : (t, fd, rid) ∈ (s.exec c).changed := by
  cases c with
  | lockTable t' fd' => exact h
  | other k =>
    cases k with
    | lockShared t' rid' fd' => exact h
    | lockExclusive t' rid' fd' =>
      simp only [ScanState.exec]
      split
      · exact List.mem_cons_of_mem _ h
      · exact h
    | commit t' =>
      refine List.mem_filter.mpr ⟨h, decide_eq_true fun heq => hends _ rfl (.inl ?_)⟩
      rw [← heq]
    | abort t' =>
      refine List.mem_filter.mpr ⟨h, decide_eq_true fun heq => hends _ rfl (.inr ?_)⟩
      rw [← heq]

theorem LockInv.covers_exec (h : LockInv s) (hends : ∀ k, c = .other k → ¬ Ends t k)
    (hc : Covers s t e) : Covers (s.exec c) t e where
  sees x hx := (hc.sees x hx).imp (h.holds_exec hends) (h.holds_exec hends)
  puts x v hx := changed_exec hends (hc.puts x v hx)

/-- A record that one transaction has changed is not locked by another one, nor is its table. -/
theorem LockInv.not_covers (h : LockInv s) (hne : t ≠ t') (hc : Covers s t e)
    (hx : e.sees x ≠ none) : (t', x.1, x.2) ∉ s.changed := by
  intro hchanged
  obtain ⟨req, hr, ht', hg, hmode⟩ := h.changed t' x.1 x.2 hchanged
  rcases hc.sees x hx with hrec | htab
  · obtain ⟨req', hr', ht⟩ := List.mem_map.mp hrec
    rw [(h.records x.1 x.2).alone req hr hmode, List.mem_singleton] at hr'
    exact hne (by rw [← ht, ← ht', hr'])
  · exact (h.excludes t t' x.1 x.2 hne ((h.scan.scansTable_iff t x.1).mpr htab)).2 hchanged

theorem LockInv.movesLeft (h : LockInv s) (hne : t ≠ t') (hc : Covers s t e)
    (hc' : Covers s t' e') : MovesLeft RowEvent.Step e e' := by
  refine RowEvent.movesLeft (fun x v hv => ?_) fun x v hv => ?_
  · by_contra hx
    exact h.not_covers hne.symm hc' hx (hc.puts x v hv)
  · by_contra hx
    exact h.not_covers hne hc hx (hc'.puts x v hv)

theorem lockInv_empty : LockInv {} where
  scan := scanInv_empty
  records _ _ := recordOk_empty
  excludes t t' fd rid _ ht := by simp [ScanState.ScansTable, LockManager.queue] at ht
  changed _ _ _ hmem := absurd hmem List.not_mem_nil

/-- A call that keeps the locks. -/
theorem LockInv.exec (h : LockInv s) (hfree : s.FreeOfWriters c)
    (hweak : ∀ k, c = .other k → ¬ Weakens s.locks k) : LockInv (s.exec c) := by
  have hexcludes := (excludes_step_iff s c _ rfl h.scan h.excludes).mpr hfree
  have hscan := scanInv_step s c _ rfl h.scan
  cases c with
  | lockTable t fd =>
    have hqueue (fd' : ℤ) (rid : Rid) :
        (s.exec (.lockTable t fd)).locks.queue (.record fd' rid) =
          s.locks.queue (.record fd' rid) := by
      refine (lockOnTable_outcome s.locks t fd .shared).elim (fun hs => hs.queue _) fun hg =>
        hg.queue_ne _ ?_
      simp
    refine ⟨hscan, fun fd' rid => ?_, hexcludes, fun t' fd' rid hmem => ?_⟩
    · rw [hqueue]
      exact h.records fd' rid
    · unfold LockManager.HoldsExclusive
      rw [hqueue]
      exact h.changed t' fd' rid hmem
  | other k =>
    refine ⟨hscan, recordsOk_step _ k _ rfl h.records, hexcludes, fun t' fd' rid hmem => ?_⟩
    have hkeep (hends : ¬ Ends t' k) (hmem : (t', fd', rid) ∈ s.changed) :
        (s.locks.exec k).HoldsExclusive t' rid fd' :=
      holdsExclusive_step rfl h.records (hweak k rfl) hends (h.changed t' fd' rid hmem)
    cases k with
    | lockShared t rid' fd => exact hkeep (by simp [Ends]) hmem
    | lockExclusive t rid' fd =>
      simp only [ScanState.exec] at hmem
      split at hmem
      · next hok =>
        rcases List.mem_cons.mp hmem with heq | hmem
        · cases heq
          exact holdsExclusive_of_granted h.records hok
        · exact hkeep (by simp [Ends]) hmem
      · exact hkeep (by simp [Ends]) hmem
    | commit t =>
      obtain ⟨hmem, hne⟩ := List.mem_filter.mp hmem
      refine hkeep ?_ hmem
      simpa [Ends, eq_comm] using of_decide_eq_true hne
    | abort t =>
      obtain ⟨hmem, hne⟩ := List.mem_filter.mp hmem
      refine hkeep ?_ hmem
      simpa [Ends, eq_comm] using of_decide_eq_true hne

theorem holds_of_granted {rid : Rid} {fd : ℤ} {mode : LockMode}
    (h : (m.lockOnRecord t rid fd mode).2 = .ok true) :
    Holds (m.lockOnRecord t rid fd mode).1 t (.record fd rid) := by
  rcases lockOnRecord_cases m t rid fd mode with ⟨hno, -⟩ | ⟨-, -, hg⟩
  · exact absurd h hno
  · exact (hg.regrant.mem_iff t).mpr (.inl rfl)

end Locks

/-! ## The invariant of a run -/

/-- What holds in every state of a run from `rows` that keeps the locks. -/
structure Inv (rows : Rows) (s : TableServer) : Prop where
  locks : LockInv s.locks
  covers : ∀ x ∈ openOps s.history, Covers s.locks x.1 x.2
  pending : ∀ t, ∀ w ∈ s.writeSet t, (t, w.1.1, w.1.2) ∈ s.locks.changed
  seen : ∀ t x v, ended t s.history = false → RowEvent.seen x (opsOf t s.history) = some v →
    s.rows x = v
  stack : ∀ t, ended t s.history = false → Run RowEvent.Stacks [] (opsOf t s.history) (s.writeSet t)
  serial : Serial RowEvent.Step s.history rows s.rows

section Run

variable {rows : Rows} {s s' : TableServer} {t : TxnId} {x : Place} {e : RowEvent} {c : ScanCall}
  {w : List (Place × Option Bytes)}

theorem inv_start (rows : Rows) : Inv rows (start rows) where
  locks := lockInv_empty
  covers _ hx := absurd hx List.not_mem_nil
  pending _ _ hw := absurd hw List.not_mem_nil
  seen t x v _ hv := by cases hv
  stack _ _ := .nil _
  serial := serial_nil rows

/-- A call of the lock manager that ends no transaction. -/
theorem Inv.setLocks (h : Inv rows s) (hends : ∀ t k, c = .other k → ¬ Ends t k)
    (hfree : s.locks.FreeOfWriters c)
    (hweak : ∀ k, c = .other k → ¬ Weakens s.locks.locks k) :
    Inv rows { s with locks := s.locks.exec c } where
  locks := h.locks.exec hfree hweak
  covers x hx := h.locks.covers_exec (hends x.1) (h.covers x hx)
  pending t w hw := changed_exec (hends t) (h.pending t w hw)
  seen := h.seen
  stack := h.stack
  serial := h.serial

/-- A transaction knows nothing of a record that another one changes. -/
theorem Inv.unseen (h : Inv rows s) {t' : TxnId} (hne : t' ≠ t) (ht' : ended t' s.history = false)
    (hchanged : (t, x.1, x.2) ∈ s.locks.changed) : RowEvent.seen x (opsOf t' s.history) = none := by
  by_contra hseen
  obtain ⟨e, he, hx⟩ := RowEvent.exists_sees_of_seen hseen
  exact h.locks.not_covers hne (h.covers (t', e) (mem_openOps.mpr ⟨ht', he⟩)) hx hchanged

theorem ended_op (t' : TxnId) : ended t' (s.history ++ [.op t e]) = ended t' s.history := by
  rw [ended_append]
  exact Bool.or_false _

theorem opsOf_op_self : opsOf t (s.history ++ [.op t e]) = opsOf t s.history ++ [e] := by
  rw [opsOf_append]
  simp [opsOf, ops]

theorem opsOf_op_ne {t' : TxnId} (hne : t' ≠ t) :
    opsOf t' (s.history ++ [.op t e]) = opsOf t' s.history := by
  rw [opsOf_append]
  simp [opsOf, ops, hne.symm]

/-- An event of a transaction that holds the locks for it. -/
theorem Inv.did (h : Inv rows s) (ht : ended t s.history = false) (hcov : Covers s.locks t e)
    (hsees : ∀ x v, e.sees x = some v → s.rows x = v) (hstack : RowEvent.Stacks (s.writeSet t) e w)
    (hpending : ∀ x ∈ w, (t, x.1.1, x.1.2) ∈ s.locks.changed) : Inv rows (s.did t e w) where
  locks := h.locks
  covers y hy := by
    have hy : y ∈ openOps (s.history ++ [.op t e]) := hy
    rw [openOps_op e ht, List.mem_append, List.mem_singleton] at hy
    rcases hy with hy | rfl
    · exact h.covers y hy
    · exact hcov
  pending t' y hy := by
    by_cases heq : t' = t
    · subst heq
      have hy : y ∈ Function.update s.writeSet t' w t' := hy
      rw [Function.update_self] at hy
      exact hpending y hy
    · have hy : y ∈ Function.update s.writeSet t w t' := hy
      rw [Function.update_of_ne heq] at hy
      exact h.pending t' y hy
  seen t' x v ht' hv := by
    have hopen : ended t' (s.history ++ [.op t e]) = false := ht'
    have hv : RowEvent.seen x (opsOf t' (s.history ++ [.op t e])) = some v := hv
    rw [ended_op] at hopen
    by_cases heq : t' = t
    · subst heq
      rw [opsOf_op_self, RowEvent.seen_append] at hv
      cases hshows : e.shows x with
      | some u =>
        rw [hshows, Option.some_or] at hv
        cases hv
        exact RowEvent.eq_of_shows ⟨hsees, rfl⟩ hshows
      | none =>
        rw [hshows, Option.none_or] at hv
        refine (RowEvent.apply_of_ne fun u hu => ?_).trans (h.seen t' x v hopen hv)
        simp [RowEvent.shows, hu] at hshows
    · rw [opsOf_op_ne heq] at hv
      refine (RowEvent.apply_of_ne fun u hu => ?_).trans (h.seen t' x v hopen hv)
      rw [h.unseen heq hopen (hcov.puts x u hu)] at hv
      cases hv
  stack t' ht' := by
    have hopen : ended t' (s.history ++ [.op t e]) = false := ht'
    rw [ended_op] at hopen
    change Run RowEvent.Stacks [] (opsOf t' (s.history ++ [.op t e]))
      (Function.update s.writeSet t w t')
    by_cases heq : t' = t
    · subst heq
      rw [opsOf_op_self, Function.update_self]
      exact (h.stack t' hopen).snoc hstack
    · rw [opsOf_op_ne heq, Function.update_of_ne heq]
      exact h.stack t' hopen
  serial := h.serial.op ht ⟨hsees, rfl⟩

theorem Inv.movesOut (h : Inv rows s) (t : TxnId) : MovesOut RowEvent.Step s.history t := by
  intro x hx y hy hxt hyt
  exact h.locks.movesLeft (by rw [hyt]; exact hxt) (h.covers x hx) (h.covers y hy)

/-- The end of a transaction whose history is serial with it. -/
theorem Inv.finish (h : Inv rows s) {c : LockCall} {e : HistoryEvent TxnId RowEvent}
    (hc : c = .commit t ∧ e = .commit t ∨ c = .abort t ∧ e = .abort t)
    (hserial : Serial RowEvent.Step (s.history ++ [e]) rows s.rows) :
    Inv rows (s.finish t c e) := by
  have hends {t' : TxnId} (hne : t' ≠ t) : ∀ k, ScanCall.other c = .other k → ¬ Ends t' k := by
    rintro k hk hend
    cases hk
    rcases hc with ⟨rfl, -⟩ | ⟨rfl, -⟩
    · simp [Ends, hne.symm] at hend
    · simp [Ends, hne.symm] at hend
  have hend : e = .commit t ∨ e = .abort t := hc.imp (·.2) (·.2)
  have hended (t' : TxnId) : ended t' (s.history ++ [e]) =
      (ended t' s.history || decide (t = t')) := by
    rw [ended_append]
    rcases hend with rfl | rfl <;> simp [ended]
  have hops (t' : TxnId) : opsOf t' (s.history ++ [e]) = opsOf t' s.history := by
    rw [opsOf_append]
    rcases hend with rfl | rfl <;> exact List.append_nil _
  have hopen {t' : TxnId} (ht' : ended t' (s.history ++ [e]) = false) : ended t' s.history = false ∧
      t' ≠ t := by
    rw [hended, Bool.or_eq_false_iff, decide_eq_false_iff_not] at ht'
    exact ⟨ht'.1, fun heq => ht'.2 heq.symm⟩
  have hweak : ∀ k, ScanCall.other c = .other k → ¬ Weakens s.locks.locks k := by
    rintro k hk
    cases hk
    rcases hc with ⟨rfl, -⟩ | ⟨rfl, -⟩ <;> exact id
  have hlocks : LockInv (s.locks.exec (.other c)) := h.locks.exec trivial hweak
  refine ⟨hlocks, fun x hx => ?_, fun t' y hy => ?_, fun t' x v ht' hv => ?_,
    fun t' ht' => ?_, hserial⟩
  · have hx : x ∈ openOps (s.history ++ [e]) := hx
    rw [openOps_end hend, List.mem_filter] at hx
    exact h.locks.covers_exec (hends (of_decide_eq_true hx.2)) (h.covers x hx.1)
  · have hy : y ∈ Function.update s.writeSet t [] t' := hy
    by_cases heq : t' = t
    · subst heq
      rw [Function.update_self] at hy
      cases hy
    · rw [Function.update_of_ne heq] at hy
      exact changed_exec (hends heq) (h.pending t' y hy)
  · have hv : RowEvent.seen x (opsOf t' (s.history ++ [e])) = some v := hv
    rw [hops] at hv
    exact h.seen t' x v (hopen ht').1 hv
  · obtain ⟨ht', hne⟩ := hopen ht'
    have hrun : Run RowEvent.Stacks [] (opsOf t' (s.history ++ [e]))
        (Function.update s.writeSet t [] t') := by
      rw [hops, Function.update_of_ne hne]
      exact h.stack t' ht'
    exact hrun

/-- What the executors know of a record is what it holds. -/
theorem Inv.informed (h : Inv rows s) (ht : ended t s.history = false) {op : SlotOp Bytes}
    (hop : s.Informed t x op = true) : s.rows x = op.before := by
  cases op with
  | insert v => exact of_decide_eq_true hop
  | delete old => exact h.seen t x _ ht (of_decide_eq_true hop)
  | update old new => exact h.seen t x _ ht (of_decide_eq_true hop)

theorem Inv.step {c : RowCall} (h : Inv rows s) (hkeeps : s.KeepsLocks c) (hs : s.Steps c s') :
    Inv rows s' := by
  unfold Steps TableServer.step at hs
  split at hs
  · cases hs
  next hended =>
  have ht : ended c.txn s.history = false := Bool.eq_false_iff.mpr hended
  cases c with
  | scan t fd =>
    have hlocks := h.setLocks (c := .lockTable t fd) (by rintro _ _ ⟨⟩) hkeeps (by rintro _ ⟨⟩)
    simp only at hs
    split at hs
    · cases hs
      refine hlocks.did ht ⟨fun x hx => ?_, by rintro x v ⟨⟩⟩ (fun x v hv => ?_) rfl fun x hx =>
        hlocks.pending t x hx
      · have hfd : x.1 = fd := by
          by_contra hne
          exact hx (if_neg hne)
        refine .inr ((hlocks.locks.scan.scansTable_iff t x.1).mp ?_)
        exact ((h.locks.scan.lockTable t fd).2 t x.1).mpr (.inl ⟨rfl, hfd⟩)
      · simp only [RowEvent.sees] at hv
        split at hv
        · next hfd =>
          cases hv
          rw [← hfd]
        · cases hv
    · cases hs
      exact hlocks
  | read t x =>
    have hlocks := h.setLocks (c := .other (.lockShared t x.2 x.1))
      (by rintro t' k ⟨⟩; simp [Ends]) trivial (by rintro k ⟨⟩; exact hkeeps)
    simp only at hs
    split at hs
    · next hgranted =>
      cases hs
      refine hlocks.did ht ⟨fun y hy => ?_, by rintro y v ⟨⟩⟩ (fun y v hv => ?_) rfl fun y hy =>
        hlocks.pending t y hy
      · have heq : y = x := by
          by_contra hne
          exact hy (if_neg hne)
        subst heq
        exact .inl (holds_of_granted hgranted)
      · simp only [RowEvent.sees] at hv
        split at hv
        · next heq =>
          cases hv
          rw [heq]
        · cases hv
    · cases hs
      exact hlocks
  | write t x op =>
    have hlocks := h.setLocks (c := .other (.lockExclusive t x.2 x.1))
      (by rintro t' k ⟨⟩; simp [Ends]) trivial (by rintro k ⟨⟩; exact id)
    simp only at hs
    split at hs
    · next hop =>
      split at hs
      · next hgranted =>
        cases hs
        have hchanged : (t, x.1, x.2) ∈
            (s.locks.exec (.other (.lockExclusive t x.2 x.1))).changed := by
          simp only [ScanState.exec, if_pos hgranted]
          exact List.mem_cons_self
        refine hlocks.did ht ⟨fun y hy => ?_, ?_⟩ (fun y v hv => ?_) rfl fun y hy => ?_
        · have heq : y = x := by
            by_contra hne
            exact hy (if_neg hne)
          subst heq
          exact .inl (holds_of_granted hgranted)
        · rintro y v ⟨⟩
          exact hchanged
        · simp only [RowEvent.sees] at hv
          split at hv
          · next heq =>
            cases hv
            rw [heq]
            exact h.informed ht hop
          · cases hv
        · rcases List.mem_cons.mp hy with rfl | hy
          · exact hchanged
          · exact hlocks.pending t y hy
      · cases hs
        exact hlocks
    · cases hs
  | undo t =>
    simp only at hs
    split at hs
    · cases hs
    · next x old w hw =>
      cases hs
      have hchanged (y : Place × Option Bytes) (hy : y ∈ (x, old) :: w) :
        (t, y.1.1, y.1.2) ∈ s.locks.changed :=
        h.pending t y (by rw [hw]; exact hy)
      have hx := hchanged (x, old) List.mem_cons_self
      refine h.did ht ⟨fun y hy => ?_, ?_⟩ (fun y v hv => ?_) hw fun y hy =>
        hchanged y (List.mem_cons_of_mem _ hy)
      · have heq : y = x := by
          by_contra hne
          exact hy (if_neg hne)
        subst heq
        obtain ⟨req, hr, hreq, -, -⟩ := h.locks.changed t _ _ hx
        exact .inl (List.mem_map.mpr ⟨req, hr, hreq⟩)
      · rintro y v ⟨⟩
        exact hx
      · simp only [RowEvent.sees] at hv
        split at hv
        · next heq =>
          cases hv
          rw [heq]
        · cases hv
  | commit t =>
    cases hs
    exact h.finish (.inl ⟨rfl, rfl⟩) (h.serial.commit ht (h.movesOut t))
  | abort t =>
    simp only at hs
    split at hs
    · next hnil =>
      cases hs
      refine h.finish (.inr ⟨rfl, rfl⟩) (h.serial.abort ht (h.movesOut t) fun m m' hrun => ?_)
      have hstack := h.stack t ht
      rw [hnil] at hstack
      exact (RowEvent.unwind_run hstack hrun).symm
    · cases hs

end Run

/-- A run that keeps the locks, to a state that passes a test. -/
theorem exists_run (rows : Rows) (cs : List RowCall) (p : TableServer → Bool)
    (h : (cs.foldlM (fun s c => if KeepsLocks s c then step s c else none) (start rows)).any p =
      true) :
    ∃ s, Run (Meeting KeepsLocks Steps) (start rows) cs s ∧ p s = true := by
  obtain ⟨s, hrun, hp⟩ := Run.exists_of_any _ _ _ _ h
  refine ⟨s, hrun.mono fun s c s' hs => ?_, hp⟩
  split at hs
  · next hkeeps => exact ⟨hkeeps, hs⟩
  · cases hs

/-- Transaction 1 reads a record and changes it, while transaction 2 inserts one and commits before
it. -/
def readerAndInserter : List RowCall :=
  [.read 1 (3, ⟨1, 0⟩), .write 2 (3, ⟨1, 1⟩) (.insert [2]),
    .write 1 (3, ⟨1, 0⟩) (.update [1] [7]), .commit 2, .commit 1]

/-- Transaction 1 changes a record and reads it again, which weakens its lock; transaction 2 reads
the change and commits, and the change is taken back. -/
theorem not_serializable :
    ¬ ∀ (rows : Rows) (cs : List RowCall) (s : TableServer), Run Steps (start rows) cs s →
      Serial RowEvent.Step s.history rows s.rows := by
  intro h
  have hrun : Run Steps (start fun _ => some [1]) [.read 1 (3, ⟨1, 0⟩),
    .write 1 (3, ⟨1, 0⟩) (.update [1] [7]),
      .read 1 (3, ⟨1, 0⟩), .read 2 (3, ⟨1, 0⟩), .commit 2, .undo 1, .abort 1] _ := Run.of_foldlM rfl
  obtain ⟨m, hcommitted, -⟩ := h _ _ _ hrun
  have hread : Run RowEvent.Step (fun _ => some [1]) [.read (3, ⟨1, 0⟩) (some [7])] m := hcommitted
  cases hread with
  | cons hstep _ => exact absurd (hstep.1 (3, ⟨1, 0⟩) (some [7]) rfl) (by decide)

end TableServer

end Rmdb
