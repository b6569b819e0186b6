import Rmdb.Execution.Restore
import Rmdb.Lib.Transactional
import Rmdb.Transaction.LockManager

/-!
# A client of the server

`client_handler` (`rmdb.cpp`) takes the requests of a client one after the other: `SetTransaction`
finds or begins the transaction, the statement runs in it, an error aborts it, and the transaction
of a single statement is committed. The commands BEGIN, COMMIT, ABORT and ROLLBACK are those of
`QlManager::run_cmd_utility`.  Other clients may hold locks, and refuse requests; the writes are
those of this client.
-/

namespace Rmdb

open KeyIndex

/-! ## Requests -/

/-- A statement with the rows that its scan collects and the locks that the scan asks for. -/
structure Order where
  refuses : RequestedLock → Bool
  st : Statement
  scanned : List RequestedLock
  rids : List Rid

/-- The statement in a transaction. -/
def Order.call (o : Order) (txnMode : Bool) : Call :=
  ⟨⟨o.refuses, txnMode⟩, o.st, o.scanned, o.rids⟩

/-- Statements, and what changes no table: a query, a command, or a text that does not parse. -/
inductive SessionOp
  | dml (o : Order)
  | other (err : Option ExecError)

abbrev SessionRequest := TxnRequest SessionOp

/-! ## The handler -/

/-- What `client_handler` uses of its `Transaction`. -/
structure SessionTxn where
  txnMode : Bool := false
  state : TransactionState := .growing
  writeSet : List WriteRecord := []
deriving DecidableEq, Repr

namespace SessionTxn

/-- `TransactionManager::commit`. -/
def commit (txn : SessionTxn) : SessionTxn := { txn with writeSet := [], state := .committed }

/-- `TransactionManager::abort`.  An error of the undo leaves the handler. -/
def abort (db : Db) (txn : SessionTxn) : Except ExecError (Db × SessionTxn) := do
  let db ← Rmdb.abort ⟨db, txn.writeSet⟩
  return (db, { txn with writeSet := [], state := .aborted })

/-- After a request without an error, the transaction of a single statement is committed. -/
def autoCommit (txn : SessionTxn) : SessionTxn := if txn.txnMode then txn else txn.commit

end SessionTxn

/-- The database, and the transaction that `txn_id` names, `none` for INVALID_TXN_ID. -/
structure Session where
  db : Db
  txn : Option SessionTxn := none

namespace Session

/-- `SetTransaction`. -/
def setTransaction (s : Session) : SessionTxn :=
  match s.txn with
  | none => {}
  | some txn => if txn.state = .committed ∨ txn.state = .aborted then {} else txn

/-- The `catch` blocks. -/
def rollback (t : TxnState) (txn : SessionTxn) (err : ExecError) :
    Except ExecError (Session × Option ExecError) := do
  let (db, txn) ← SessionTxn.abort t.db { txn with writeSet := t.writeSet }
  return (⟨db, some txn⟩, some err)

/-- One request, with the error that is reported. -/
def handle (s : Session) (req : SessionRequest) : Except ExecError (Session × Option ExecError) :=
  let txn := s.setTransaction
  match req with
  | .begin =>
    return (⟨s.db, some ({ txn with txnMode := true, state := .growing } : SessionTxn).autoCommit⟩,
      none)
  | .commit => return (⟨s.db, some txn.commit.autoCommit⟩, none)
  | .rollback => do
    let (db, txn) ← txn.abort s.db
    return (⟨db, some txn.autoCommit⟩, none)
  | .op (.other none) => return (⟨s.db, some txn.autoCommit⟩, none)
  | .op (.other (some err)) => rollback ⟨s.db, txn.writeSet⟩ txn err
  | .op (.dml o) =>
    match (o.call txn.txnMode).run ⟨s.db, txn.writeSet⟩ with
    | .ok t =>
      return (⟨t.db, some ({ txn with writeSet := t.writeSet } : SessionTxn).autoCommit⟩, none)
    | .error (err, t) => rollback t txn err

end Session

/-! ## What the requests ask for -/

/-- What an operation makes of the tables. -/
def SessionOp.Does (schema : Schema) (size : String → ℕ) (m : DbRows) :
    SessionOp → Except ExecError DbRows → Prop
  | .dml o, r =>
    o.st.Means schema size m r ∨ (∃ req, o.refuses req = true) ∧ r = .error .transactionAbort
  | .other none, r => r = .ok m
  | .other (some err), r => r = .error err

/-- The scan collects the rows that the statement selects. -/
def Order.Scans (o : Order) (db : Db) : Prop :=
  match o.st with
  | .insert _ _ => True
  | .update t _ conds | .delete t conds => o.rids.Nodup ∧ ∀ rid, rid ∈ o.rids ↔
      ∃ tab rec, db.HasTable t tab ∧ (db.fhs t).records rid = some rec ∧ Selects tab conds rec

namespace Session

/-- Where the request goes back to the start of the transaction, no page that gets a row back is
full. -/
def RollsBackIntoRoom (s : Session) : SessionRequest → Prop
  | .rollback => LeavesRoom s.setTransaction.writeSet s.db
  | .op (.other (some _)) => LeavesRoom s.setTransaction.writeSet s.db
  | .op (.dml o) =>
    ∀ err t, (o.call s.setTransaction.txnMode).run ⟨s.db, s.setTransaction.writeSet⟩ =
      .error (err, t) → LeavesRoom t.writeSet t.db
  | _ => True

/-- The request does not run into what the statements are not made for: it gives no two rows one
key, no lock on a record is refused after a change of its index entries, and a rollback fills no
page. -/
structure Serves (s : Session) (req : SessionRequest) : Prop where
  scans : ∀ o, req = .op (.dml o) → o.Scans s.db
  differ : ∀ o, req = .op (.dml o) → o.st.KeysDiffer s.db
  whole : ∀ o, req = .op (.dml o) → ¬ (o.call s.setTransaction.txnMode).CutsIndexed s.db
  room : s.RollsBackIntoRoom req

/-- The requests with their replies. -/
def Steps (s : Session) (event : SessionRequest × Option ExecError) (s' : Session) : Prop :=
  s.Serves event.1 ∧ s.handle event.1 = .ok (s', event.2)

end Session

/-! ## The transaction in progress -/

section Refinement

variable {db₀ start : Db} {m : DbRows} {t t' : TxnState} {s s' : Session}
  {a a' : TxnStore DbRows} {o : Order}
  {txn : SessionTxn} {req : SessionRequest} {reply : Option ExecError}

theorem Order.Scans.collects {db : Db} (h : o.Scans db) : o.st.Collects db o.rids := by
  obtain ⟨refuses, st, scanned, rids⟩ := o
  cases st with
  | insert t values => trivial
  | update t setClauses conds =>
    refine ⟨h.1, fun tab ht rid => (h.2 rid).trans ⟨?_, fun ⟨rec, hrec⟩ => ⟨tab, rec, ht, hrec⟩⟩⟩
    rintro ⟨tab', rec, ht', hrec⟩
    obtain rfl : tab' = tab := Option.some.inj (ht'.symm.trans ht)
    exact ⟨rec, hrec⟩
  | delete t conds =>
    refine ⟨h.1, fun tab ht rid => (h.2 rid).trans ⟨?_, fun ⟨rec, hrec⟩ => ⟨tab, rec, ht, hrec⟩⟩⟩
    rintro ⟨tab', rec, ht', hrec⟩
    obtain rfl : tab' = tab := Option.some.inj (ht'.symm.trans ht)
    exact ⟨rec, hrec⟩

theorem Order.Scans.finds {db : Db} (h : o.Scans db) (txnMode : Bool) :
    (o.call txnMode).Finds db := by
  obtain ⟨refuses, st, scanned, rids⟩ := o
  have hlive {t : String} {conds : List Condition} (h : ∀ rid, rid ∈ rids ↔
      ∃ tab rec, db.HasTable t tab ∧ (db.fhs t).records rid = some rec ∧ Selects tab conds rec) :
      ∀ rid ∈ rids, ((db.fhs t).records rid).isSome := by
    intro rid hrid
    obtain ⟨tab, rec, -, hrec, -⟩ := (h rid).mp hrid
    rw [hrec]
    rfl
  cases st with
  | insert t values => trivial
  | update t setClauses conds => exact ⟨h.1, hlive h.2⟩
  | delete t conds => exact ⟨h.1, hlive h.2⟩

/-- A database with the tables of `db₀`. -/
structure Resembles (db₀ db : Db) : Prop where
  consistent : db.Consistent
  schema : db.schema = db₀.schema
  sizes : db.sizes = db₀.sizes

/-- A transaction that began with the rows `m` and has come to `t`. -/
structure Began (db₀ start : Db) (m : DbRows) (t : TxnState) : Prop where
  resembles : Resembles db₀ start
  rows : start.rows = m
  undoes : UndoesTo ⟨start, []⟩ t
  undoable : t.Undoable

theorem Db.Consistent.heaps {db : Db} (h : db.Consistent) : db.Heaps :=
  fun t tab ht => (h t tab ht).1

theorem Resembles.began {db : Db} (h : Resembles db₀ db) (hrows : db.rows = m) :
    Began db₀ db m ⟨db, []⟩ :=
  ⟨h, hrows, .refl _, h.consistent.heaps, trivial, fun _ hw => absurd hw List.not_mem_nil⟩

/-- An abort leads back to the rows at the start. -/
theorem abort_resembles (hstart : Resembles db₀ start) (hrows : start.rows = m)
    (hback : RollsBackTo ⟨start, []⟩ t) (hu : t.Undoable) (hroom : LeavesRoom t.writeSet t.db) :
    ∃ db', abort t = .ok db' ∧ Resembles db₀ db' ∧ db'.rows = m := by
  obtain ⟨db', habort, hsame⟩ := hback.abort hstart.consistent
  obtain ⟨ws, hws, db'', hundo, hreverts⟩ := hback
  rw [List.append_nil] at hws
  rw [abort, hws] at habort
  obtain rfl := Except.ok.inj (hundo.symm.trans habort)
  have hheaps : db''.Heaps := by
    refine heaps_foldlM_undo hu.heaps hu.returns hu.fits hroom ?_
    rwa [hws]
  have hschema : db''.schema = start.schema := hreverts.schema
  refine ⟨db'', by rw [abort, hws, habort],
    ⟨fun t' tab ht' => ?_, hschema.trans hstart.schema, ?_⟩, ?_⟩
  · refine ⟨hheaps t' tab ht', fun index hindex => ?_⟩
    rw [Db.HasTable, hschema] at ht'
    obtain ⟨hrecords, hentries⟩ := hsame t' tab ht'
    rw [hrecords, hentries index hindex]
    exact (hstart.consistent t' tab ht').2 index hindex
  · rw [← hstart.sizes]
    funext t'
    rw [Db.sizes, Db.sizes, hschema]
    cases ht' : start.schema.tabs t' with
    | none => rfl
    | some tab => exact (hreverts.tables t' tab ht').grows.recordSize
  · rw [← hrows]
    funext t'
    rw [Db.rows, Db.rows, hschema]
    cases ht' : start.schema.tabs t' with
    | none => rfl
    | some tab => exact (hsame t' tab ht').1

theorem Order.run_means {txnMode : Bool} (hs : t.db.Consistent) (hscans : o.Scans t.db) :
    Yields (fun t' => o.st.Did t.db t'.db)
      (fun err _ => o.st.Means t.db.schema t.db.sizes t.db.rows (.error err) ∨
        Refused ⟨o.refuses, txnMode⟩ err)
      ((o.call txnMode).run t) :=
  Statement.run_means hs hscans.collects

/-- A statement that gives no two rows one key keeps a database consistent. -/
theorem Statement.consistent_run {cx : Context} {st : Statement} {scanned : List RequestedLock}
    {rids : List Rid}
    (hs : t.db.Consistent) (hrids : st.Collects t.db rids) (hdiffer : st.KeysDiffer t.db)
    (hrun : st.run cx scanned rids t = .ok t') : t'.db.Consistent := by
  unfold Statement.run at hrun
  obtain ⟨-, -, hrun⟩ := exists_of_bind_ok hrun
  cases st with
  | insert t values => exact consistent_insert hs hrun
  | delete t conds => exact consistent_delete hs hrids.onRows hrun
  | update t setClauses conds =>
    exact (consistent_update_iff hs hrids.onRows hrun).mpr (hrids.newKeysDiffer hdiffer)

/-! ## One request -/

/-- The session is where the store is: its tables have the current rows, and its transaction began
with the committed ones. -/
structure Session.Refines (db₀ : Db) (s : Session) (a : TxnStore DbRows) : Prop where
  resembles : Resembles db₀ s.db
  current : s.db.rows = a.current
  active : s.setTransaction.state = .growing
  explicit : s.setTransaction.txnMode = a.saved.isSome
  began : ∃ start, Began db₀ start a.committed ⟨s.db, s.setTransaction.writeSet⟩

theorem setTransaction_of_finished {db : Db} (h : txn.state = .committed ∨ txn.state = .aborted) :
    Session.setTransaction ⟨db, some txn⟩ = {} := if_pos h

theorem setTransaction_of_growing {db : Db} (h : txn.state = .growing) :
    Session.setTransaction ⟨db, some txn⟩ = txn := by
  refine if_neg ?_
  rw [h]
  decide

/-- After the end of its transaction. -/
theorem refines_finished {db : Db} (h : Resembles db₀ db) (hrows : db.rows = m)
    (htxn : txn.state = .committed ∨ txn.state = .aborted) :
    Session.Refines db₀ ⟨db, some txn⟩ ⟨m, none⟩ := by
  have hset := @setTransaction_of_finished txn db htxn
  refine ⟨h, hrows, by rw [hset], by rw [hset]; rfl, db, ?_⟩
  rw [hset]
  exact h.began hrows

/-- In the middle of its transaction. -/
theorem refines_growing {db : Db} {saved : Option DbRows} (h : Resembles db₀ db)
    (hrows : db.rows = m) (htxn : txn.state = .growing) (hmode : txn.txnMode = saved.isSome)
    (hbegan : Began db₀ start (TxnStore.mk m saved).committed ⟨db, txn.writeSet⟩) :
    Session.Refines db₀ ⟨db, some txn⟩ ⟨m, saved⟩ := by
  have hset := @setTransaction_of_growing txn db htxn
  refine ⟨h, hrows, by rw [hset, htxn], by rw [hset, hmode], start, ?_⟩
  rw [hset]
  exact hbegan

theorem state_autoCommit (h : txn.state = .committed ∨ txn.state = .aborted) :
    txn.autoCommit.state = .committed ∨ txn.autoCommit.state = .aborted := by
  rw [SessionTxn.autoCommit]
  split
  · exact h
  · exact .inl rfl

/-- A statement that has ended leaves an explicit transaction open. -/
theorem refines_autoCommit {db : Db} {saved : Option DbRows} (h : Resembles db₀ db)
    (hrows : db.rows = m) (htxn : txn.state = .growing) (hmode : txn.txnMode = saved.isSome)
    (hbegan : ∀ m', saved = some m' → ∃ start, Began db₀ start m' ⟨db, txn.writeSet⟩) :
    Session.Refines db₀ ⟨db, some txn.autoCommit⟩ ⟨m, saved⟩ := by
  rw [SessionTxn.autoCommit, hmode]
  cases saved with
  | none => exact refines_finished h hrows (.inl rfl)
  | some m' =>
    obtain ⟨start, hbegan⟩ := hbegan m' rfl
    exact refines_growing h hrows htxn hmode hbegan

/-- An abort of a transaction that has come to `t`. -/
theorem rollback_refines (hbegan : ∃ start, Began db₀ start m ⟨s.db, s.setTransaction.writeSet⟩)
    (hback : RollsBackTo ⟨s.db, s.setTransaction.writeSet⟩ t) (hu : t.Undoable)
    (hroom : LeavesRoom t.writeSet t.db)
    (txn : SessionTxn) : ∃ db' txn', SessionTxn.abort t.db { txn with writeSet := t.writeSet } = .ok
    (db', txn') ∧
      Session.Refines db₀ ⟨db', some txn'⟩ ⟨m, none⟩ ∧
        Session.Refines db₀ ⟨db', some txn'.autoCommit⟩ ⟨m, none⟩ := by
  obtain ⟨start, hbegan⟩ := hbegan
  obtain ⟨db', habort, hdb', hrows⟩ :=
    abort_resembles hbegan.resembles hbegan.rows (RollsBackTo.trans hbegan.undoes hback) hu hroom
  refine ⟨db', { txn with writeSet := [], state := .aborted }, ?_,
    refines_finished hdb' hrows (.inr rfl),
    refines_finished hdb' hrows (state_autoCommit (.inr rfl))⟩
  rw [SessionTxn.abort, show abort ⟨t.db, t.writeSet⟩ = .ok db' from habort]
  rfl

theorem UndoesTo.rollsBackTo_self (hs : t.db.Consistent) : RollsBackTo t t :=
  (UndoesTo.refl t).rollsBackTo hs.sound

/-- Every request is answered, as the store answers it. -/
theorem Session.Refines.handle (h : s.Refines db₀ a) (hserves : s.Serves req) :
    ∃ s' reply a', s.handle req = .ok (s', reply) ∧
      TxnStore.Step (SessionOp.Does db₀.schema db₀.sizes) a (req, reply) a' ∧
      s'.Refines db₀ a' := by
  obtain ⟨hdb, hcurrent, hactive, hexplicit, hbegan⟩ := h
  have hsound := hdb.consistent.sound
  have hself : RollsBackTo ⟨s.db, s.setTransaction.writeSet⟩ ⟨s.db, s.setTransaction.writeSet⟩ :=
    UndoesTo.rollsBackTo_self hdb.consistent
  have hundoable : TxnState.Undoable ⟨s.db, s.setTransaction.writeSet⟩ := by
    obtain ⟨start, hbegan⟩ := hbegan
    exact hbegan.undoable
  cases req with
  | begin =>
    obtain ⟨start, hbegan⟩ := hbegan
    exact ⟨_, none, _, rfl, .begin a, refines_growing hdb hcurrent rfl rfl hbegan⟩
  | commit =>
    exact ⟨_, none, _, rfl, .commit a, refines_finished hdb hcurrent (state_autoCommit (.inl rfl))⟩
  | rollback =>
    obtain ⟨db', txn', habort, -, hrefines⟩ :=
      rollback_refines hbegan hself hundoable hserves.room s.setTransaction
    refine ⟨_, none, _, ?_, .rollback a, hrefines⟩
    simp only [Session.handle]
    exact congrArg (· >>= _) habort
  | op o =>
    cases o with
    | other err =>
      cases err with
      | none =>
        refine ⟨_, none, _, rfl, .done rfl, refines_autoCommit hdb hcurrent hactive hexplicit
          fun m' hm' => ?_⟩
        rw [TxnStore.committed, hm'] at hbegan
        exact hbegan
      | some err =>
        obtain ⟨db', txn', habort, hrefines, -⟩ :=
          rollback_refines hbegan hself hundoable hserves.room s.setTransaction
        refine ⟨_, some err, _, ?_, .failed rfl, hrefines⟩
        exact congrArg (· >>= _) habort
    | dml o =>
      have hscans := hserves.scans o rfl
      have hmeans := @Order.run_means ⟨s.db, s.setTransaction.writeSet⟩ o s.setTransaction.txnMode
        hdb.consistent hscans
      have hcall := Call.undoable hundoable (hscans.finds s.setTransaction.txnMode)
      have hfinds := hscans.finds s.setTransaction.txnMode
      cases hrun : (o.call s.setTransaction.txnMode).run ⟨s.db, s.setTransaction.writeSet⟩ with
      | ok t =>
        obtain ⟨hdid, hschema, hsizes⟩ := hmeans.of_ok hrun
        rw [hdb.schema, hdb.sizes, hcurrent] at hdid
        have ht : Resembles db₀ t.db :=
          ⟨Statement.consistent_run hdb.consistent hscans.collects (hserves.differ o rfl) hrun,
            hschema.trans hdb.schema, hsizes.trans hdb.sizes⟩
        let txn : SessionTxn := { s.setTransaction with writeSet := t.writeSet }
        have hrefines : Session.Refines db₀ ⟨t.db, some txn.autoCommit⟩ ⟨t.db.rows, a.saved⟩ := by
          refine refines_autoCommit ht rfl hactive hexplicit fun m' hm' => ?_
          obtain ⟨start, hbegan⟩ := hbegan
          rw [TxnStore.committed, hm'] at hbegan
          obtain ⟨-, hundoes⟩ := (Call.run_yields hsound hfinds).of_ok hrun
          exact ⟨start, hbegan.resembles, hbegan.rows, hbegan.undoes.trans hundoes,
            hcall.of_ok hrun⟩
        refine ⟨_, none, _, ?_, .done (.inl hdid), hrefines⟩
        simp only [Session.handle, hrun]
        rfl
      | error err =>
        obtain ⟨err, t⟩ := err
        have hback : RollsBackTo ⟨s.db, s.setTransaction.writeSet⟩ t :=
          Call.EndsIn.rollsBackTo hsound ⟨hfinds, .inr ⟨err, hrun⟩⟩ (hserves.whole o rfl)
        obtain ⟨db', txn', habort, hrefines, -⟩ :=
          rollback_refines hbegan hback (hcall.of_error hrun)
            (hserves.room err t hrun) s.setTransaction
        refine ⟨_, some err, _, ?_, .failed ?_, hrefines⟩
        · simp only [Session.handle, hrun]
          exact congrArg (· >>= _) habort
        · have herr := hmeans.of_error hrun
          rw [hdb.schema, hdb.sizes, hcurrent] at herr
          exact herr.imp_right fun h => ⟨h.1, congrArg _ h.2⟩

end Refinement

/-! ## Runs -/

section Runs

variable {db : Db} {s : Session} {events : List (SessionRequest × Option ExecError)}

theorem Db.Consistent.refines (h : db.Consistent) : Session.Refines db ⟨db, none⟩ ⟨db.rows, none⟩ :=
  ⟨⟨h, rfl, rfl⟩, rfl, rfl, rfl, db, Resembles.began ⟨h, rfl, rfl⟩ rfl⟩

theorem refines_of_run (hdb : db.Consistent) (hrun : Run Session.Steps ⟨db, none⟩ events s) :
    ∃ a, Run (TxnStore.Step (SessionOp.Does db.schema db.sizes)) ⟨db.rows, none⟩ events a ∧
    s.Refines db a := by
  have hstep (s : Session) (event : SessionRequest × Option ExecError) (s' : Session)
    (a : TxnStore DbRows) (hs : s.Steps event s') (ha : s.Refines db a) :
      ∃ a', TxnStore.Step (SessionOp.Does db.schema db.sizes) a (id event) a' ∧
        s'.Refines db a' := by
    obtain ⟨s'', reply, a', hhandle, hstep, hrefines⟩ := ha.handle hs.1
    obtain ⟨rfl, rfl⟩ := Prod.mk.inj (Except.ok.inj (hs.2.symm.trans hhandle))
    exact ⟨a', hstep, hrefines⟩
  obtain ⟨a, hrun, hrefines⟩ := hrun.simulates hstep hdb.refines
  rw [List.map_id] at hrun
  exact ⟨a, hrun, hrefines⟩

/-- A client sees a store with transactions.  In every run of its requests from a consistent
database, the replies and the rows are those of the store: a statement does what it means or fails
with the error that it should, an error or a rollback takes the whole transaction back.  The
database stays consistent, the rows behind the transaction in progress are made by the statements of
the committed transactions alone, and no undo ever fails. -/
theorem session_refines_store (hdb : db.Consistent) (hrun : Run Session.Steps ⟨db, none⟩ events s) :
    (∃ a, Run (TxnStore.Step (SessionOp.Does db.schema db.sizes)) ⟨db.rows, none⟩ events a ∧
        s.db.rows = a.current ∧ s.db.Consistent ∧
        Run (TxnLog.Makes (SessionOp.Does db.schema db.sizes)) db.rows
        (TxnLog.survivors events) a.committed) ∧
      ∀ req, s.Serves req → ∃ s' reply, s.handle req = .ok (s', reply) := by
  obtain ⟨a, hstore, hrefines⟩ := refines_of_run hdb hrun
  refine ⟨⟨a, hstore, hrefines.current, hrefines.resembles.consistent,
    TxnLog.makes_committed hstore⟩,
    fun req hreq => ?_⟩
  obtain ⟨s', reply, a', hhandle, -⟩ := hrefines.handle hreq
  exact ⟨s', reply, hhandle⟩

/-- The insertion of the number 1, with no lock refused. -/
def orderOne : Order := ⟨fun _ => false, .insert "t" [.int 1], [], []⟩

theorem serves_of_not_dml {req : SessionRequest} (h : ∀ o, req ≠ .op (.dml o))
    (hroom : s.RollsBackIntoRoom req) : s.Serves req :=
  ⟨fun o ho => absurd ho (h o), fun o ho => absurd ho (h o), fun o ho => absurd ho (h o), hroom⟩

/-- BEGIN and the insertion, before a rollback. -/
theorem session_refines_store_rollback : ∃ s s' reply,
    Run Session.Steps ⟨numberDb, none⟩ [(.begin, none), (.op (.dml orderOne), none)] s ∧
      s.handle .rollback = .ok (s', reply) := by
  have hwrites : ((orderOne.call true).run ⟨numberDb, []⟩).toOption.map TxnState.writeSet =
      some [.insertTuple "t" ⟨1, 0⟩] := by decide +kernel
  cases hrun : (orderOne.call true).run ⟨numberDb, []⟩ with
  | error err =>
    rw [hrun] at hwrites
    cases hwrites
  | ok t =>
    rw [hrun] at hwrites
    have hwrites : t.writeSet = [.insertTuple "t" ⟨1, 0⟩] := Option.some.inj hwrites
    let started : Session := ⟨numberDb, some { txnMode := true }⟩
    have hinsert : started.Serves (.op (.dml orderOne)) := by
      refine ⟨fun o ho => ?_, fun o ho => ?_, fun o ho => ?_, fun err t' herr => ?_⟩
      · cases ho
        trivial
      · cases ho
        trivial
      · cases ho
        exact id
      · cases hrun.symm.trans herr
    have hhandle : started.handle (.op (.dml orderOne)) =
        .ok (⟨t.db, some { txnMode := true, writeSet := t.writeSet }⟩, none) := by
      have hrun' : (orderOne.call started.setTransaction.txnMode).run
          ⟨started.db, started.setTransaction.writeSet⟩ = .ok t := hrun
      simp only [Session.handle, hrun']
      rfl
    have hsteps : Run Session.Steps ⟨numberDb, none⟩ [(.begin, none), (.op (.dml orderOne), none)]
        ⟨t.db, some { txnMode := true, writeSet := t.writeSet }⟩ := by
      refine .cons ⟨serves_of_not_dml ?_ trivial, rfl⟩ (.single ⟨hinsert, hhandle⟩)
      intro o ho
      cases ho
    obtain ⟨-, hanswer⟩ := session_refines_store consistent_numberDb hsteps
    have hroom : LeavesRoom t.writeSet t.db := by
      rw [hwrites]
      exact fun _ _ => ⟨trivial, trivial⟩
    have hserves : Session.Serves ⟨t.db, some { txnMode := true, writeSet := t.writeSet }⟩
        .rollback := by
      refine serves_of_not_dml ?_ hroom
      intro o ho
      cases ho
    obtain ⟨s', reply, hrollback⟩ := hanswer .rollback hserves
    exact ⟨_, s', reply, hsteps, hrollback⟩

end Runs

end Rmdb
