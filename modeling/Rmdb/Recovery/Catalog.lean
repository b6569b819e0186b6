import Rmdb.Recovery.Durability
import Rmdb.Recovery.IndexRecovery
import Rmdb.Recovery.LogFile

/-!
# Recovery and the catalog

The log has no records of data definition and names tables only by their names, and every restart
replays it from its beginning against the catalog as it is then (`analyze`, `redo` and `undo` of
`recovery/log_recovery.cpp`, `create_table` and `drop_table` of `system/sm_manager.cpp`).  A table
is in `db_` exactly when its file is in `fhs_`.

Histories are made of completed statements.  A restart comes when every transaction has committed;
`TransactionManager::commit` has then flushed the log and the pages, so that the log is complete and
each page of a file can be read.  What the slots hold on disk is left open further than that.
-/

namespace Rmdb

open Slot Tables

/-! ## Recovery -/

/-- `tables_with_dml_`: the tables that INSERT, UPDATE and DELETE records name. -/
def tablesWithDml (logs : List LogRecord) : List String :=
  logs.filterMap fun r => r.body.op?.map fun e => e.1.1

/-- What a restart meets: the files of the tables, the descriptors in `open_db` and what it makes,
the answers of the system to `analyze` and `undo`, the order in which they go through
`tables_with_dml_`, and the memory from the start of `buffer_` on. -/
structure Restart where
  disk : Tables
  fds : String → ℤ
  opened : SmManager
  analyzeOs : SmManager → OsAnswer
  undoOs : SmManager → OsAnswer
  order : List String
  memory : Memory

/-- The system refuses no call of the recovery. -/
structure Restart.Granted (r : Restart) : Prop where
  analyzeOs : GrantsAll r.analyzeOs
  undoOs : GrantsAll r.undoOs

/-- `analyze(); redo(); undo()` from where the log has been read.  `rollback` also undoes index
entries of losers; here every index whose table the log names is made anew after that. -/
def recoverDb (r : Restart) (logs : List LogRecord) :
    Option (SmManager × Tables × SmManager.Trees) := do
  let a ← analyze logs
  let s ← (r.opened.resetIndexes r.analyzeOs r.order).toOption
  let tabs ← (redo a r.disk).toOption
  let tabs := undo a tabs
  let (s, trees) ← (s.rebuildIndexes r.undoOs tabs r.order).toOption
  return (s, tabs, trees)

/-- What the committed transactions left in the slot `x` by their operations from position `n` of
the log on. -/
def committedSince (logs : List LogRecord) (n : ℕ) (x : Loc) : Option Bytes :=
  finalValue none (committedOps (committedIn logs) (opsOn x (logs.drop n)))

/-- The catalog and the server.  `created` records for each table where the log ended at its latest
CREATE TABLE. -/
structure Database where
  sm : SmManager
  server : Server
  created : String → ℕ := fun _ => 0

/-- The statements of a history, and its restarts. -/
inductive DbOp
  | dml (op : ServerOp)
  | ddl (call : DdlCall)
  | restart (r : Restart)

/-- The steps of transactions that commit. -/
def ServerOp.isDml : ServerOp → Bool
  | .refused _ _ => false
  | .abort _ => false
  | .crash _ _ => false
  | _ => true

/-- Statements run as a whole: an operation is logged with the record that is in the slot. -/
def ServerOp.Whole (s : Server) : ServerOp → Prop
  | .write _ body => ∀ x op, body.op? = some (x, op) → op.before = (s.tabs.slot x).val
  | _ => True

/-- The file of a table is replaced or removed, and nothing of it has been written yet. -/
def Server.setTable (s : Server) (tabName : String) (file : Option RmFile) : Server :=
  { s with
    tabs := Function.update s.tabs tabName file
    touched := {x | x ∈ s.touched ∧ x.1 ≠ tabName} }

/-- The tables that still have a handle. -/
def Server.keepOpen (s : Server) (fhs : String → Option ℤ) : Server :=
  { s with tabs := fun tabName => if fhs tabName = none then none else s.tabs tabName }

namespace Database

/-- What a restart can meet in a state: the files of the catalog with any content in the slots ever
written. -/
structure Image (s : Database) (r : Restart) : Prop where
  opened : openDb s.sm.disk.files s.sm.metaText r.fds = .ok r.opened
  apart : Apart r.fds s.sm.disk.files
  files : ∀ tabName, r.disk tabName = none ↔ r.opened.fhs tabName = none
  frame : Tables.Frame s.server.tabs r.disk
  empty : ∀ x, r.disk.ValidLoc x → x ∉ s.server.touched → (r.disk.slot x).used = false
  nodup : r.order.Nodup
  order : ∀ tabName, tabName ∈ r.order ↔ tabName ∈ tablesWithDml s.server.logs
  analyzeFds : FreshFds r.analyzeOs
  undoFds : FreshFds r.undoOs

/-- One step of a history.  A statement of data definition returns or throws; `create_index` goes
through the records of the table.  After a restart the history goes on only when the whole log was
read. -/
inductive Step : Database → DbOp → Database → Prop
  | dml {s : Database} {op : ServerOp} {server : Server} : op.isDml → op.Whole s.server →
      s.server.Step op server → (∀ tabName, server.tabs tabName = none ↔
        s.server.tabs tabName = none) →
      Step s (.dml op) { s with server := server }
  | createTable {s : Database} {tabName : String} {colDefs : List ColDef} {os : OsAnswer}
      {sm : SmManager}
      {hdr : RmFileHdr} : (DdlCall.createTable tabName colDefs os).Legal s.sm →
      s.sm.createTable tabName colDefs os = .ok sm → createFile (recordSizeOf colDefs) = .ok hdr →
      Step s (.ddl (.createTable tabName colDefs os)) {
        sm := sm
        server := s.server.setTable tabName (some (RmFile.openFile hdr fun _ => {}))
        created := Function.update s.created tabName s.server.logs.length }
  | dropTable {s : Database} {tabName : String} {os : OsAnswer} {sm : SmManager} :
      s.sm.dropTable tabName os = .ok sm →
      Step s (.ddl (.dropTable tabName os))
        { s with sm := sm, server := s.server.setTable tabName none }
  | createIndex {s : Database} {tabName : String} {colNames : List String} {rows : List ScannedRow}
      {os : OsAnswer}
      {sm : SmManager} : (DdlCall.createIndex tabName colNames rows os).Legal s.sm →
      (∀ f, s.server.tabs tabName = some f → rows = f.scannedRows.map fun r => (r.1, .ok r.2)) →
      s.sm.createIndex tabName colNames rows os = .ok sm →
      Step s (.ddl (.createIndex tabName colNames rows os)) { s with sm := sm }
  | dropIndex {s : Database} {tabName : String} {colNames : List String} {os : OsAnswer}
      {sm : SmManager} :
      s.sm.dropIndex tabName colNames os = .ok sm →
        Step s (.ddl (.dropIndex tabName colNames os)) { s with sm := sm }
  | throws {s : Database} {call : DdlCall} {e : SmError} {sm : SmManager} : call.Legal s.sm →
      e ≠ .assertion →
      call.run s.sm = .error (e, sm) →
        Step s (.ddl call) { s with sm := sm, server := s.server.keepOpen sm.fhs }
  | restart {s : Database} {r : Restart} {sm : SmManager} {tabs : Tables} {trees : SmManager.Trees}
      {server : Server} :
      s.server.running = [] → s.Image r →
      LogReader.Reads (logFile s.server.logs) LOG_BUFFER_SIZE { buffer := r.memory }
        (s.server.logs.map LogRecord.entry) →
      recoverDb r ((s.server.logs.map LogRecord.entry).map LogEntry.record) =
        some (sm, tabs, trees) →
      s.server.Step (.crash s.server.logs.length r.disk) server → server.tabs = tabs →
      Step s (.restart r) { s with sm := sm, server := server }

/-- A new database. -/
structure Initial (s : Database) : Prop where
  server : s.server.Initial
  tabs : ∀ tabName, s.server.tabs tabName = none
  created : ∀ tabName, s.created tabName = 0
  opened : ∃ dbName fds, IsWord dbName ∧ Apart fds (createDb dbName).1 ∧
    openDb (createDb dbName).1 (createDb dbName).2 fds = .ok s.sm

/-- Recovery runs to its end and leaves the catalog as it is; each table in it then has its file,
and each slot of the table holds what was committed since the table's latest CREATE TABLE. -/
def Recovers (s : Database) (r : Restart) : Prop :=
  ∃ entries sm tabs trees, LogReader.Reads (logFile s.server.logs) LOG_BUFFER_SIZE
    { buffer := r.memory } entries ∧
    recoverDb r (entries.map LogEntry.record) = some (sm, tabs, trees) ∧ sm.db = s.sm.db ∧
    (∀ tabName, tabs tabName ≠ none ↔ ∃ tab ∈ sm.db.tabs, tab.name = tabName) ∧
    ∀ x, (tabs.ValidLoc x ↔ s.server.tabs.ValidLoc x) ∧
      (tabs.ValidLoc x → (tabs.slot x).val = committedSince s.server.logs (s.created x.1) x)

/-- No table is dropped that the log names in an INSERT, UPDATE or DELETE record, the log can be
read at a restart, and the system refuses to create, open, close and remove no file in recovery, and
to open, close and remove none elsewhere. -/
def KeepsLogged (s : Database) : DbOp → Prop
  | .dml _ => True
  | .ddl (.dropTable tabName os) => os.Grants ∧ tabName ∉ tablesWithDml s.server.logs
  | .ddl call => call.os.Grants
  | .restart r => r.Granted ∧ ReadsLog r.memory s.server.logs

variable {s s' : Database} {x : Loc} {r : LogRecord} {tabName : String}

/-! ## Open files -/

theorem update_eq_none {tabs : Tables} {n : String} {f f' : RmFile} (hf : tabs n = some f) :
    Function.update tabs n (some f') tabName = none ↔ tabs tabName = none := by
  by_cases hn : tabName = n
  · simp [hn, hf]
  · rw [Function.update_of_ne hn]

theorem modify_eq_none {tabs : Tables} {n : String} {op : RmFile → Except RmError RmFile} :
    tabs.modify n op tabName = none ↔ tabs tabName = none := by
  cases hf : tabs n with
  | none => simp [Tables.modify, hf]
  | some f =>
    cases hop : op f with
    | ok f' =>
      simp only [Tables.modify, hf, hop]
      exact update_eq_none hf
    | error => simp [Tables.modify, hf, hop]

theorem write_eq_none {tabs : Tables} {x : Loc} {op : SlotOp Bytes} :
    tabs.write x op tabName = none ↔ tabs tabName = none := by
  cases op <;> exact modify_eq_none

theorem rollbackFrom_eq_none {logs : List LogRecord} {redoPhase : Bool} {fuel : ℕ} {now : ℤ}
    {tabs : Tables} :
    rollbackFrom logs redoPhase fuel now tabs tabName = none ↔ tabs tabName = none := by
  fun_induction rollbackFrom logs redoPhase fuel now tabs <;> simp_all [modify_eq_none]

theorem rollback_eq_none {a : Analysis} {redoPhase : Bool} {tabs : Tables} :
    rollback a redoPhase tabs tabName = none ↔ tabs tabName = none := by
  rw [rollback]
  generalize a.att.reverse = att
  induction att generalizing tabs with
  | nil => rfl
  | cons e att ih => rw [List.foldl_cons, ih, rollbackFrom_eq_none]

theorem redoModify_eq_none {tabs tabs' : Tables} {n : String} {op : RmFile → Except RmError RmFile}
    (h : redoModify tabs n op = .ok tabs') : tabs' tabName = none ↔ tabs tabName = none := by
  unfold redoModify at h
  split at h
  · cases h
    rfl
  · next f hf =>
    split at h
    · cases h
      exact update_eq_none hf
    · cases h

theorem redoLog_eq_none {a : Analysis} {tabs tabs' : Tables} {log : LogRecord}
    (h : redoLog a tabs log = .ok tabs') : tabs' tabName = none ↔ tabs tabName = none := by
  unfold redoLog at h
  split at h
  · cases h
    rfl
  split at h
  · split at h
    · cases h
      rfl
    · next f hf =>
      split at h
      · cases h
        exact update_eq_none hf
      · split at h
        · cases h
        · split at h
          · cases h
            exact update_eq_none hf
          · cases h
  · exact redoModify_eq_none h
  · exact redoModify_eq_none h
  · cases h
    rfl

theorem foldlM_redoLog_eq_none {a : Analysis} {logs : List LogRecord} {tabs tabs' : Tables}
    (h : logs.foldlM (redoLog a) tabs = .ok tabs') :
    tabs' tabName = none ↔ tabs tabName = none := by
  induction logs generalizing tabs with
  | nil =>
    cases h
    rfl
  | cons log logs ih =>
    rw [List.foldlM_cons] at h
    cases hlog : redoLog a tabs log with
    | error e =>
      rw [hlog] at h
      cases h
    | ok tabs₁ =>
      rw [hlog] at h
      exact (ih h).trans (redoLog_eq_none hlog)

/-- Recovery opens and closes no file of a table. -/
theorem recover_eq_none {logs : List LogRecord} {tabs tabs' : Tables}
    (h : recover logs tabs = some tabs') : tabs' tabName = none ↔ tabs tabName = none := by
  obtain ⟨a, -, h⟩ := Option.bind_eq_some_iff.1 h
  split at h
  · next tabs₁ hredo =>
    obtain rfl := Option.some.inj h
    rw [undo, rollback_eq_none, foldlM_redoLog_eq_none hredo, rollback_eq_none]
  · cases h

/-! ## The invariant -/

/-- The invariants of the catalog and of the server, with no leftovers and no refused operation; the
tables of the catalog have their files, and the log has no operation on a table from before its
latest CREATE TABLE. -/
structure Inv (s : Database) : Prop where
  sm : SmInv s.sm
  files : ∀ tabName, s.server.tabs tabName = none ↔ s.sm.fhs tabName = none
  server : s.server.Inv
  leftovers : s.server.leftovers = ∅
  refused : s.server.refused = []
  created_le : ∀ tabName, s.created tabName ≤ s.server.logs.length
  created : ∀ x : Loc, opsOn x (s.server.logs.take (s.created x.1)) = []

theorem Initial.inv (h : Initial s) : Inv s := by
  obtain ⟨dbName, fds, hname, hfds, hopen⟩ := h.opened
  have hdb : DbMeta.Ok ⟨dbName, []⟩ := ⟨hname, List.Pairwise.nil, by simp, by simp⟩
  obtain ⟨hsm, hempty⟩ := smInv_of_openDb hdb (by simp) hfds hopen
  refine ⟨hsm, fun tabName => ?_, h.server.inv, h.server.leftovers, h.server.refused,
    fun tabName => ?_, fun x => ?_⟩
  · refine iff_of_true (h.tabs tabName) ?_
    by_contra hsome
    obtain ⟨tab, htab, -⟩ := (hsm.fhs tabName).1 (Option.isSome_iff_ne_none.2 hsome)
    rw [hempty] at htab
    cases htab
  · rw [h.created]
    exact Nat.zero_le _
  · rw [h.created]
    rfl

theorem mem_tablesWithDml {logs : List LogRecord} :
    tabName ∈ tablesWithDml logs ↔ ∃ x : Loc, opsOn x logs ≠ [] ∧ x.1 = tabName := by
  constructor
  · intro h
    obtain ⟨r, hr, hop⟩ := List.mem_filterMap.1 h
    obtain ⟨e, he, rfl⟩ := Option.map_eq_some_iff.1 hop
    exact ⟨e.1, Server.opsOn_ne_nil hr he, rfl⟩
  · rintro ⟨x, hne, rfl⟩
    obtain ⟨r, hr, op, hop⟩ := Server.exists_of_opsOn_ne_nil hne
    exact List.mem_filterMap.2 ⟨r, hr, by rw [hop]; rfl⟩

/-- A table is in the catalog exactly when its file is open. -/
theorem Inv.exists_table (h : Inv s) :
    s.server.tabs tabName ≠ none ↔ ∃ tab ∈ s.sm.db.tabs, tab.name = tabName := by
  rw [Ne, h.files, ← Ne, ← Option.isSome_iff_ne_none, h.sm.fhs]

/-- The tables that the log names are in the catalog. -/
theorem Inv.tables (h : Inv s) (hlog : tabName ∈ tablesWithDml s.server.logs) :
    ∃ tab ∈ s.sm.db.tabs, tab.name = tabName := by
  obtain ⟨x, hx, rfl⟩ := mem_tablesWithDml.1 hlog
  obtain ⟨f, hf, -⟩ := h.server.validLoc hx
  exact h.exists_table.1 (by rw [hf]; exact Option.some_ne_none f)

/-- A table that the log does not name can be replaced or removed. -/
theorem Inv.setTable {server : Server} {file : Option RmFile} (h : server.Inv)
    (hleft : server.leftovers = ∅) (hrefused : server.refused = [])
    (hlog : tabName ∉ tablesWithDml server.logs)
    (hfile : ∀ f, file = some f → ∀ rid, ¬ f.ValidRid rid) :
    (server.setTable tabName file).Inv := by
  have hne {x : Loc} (hx : opsOn x server.logs ≠ []) : x.1 ≠ tabName := fun heq =>
    hlog (mem_tablesWithDml.2 ⟨x, hx, heq⟩)
  have htabs {x : Loc} (hx : x.1 ≠ tabName) : (server.setTable tabName file).tabs x.1 =
    server.tabs x.1 :=
    Function.update_of_ne hx _ _
  have hvalid {x : Loc} (hx : (server.setTable tabName file).tabs.ValidLoc x) : x.1 ≠ tabName := by
    rintro rfl
    obtain ⟨f, hf, -, hrid⟩ := hx
    change Function.update server.tabs x.1 file x.1 = some f at hf
    rw [Function.update_self] at hf
    exact hfile f hf x.2 hrid
  have hiff {x : Loc} (hx : x.1 ≠ tabName) :
      (server.setTable tabName file).tabs.ValidLoc x ↔ server.tabs.ValidLoc x := by
    rw [ValidLoc, ValidLoc, htabs hx]
  have hslot {x : Loc} (hx : x.1 ≠ tabName) :
      (server.setTable tabName file).tabs.slot x = server.tabs.slot x := by
    rw [slot, slot, htabs hx]
  obtain ⟨hlogged, hnoted, -, hends⟩ := h.writeSets
  have hval (x : Loc) : server.loggedVal x = (server.tabs.slot x).val :=
    Server.loggedVal_of_nil (by rw [hrefused]; rfl)
  have hval' (x : Loc) : (server.setTable tabName file).loggedVal x =
      ((server.setTable tabName file).tabs.slot x).val :=
    Server.loggedVal_of_nil (by rw [Server.setTable, hrefused]; rfl)
  refine { h with
    fits := ?_, writeSets := ⟨hlogged, hnoted, ?_, hends⟩, values := ?_, untouched := ?_,
                  touched := ?_, mentioned := ?_, leftovers := ?_ }
  · intro r hr x op hop
    obtain ⟨hx, hfits⟩ := h.fits r hr x op hop
    have hxne := hne (Server.opsOn_ne_nil hr hop)
    refine ⟨(hiff hxne).2 hx, ?_⟩
    cases op <;> simpa only [SlotOp.Fits, FitsLoc, htabs hxne] using hfits
  · rw [Server.setTable, hrefused]
    intro x e he
    cases he
  · intro x hx hleft'
    have hxne := hvalid hx
    rw [hval', hslot hxne, ← hval]
    exact h.values x ((hiff hxne).1 hx) hleft'
  · intro x hx hnot
    have hxne := hvalid hx
    rw [hslot hxne]
    exact h.untouched x ((hiff hxne).1 hx) fun ht => hnot ⟨ht, hxne⟩
  · exact fun x hx => ⟨h.touched x hx, hne hx⟩
  · exact fun x hx => h.mentioned x hx.1
  · intro x hx
    rw [Server.setTable, hleft] at hx
    exact absurd hx (Set.notMem_empty x)

/-- Where all tables have their handles, they all stay. -/
theorem Inv.keepOpen (h : Inv s) : s.server.keepOpen s.sm.fhs = s.server := by
  have htabs : (fun tabName => if s.sm.fhs tabName = none then none else s.server.tabs tabName) =
      s.server.tabs := by
    funext tabName
    split
    · next hnone => exact ((h.files tabName).2 hnone).symm
    · rfl
  rw [Server.keepOpen, htabs]

/-- A step of a transaction that commits only adds to the log. -/
theorem logs_of_dml {server server' : Server} {op : ServerOp} (hdml : op.isDml)
    (hstep : server.Step op server') :
    (∃ rest, server'.logs = server.logs ++ rest) ∧ server'.leftovers = server.leftovers ∧
      server'.refused = server.refused := by
  cases hstep with
  | refused => cases hdml
  | abort => cases hdml
  | crash => cases hdml
  | begin => exact ⟨⟨_, rfl⟩, rfl, rfl⟩
  | write => exact ⟨⟨_, rfl⟩, rfl, rfl⟩
  | index => exact ⟨⟨_, rfl⟩, rfl, rfl⟩
  | commit => exact ⟨⟨_, rfl⟩, rfl, rfl⟩
  | flush => exact ⟨⟨[], (List.append_nil _).symm⟩, rfl, rfl⟩
  | commitReturns => exact ⟨⟨[], (List.append_nil _).symm⟩, rfl, rfl⟩
  | newPage => exact ⟨⟨[], (List.append_nil _).symm⟩, rfl, rfl⟩

/-- The lock that a write has keeps the other running transactions away from the slot. -/
theorem Inv.avoids {op : ServerOp} {server : Server} (h : Inv s) (hdml : op.isDml)
    (hwhole : op.Whole s.server)
    (hstep : s.server.Step op server) : Server.AvoidsLeftovers s.server op := by
  cases hstep with
  | @write t body x op ht hnone hop hx hfits hfree hlock =>
    intro y op' hop'
    rw [hop] at hop'
    cases hop'
    refine ⟨by simp [h.leftovers], hwhole x op hop, fun t' ht' hne => ?_⟩
    rw [← h.server.writeSets.noted t' ht' x (by rw [h.refused]; rfl), opsBy_opsOn] at hne
    obtain ⟨op', hop'⟩ := List.exists_mem_of_ne_nil _ hne
    obtain ⟨r, hr, hop'⟩ := List.mem_filterMap.1 hop'
    obtain ⟨hr, hid⟩ := List.mem_filter.1 hr
    have hid : r.logTid = t' := by simpa using hid
    rw [← hid]
    exact hlock r hr (by simp [h.refused]) (by simp [hop'])
  | refused => cases hdml
  | abort => cases hdml
  | crash => cases hdml
  | _ => trivial

/-- With no transaction running a restart leaves nothing unfinished. -/
theorem Inv.unfinishedAt (h : Inv s) (hrunning : s.server.running = []) :
    s.server.unfinishedAt s.server.logs.length = ∅ := by
  refine Set.eq_empty_iff_forall_notMem.2 fun x hx => ?_
  obtain ⟨t, ht, hended⟩ := hx
  rw [List.take_length] at hended
  rcases h.server.writers x t (by simp [h.leftovers]) ht with hend | hrun
  · rw [hend] at hended
    cases hended
  · simp [hrunning] at hrun

/-! ## Restarts -/

/-- Recovery ends with the invariant of the catalog, as it was, and with the files that it had
open. -/
theorem Inv.recoverDb {r : Restart} (h : Inv s) (himage : s.Image r) (hgranted : r.Granted) :
    ∃ sm tabs trees, Rmdb.recoverDb r s.server.logs = some (sm, tabs, trees) ∧
      recover s.server.logs r.disk = some tabs ∧ SmInv sm ∧ sm.db = s.sm.db ∧
      ∀ tabName, tabs tabName = none ↔ sm.fhs tabName = none := by
  have hopen := himage.opened
  rw [h.sm.metaText] at hopen
  obtain ⟨hsm, hdb⟩ := smInv_of_openDb h.sm.catalog h.sm.files himage.apart hopen
  have htables : ∀ tabName ∈ r.order, ∃ tab ∈ r.opened.db.tabs, tab.name = tabName :=
      fun tabName hmem =>
    hdb ▸ h.tables ((himage.order tabName).1 hmem)
  have hfits : ∀ r' ∈ s.server.logs, r'.Fits r.disk :=
    fun r' hr => (h.server.fits r' hr).frame himage.frame
  obtain ⟨s₁, hreset, hsm₁, hdb₁, hfhs₁⟩ :=
    hsm.resetIndexes himage.analyzeFds hgranted.analyzeOs htables
  obtain ⟨tabs, hrec, -⟩ := recover_committed h.server.linked hfits
  obtain ⟨sm, trees, hrebuild, hsm', hdb', hfhs'⟩ :=
    hsm₁.rebuildIndexes himage.undoFds hgranted.undoOs tabs (hdb₁ ▸ htables)
  refine ⟨sm, tabs, trees, ?_, hrec, hsm', hdb'.trans (hdb₁.trans hdb), fun tabName => ?_⟩
  · obtain ⟨a, ha, hrec⟩ := Option.bind_eq_some_iff.1 hrec
    rw [Rmdb.recoverDb, ha]
    split at hrec
    · next tabs₁ hredo =>
      obtain rfl := Option.some.inj hrec
      simp [hreset, hredo, hrebuild, Except.toOption]
    · cases hrec
  · rw [recover_eq_none hrec, himage.files, hfhs', hfhs₁]

/-! ## Histories -/

theorem Inv.setSm {sm : SmManager} (h : Inv s) (hsm : SmInv sm) (hfhs : sm.fhs = s.sm.fhs) :
    Inv { s with sm := sm } :=
  { h with sm := hsm, files := fun tabName => by rw [hfhs]; exact h.files tabName }

theorem Inv.createTable {colDefs : List ColDef} {os : OsAnswer} {sm : SmManager}
    {hdr : RmFileHdr} (h : Inv s)
    (hos : os.Grants) (hlegal : (DdlCall.createTable tabName colDefs os).Legal s.sm)
    (hrun : s.sm.createTable tabName colDefs os = .ok sm)
    (hcreate : createFile (recordSizeOf colDefs) = .ok hdr) : Inv {
      sm := sm
      server := s.server.setTable tabName (some (RmFile.openFile hdr fun _ => {}))
      created := Function.update s.created tabName s.server.logs.length } := by
  obtain ⟨hsm, hnone, fd, hfhs⟩ := (h.sm.createTable hos hlegal.1 hlegal.2.1 hlegal.2.2).of_ok hrun
  have hlog : tabName ∉ tablesWithDml s.server.logs := fun hmem =>
    h.exists_table.2 (h.tables hmem) ((h.files tabName).2 hnone)
  have hnil (x : Loc) (hx : x.1 = tabName) : opsOn x s.server.logs = [] := by
    by_contra hne
    exact hlog (mem_tablesWithDml.2 ⟨x, hne, hx⟩)
  obtain ⟨-, hone, -⟩ := createFile_wellFormed hcreate
  refine ⟨hsm, fun n => ?_, Inv.setTable h.server h.leftovers h.refused hlog ?_, h.leftovers,
    h.refused, fun n => ?_,
    fun x => ?_⟩
  · change Function.update s.server.tabs tabName _ n = none ↔ sm.fhs n = none
    rw [hfhs, emplace, hnone, if_neg (by simp)]
    by_cases hn : n = tabName
    · simp [hn]
    · rw [Function.update_of_ne hn, Function.update_of_ne hn]
      exact h.files n
  · rintro f ⟨⟩ rid ⟨⟨hle, hlt⟩, -⟩
    change _ < hdr.numPages at hlt
    omega
  · change Function.update s.created tabName s.server.logs.length n ≤ s.server.logs.length
    by_cases hn : n = tabName
    · rw [hn, Function.update_self]
    · rw [Function.update_of_ne hn]
      exact h.created_le n
  · change opsOn x (s.server.logs.take
      (Function.update s.created tabName s.server.logs.length x.1)) = []
    by_cases hx : x.1 = tabName
    · rw [hx, Function.update_self, List.take_length]
      exact hnil x hx
    · rw [Function.update_of_ne hx]
      exact h.created x

theorem Inv.dropTable {os : OsAnswer} {sm : SmManager} (h : Inv s) (hos : os.Grants)
    (hlog : tabName ∉ tablesWithDml s.server.logs) (hrun : s.sm.dropTable tabName os = .ok sm) :
    Inv { s with sm := sm, server := s.server.setTable tabName none } := by
  obtain ⟨hsm, -, hfhs⟩ := (h.sm.dropTable hos tabName).of_ok hrun
  refine ⟨hsm, fun n => ?_, Inv.setTable h.server h.leftovers h.refused hlog (by simp),
    h.leftovers, h.refused, h.created_le, h.created⟩
  change Function.update s.server.tabs tabName none n = none ↔ sm.fhs n = none
  rw [hfhs]
  by_cases hn : n = tabName
  · simp [hn]
  · rw [Function.update_of_ne hn, Function.update_of_ne hn]
    exact h.files n

/-- A call that throws changes no handle of a table. -/
theorem Inv.throws {call : DdlCall} {e : SmError} {sm : SmManager} (h : Inv s)
    (hos : call.os.Grants)
    (hlegal : call.Legal s.sm) (he : e ≠ .assertion) (hrun : call.run s.sm = .error (e, sm)) :
    SmInv sm ∧ sm.fhs = s.sm.fhs := by
  have hsm := h.sm.step ⟨hos, hlegal, .inr ⟨e, he, hrun⟩⟩
  refine ⟨hsm, ?_⟩
  cases call with
  | createTable tabName colDefs os =>
    exact ((h.sm.createTable hos hlegal.1 hlegal.2.1 hlegal.2.2).of_error hrun).2 ▸ rfl
  | dropTable tabName os => exact ((h.sm.dropTable hos tabName).of_error hrun).2 ▸ rfl
  | createIndex tabName colNames rows os =>
    rcases (h.sm.createIndex hos hlegal.1 hlegal.2 tabName colNames rows).of_error hrun with
      herr | ⟨-, rfl⟩ | ⟨-, path, hfile, rfl⟩
    · exact absurd herr he
    · rfl
    · rfl
  | dropIndex tabName colNames os =>
    exact ((h.sm.dropIndex hos tabName colNames).of_error hrun).2 ▸ rfl

theorem Inv.step {op : DbOp} (h : Inv s) (hstep : Meeting KeepsLogged Step s op s') : Inv s' := by
  obtain ⟨hkeeps, hstep⟩ := hstep
  cases hstep with
  | @dml op server hdml hwhole hstep hfiles =>
    obtain ⟨⟨rest, hlogs⟩, hleft, hrefused⟩ := logs_of_dml hdml hstep
    refine ⟨h.sm, fun n => (hfiles n).trans (h.files n),
      h.server.step ⟨h.avoids hdml hwhole hstep, hstep⟩,
      hleft.trans h.leftovers, hrefused.trans h.refused, fun n => ?_, fun x => ?_⟩
    · change s.created n ≤ server.logs.length
      rw [hlogs, List.length_append]
      exact (h.created_le n).trans (Nat.le_add_right _ _)
    · change opsOn x (server.logs.take (s.created x.1)) = []
      rw [hlogs, List.take_append_of_le_length (h.created_le x.1)]
      exact h.created x
  | createTable hlegal hrun hcreate => exact h.createTable hkeeps hlegal hrun hcreate
  | dropTable hrun => exact h.dropTable hkeeps.1 hkeeps.2 hrun
  | @createIndex tabName colNames rows os sm hlegal _ hrun =>
    obtain ⟨hsm, hfhs⟩ :=
      (h.sm.createIndex hkeeps hlegal.1 hlegal.2 tabName colNames rows).of_ok hrun
    exact h.setSm hsm hfhs
  | @dropIndex tabName colNames os sm hrun =>
    obtain ⟨hsm, hfhs⟩ := (h.sm.dropIndex hkeeps tabName colNames).of_ok hrun
    exact h.setSm hsm hfhs
  | @throws call e sm hlegal he hrun =>
    have hos : call.os.Grants := by
      cases call with
      | dropTable => exact hkeeps.1
      | _ => exact hkeeps
    obtain ⟨hsm, hfhs⟩ := h.throws hos hlegal he hrun
    rw [hfhs, h.keepOpen]
    exact h.setSm hsm hfhs
  | @restart r sm tabs trees server hrunning himage _ hrec hstep htabs =>
    obtain ⟨hgranted, hreads⟩ := hkeeps
    obtain ⟨sm', tabs', trees', hrec', -, hsm, -, hfiles⟩ := h.recoverDb himage hgranted
    rw [hreads.records, hrec'] at hrec
    cases hrec
    have havoids : Server.AvoidsLeftovers s.server (.crash s.server.logs.length r.disk) := trivial
    have hinv := h.server.step ⟨havoids, hstep⟩
    cases hstep with
    | crash =>
      refine ⟨hsm, fun n => htabs ▸ hfiles n, hinv, ?_, rfl, fun n => ?_, fun x => ?_⟩
      · change s.server.leftovers ∪ s.server.unfinishedAt s.server.logs.length = ∅
        rw [h.leftovers, h.unfinishedAt hrunning, Set.union_empty]
      · change s.created n ≤ (s.server.logs.take s.server.logs.length).length
        rw [List.take_length]
        exact h.created_le n
      · change opsOn x ((s.server.logs.take s.server.logs.length).take _) = []
        rw [List.take_length]
        exact h.created x

/-- The operations on a table since its latest CREATE TABLE are all that the log has. -/
theorem Inv.committedSince_eq (h : Inv s) (x : Loc) :
    committedSince s.server.logs (s.created x.1) x = committedValue s.server.logs x := by
  have hops : opsOn x (s.server.logs.drop (s.created x.1)) = opsOn x s.server.logs := by
    conv_rhs => rw [← List.take_append_drop (s.created x.1) s.server.logs, opsOn_append,
      h.created x]
    rw [List.nil_append]
  rw [committedSince, hops, committedValue]

theorem Inv.recovers {r : Restart} (h : Inv s) (himage : s.Image r)
    (hkeeps : s.KeepsLogged (.restart r)) : s.Recovers r := by
  obtain ⟨hgranted, hreads⟩ := hkeeps
  obtain ⟨sm, tabs, trees, hrun, hrec, hsm, hdb, hfiles⟩ := h.recoverDb himage hgranted
  refine ⟨_, sm, tabs, trees, hreads.reads h.server.linked, by rw [hreads.records, hrun], hdb,
    fun tabName => ?_,
    fun x => ?_⟩
  · rw [Ne, hfiles, ← Ne, ← Option.isSome_iff_ne_none, hsm.fhs]
  · rw [← List.take_length (l := s.server.logs)] at hrec
    obtain ⟨hframe, hslot⟩ := h.server.recovered himage.frame hrec
    refine ⟨hframe.valid x, fun hx => ?_⟩
    have hx' := (hframe.valid x).1 hx
    rw [h.committedSince_eq, hslot x hx' ?_, List.take_length]
    rw [List.take_length]
    by_cases ht : x ∈ s.server.touched
    · exact .inr (h.server.mentioned x ht (by simp [h.leftovers]))
    · exact .inl (val_of_not_used (himage.empty x ((himage.frame.valid x).2 hx') ht))

/-- The log of a transaction that inserts one record into the table `t`. -/
def insertLog : List LogRecord :=
  [⟨0, 0, -1, .begin⟩, ⟨1, 0, 0, .insert "t" ⟨1, 0⟩ [1]⟩, ⟨2, 0, 1, .commit⟩]

theorem readsLog_insertLog (m : Memory) : ReadsLog m insertLog where
  short := by decide +kernel
  small := by decide
  stored := by decide +kernel
  cuts := by
    have hname : (storedName "t").length = 2 := by decide +kernel
    simp [LogReader.CutsOk, insertLog, LogRecord.entry, LogBody.data, LogData.totLen, hname,
      OFFSET_LOG_DATA, LOG_BUFFER_SIZE, PAGE_SIZE]

/-- A new file of one-byte records. -/
def byteFile : RmFile := RmFile.openFile ⟨1, 1, 3622, -1, 453⟩ fun _ => {}

/-- No table but `t`. -/
def onlyTable (file : RmFile) : Tables := Function.update (fun _ => none) "t" (some file)

theorem onlyTable_some {file f : RmFile} (h : onlyTable file x.1 = some f) :
    x.1 = "t" ∧ f = file := by
  by_cases hx : x.1 = "t"
  · rw [onlyTable, hx, Function.update_self] at h
    exact ⟨hx, (Option.some.inj h).symm⟩
  · rw [onlyTable, Function.update_of_ne hx] at h
    cases h

theorem onlyTable_eq_none {file : RmFile} : onlyTable file tabName = none ↔ tabName ≠ "t" := by
  by_cases hn : tabName = "t"
  · simp [onlyTable, hn]
  · simp [onlyTable, hn]

/-- The first page of the file. -/
theorem grows_byteFile : (onlyTable byteFile).Grows (onlyTable byteFile.createNewPageHandle.1) := by
  refine ⟨fun x hx => ?_, fun x buf => ?_, fun x hx _ => ?_⟩
  · obtain ⟨f, hf, -, ⟨hle, hlt⟩, -⟩ := hx
    obtain ⟨-, rfl⟩ := onlyTable_some hf
    change _ < (1 : ℤ) at hlt
    omega
  · by_cases hx : x.1 = "t"
    · simp [FitsLoc, onlyTable, hx, byteFile, RmFile.openFile, RmFile.createNewPageHandle,
        RmFile.setPage]
    · simp [FitsLoc, onlyTable, Function.update_of_ne hx]
  · obtain ⟨f, hf, -, hpage, -⟩ := hx
    obtain ⟨-, rfl⟩ := onlyTable_some hf
    rw [slot_of_some hf]
    simp only [RmFile.slotAt, RmFile.createNewPageHandle, RmFile.setPage, byteFile, RmFile.openFile]
    by_cases hp : x.2.pageNo = 1
    · simp [hp, Bitmap.isSet, Bitmap.init]
    · simp [Function.update_of_ne hp, Bitmap.isSet]

/-- A record is committed to the table `t`. -/
theorem run_inserted (sm : SmManager) : ∃ ops s,
    Run (Meeting KeepsLogged Step) ⟨sm, { tabs := onlyTable byteFile }, fun _ => 0⟩ ops s ∧
    s.sm = sm ∧ s.created "t" = 0 ∧ s.server.logs = insertLog ∧ s.server.running = [] ∧
    ∀ tabName, s.server.tabs tabName = none ↔ tabName ≠ "t" := by
  let x : Loc := ("t", ⟨1, 0⟩)
  let tabs := onlyTable byteFile.createNewPageHandle.1
  have hx : tabs.ValidLoc x :=
    ⟨_, rfl, ⟨by decide, by decide, by decide⟩, ⟨by decide, by decide⟩, by decide, by decide⟩
  have hnew : ¬ (onlyTable byteFile).ValidLoc x := by
    rintro ⟨f, hf, -, ⟨-, hlt⟩, -⟩
    obtain ⟨-, rfl⟩ := onlyTable_some hf
    exact absurd hlt (by decide)
  have hfits : SlotOp.Fits tabs x (.insert [1]) := by
    intro f hf
    obtain ⟨-, rfl⟩ := onlyTable_some hf
    rfl
  have hval : (tabs.slot x).val = none := val_of_not_used (grows_byteFile.fresh x hx hnew)
  have hwrite (n : String) : tabs.write x (.insert [1]) n = none ↔ tabs n = none := write_eq_none
  let s₁ : Database := ⟨sm, { tabs := onlyTable byteFile }, fun _ => 0⟩
  let s₂ : Database :=
    { s₁ with server := { s₁.server with logs := insertLog.take 1, running := [0] } }
  let s₃ : Database := { s₂ with server := { s₂.server with tabs := tabs } }
  let s₄ : Database := { s₃ with
    server := { s₃.server with
      logs := insertLog.take 2, tabs := tabs.write x (.insert [1]),
      writes := [⟨1, 0, 0, .insert "t" ⟨1, 0⟩ [1]⟩], touched := insert x s₃.server.touched } }
  let s₅ : Database :=
    { s₄ with server := { s₄.server with logs := insertLog, running := [], writes := [] } }
  let step := Meeting KeepsLogged Step
  have h₁ : step s₁ (.dml (.begin 0)) s₂ :=
    ⟨trivial, .dml rfl trivial (.begin rfl) fun _ => Iff.rfl⟩
  have h₂ : step s₂ (.dml (.newPage tabs)) s₃ :=
    ⟨trivial, .dml rfl trivial (.newPage grows_byteFile) fun _ =>
      onlyTable_eq_none.trans onlyTable_eq_none.symm⟩
  have h₃ : step s₃ (.dml (.write 0 (.insert "t" ⟨1, 0⟩ [1]))) s₄ := by
    refine ⟨trivial, .dml rfl (fun y op hop => ?_)
      (.write List.mem_cons_self rfl rfl hx hfits (fun _ => hval) fun r hr => by cases hr) hwrite⟩
    cases hop
    exact hval.symm
  have h₄ : step s₄ (.dml (.commit 0)) s₅ :=
    ⟨trivial, .dml rfl trivial (.commit List.mem_cons_self rfl) fun _ => Iff.rfl⟩
  refine ⟨_, s₅, .cons h₁ <| .cons h₂ <| .cons h₃ <| .cons h₄ <| .nil _, rfl, rfl, rfl, rfl,
    fun tabName => ?_⟩
  exact (hwrite tabName).trans onlyTable_eq_none

/-- The numbers of files that `open_db` opens. -/
def fileNumber (path : String) : ℤ :=
  if path = DB_META_NAME then 3 else if path = LOG_FILE_NAME then 4 else if path = "t" then 5 else 6

/-- The catalog has these tables, and `open_db` opens it. -/
def opensTables (names : List String) (s : SmManager) : Bool :=
  decide (∀ p ∈ s.disk.files, ∀ q ∈ s.disk.files, fileNumber p = fileNumber q → p = q) &&
    (openDb s.disk.files s.metaText fileNumber).toOption.any fun opened =>
      decide (opened.db.tabs.map TabEntry.name = names)

/-- The table `t (a CHAR(1))` with an index is created, dropped, and created again. -/
theorem exists_recreated : ∃ s₀ ops sm, Initial s₀ ∧
    Run (Meeting KeepsLogged Step) s₀ ops ⟨sm, { tabs := onlyTable byteFile }, fun _ => 0⟩ ∧
    opensTables ["t"] sm ∧ (sm.dropTable "t" (.grant 9 9)).toOption.any (opensTables []) := by
  let colDefs : List ColDef := [⟨"a", .string, 1⟩]
  have hall : ((openDb (createDb "db").1 (createDb "db").2 fileNumber).toOption.any
      fun s => decide (s.disk.fd2path 7 = none) &&
        (s.createTable "t" [⟨"a", .string, 1⟩] (.grant 7 7)).toOption.any fun s =>
          decide (s.disk.fd2path 8 = none) &&
          (s.createIndex "t" ["a"] [] (.grant 8 8)).toOption.any fun s =>
            (s.dropTable "t" (.grant 9 9)).toOption.any fun s => decide (s.disk.fd2path 7 = none) &&
              (s.createTable "t" [⟨"a", .string, 1⟩] (.grant 7 7)).toOption.any fun s =>
                decide (s.disk.fd2path 8 = none) &&
                  (s.createIndex "t" ["a"] [] (.grant 8 8)).toOption.any fun s =>
                    opensTables ["t"] s &&
                    (s.dropTable "t" (.grant 9 9)).toOption.any (opensTables [])) = true := by
                      decide +kernel
  obtain ⟨sm₀, hopen, h⟩ := exists_ok_of_any hall
  rw [Bool.and_eq_true, decide_eq_true_eq] at h
  obtain ⟨hfd₀, h⟩ := h
  obtain ⟨sm₁, hcreate₁, h⟩ := exists_ok_of_any h
  rw [Bool.and_eq_true, decide_eq_true_eq] at h
  obtain ⟨hfd₁, h⟩ := h
  obtain ⟨sm₂, hindex₂, h⟩ := exists_ok_of_any h
  obtain ⟨sm₃, hdrop₃, h⟩ := exists_ok_of_any h
  rw [Bool.and_eq_true, decide_eq_true_eq] at h
  obtain ⟨hfd₃, h⟩ := h
  obtain ⟨sm₄, hcreate₄, h⟩ := exists_ok_of_any h
  rw [Bool.and_eq_true, decide_eq_true_eq] at h
  obtain ⟨hfd₄, h⟩ := h
  obtain ⟨sm, hindex, h⟩ := exists_ok_of_any h
  rw [Bool.and_eq_true] at h
  have hvalid : ValidTable "t" colDefs := ⟨by decide, by decide, by decide⟩
  have hfile : createFile (recordSizeOf colDefs) = .ok ⟨1, 1, 3622, -1, 453⟩ := by decide
  have hgrants (fd : ℤ) := OsAnswer.grants_grant fd fd
  have hrows (tabs : Tables) (htabs : tabs "t" = some byteFile) : ∀ f, tabs "t" = some f →
      ([] : List ScannedRow) = f.scannedRows.map fun r => (r.1, .ok r.2) := by
    rintro f hf
    rw [htabs] at hf
    cases hf
    rfl
  let file : Option RmFile := some byteFile
  let s₀ : Database := { sm := sm₀, server := { tabs := fun _ => none } }
  let s₁ : Database := ⟨sm₁, s₀.server.setTable "t" file, Function.update s₀.created "t" 0⟩
  let s₂ : Database := { s₁ with sm := sm₂ }
  let s₃ : Database := { s₂ with sm := sm₃, server := s₂.server.setTable "t" none }
  let s₄ : Database := ⟨sm₄, s₃.server.setTable "t" file, Function.update s₃.created "t" 0⟩
  let s₅ : Database := { s₄ with sm := sm }
  let step := Meeting KeepsLogged Step
  have h₀ : step s₀ (.ddl (.createTable "t" colDefs (.grant 7 7))) s₁ :=
    ⟨hgrants 7, .createTable ⟨hvalid, hfd₀, hfd₀⟩ hcreate₁ hfile⟩
  have h₁ : step s₁ (.ddl (.createIndex "t" ["a"] [] (.grant 8 8))) s₂ :=
    ⟨hgrants 8, .createIndex ⟨hfd₁, hfd₁⟩ (hrows _ rfl) hindex₂⟩
  have h₂ : step s₂ (.ddl (.dropTable "t" (.grant 9 9))) s₃ :=
    ⟨⟨hgrants 9, by simp [s₂, s₁, s₀, Server.setTable, tablesWithDml]⟩, .dropTable hdrop₃⟩
  have h₃ : step s₃ (.ddl (.createTable "t" colDefs (.grant 7 7))) s₄ :=
    ⟨hgrants 7, .createTable ⟨hvalid, hfd₃, hfd₃⟩ hcreate₄ hfile⟩
  have h₄ : step s₄ (.ddl (.createIndex "t" ["a"] [] (.grant 8 8))) s₅ :=
    ⟨hgrants 8, .createIndex ⟨hfd₄, hfd₄⟩ (hrows _ rfl) hindex⟩
  have hinit : Initial s₀ := by
    refine ⟨⟨rfl, rfl, rfl, rfl, rfl, rfl, rfl, rfl, fun x hx => ?_⟩, fun _ => rfl, fun _ => rfl,
      "db", fileNumber, isWord_of_isIdentifier (by decide), by unfold Apart; decide, hopen⟩
    obtain ⟨f, hf, -⟩ := hx
    cases hf
  have hlast : s₅ = ⟨sm, { tabs := onlyTable byteFile }, fun _ => 0⟩ := by
    simp [s₅, s₄, s₃, s₂, s₁, s₀, file, Server.setTable, onlyTable]
  have hrun : Run step s₀ _ s₅ := .cons h₀ <| .cons h₁ <| .cons h₂ <| .cons h₃ <| .cons h₄ <| .nil _
  exact ⟨s₀, _, sm, hinit, hlast ▸ hrun, h⟩

/-- There is always a file descriptor left. -/
theorem exists_freshFds : ∃ os, FreshFds os ∧ GrantsAll os := by
  have hfresh (s : SmManager) (h : s.disk.Ok) : ∃ fd, s.disk.fd2path fd = none := by
    have hfinite : {fd | s.disk.fd2path fd ≠ none}.Finite := by
      refine (s.disk.files.finite_toSet.image fun path => (s.disk.path2fd path).getD 0).subset
        fun fd hfd => ?_
      obtain ⟨path, hpath⟩ := Option.ne_none_iff_exists'.1 hfd
      have hopen := (h.inverse _ _).2 hpath
      exact ⟨path, h.exist path fd hopen, congrArg (Option.getD · 0) hopen⟩
    obtain ⟨fd, hfd⟩ := hfinite.exists_notMem
    exact ⟨fd, by simpa using hfd⟩
  choose! fresh hfresh using hfresh
  exact ⟨fun s => .grant (fresh s) (fresh s), fun s h => ⟨hfresh s h, hfresh s h⟩, fun _ => rfl,
    fun _ => OsAnswer.grants_grant ..⟩

/-- A restart with the files as they are. -/
theorem exists_image {s : Database} (names : List String) (hsm : SmInv s.sm)
    (hopens : opensTables names s.sm)
    (htabs : ∀ tabName, s.server.tabs tabName = none ↔ tabName ∉ names)
    (huntouched : ∀ x, s.server.tabs.ValidLoc x → x ∉ s.server.touched →
      (s.server.tabs.slot x).used = false)
    (hlogs : s.server.logs = insertLog) :
    ∃ r, s.Image r ∧ s.KeepsLogged (.restart r) ∧ r.order = ["t"] ∧
    r.opened.db.tabs.map TabEntry.name = names := by
  rw [opensTables, Bool.and_eq_true, decide_eq_true_eq] at hopens
  obtain ⟨opened, hopen, hnames⟩ := exists_ok_of_any hopens.2
  rw [decide_eq_true_eq] at hnames
  obtain ⟨os, hfresh, hgrants⟩ := exists_freshFds
  have hopen' := hopen
  rw [hsm.metaText] at hopen'
  obtain ⟨hinv, -⟩ := smInv_of_openDb hsm.catalog hsm.files hopens.1 hopen'
  refine ⟨⟨s.server.tabs, fileNumber, opened, os, os, ["t"], fun _ => 0⟩,
    ⟨hopen, hopens.1, fun tabName => ?_, Frame.refl _, huntouched, List.nodup_singleton "t",
      fun tabName => ?_, hfresh, hfresh⟩,
    ⟨⟨hgrants, hgrants⟩, ?_⟩, rfl, hnames⟩
  · rw [htabs, ← hnames, ← not_iff_not, not_not, List.mem_map, ← Ne,
      ← Option.isSome_iff_ne_none, hinv.fhs]
  · rw [hlogs]
    simp [tablesWithDml, insertLog, LogBody.op?]
  · rw [hlogs]
    exact readsLog_insertLog _

end Database

end Rmdb
