import Mathlib.Algebra.BigOperators.Group.List.Basic
import Mathlib.Data.List.Dedup
import Mathlib.Data.List.Sort
import Rmdb.Lib.FreeList
import Rmdb.Recovery.Committed

/-!
# The bookkeeping of the table files after recovery

`num_records` of a page and the chain of free pages are kept beside the bitmaps.
`insert_record(rid)` and `delete_record` change the counter without looking at the bit, and recovery
calls them for every record that it undoes or redoes, whether the page on disk has the change or
not.  What recovery makes of the counters and of the chain is a run of moves of a `Book`, one for
each log record that it meets.
-/

namespace Rmdb

open Slot Tables

/-! ## Single operations -/

namespace RmFile

variable {f f' : RmFile} {rid : Rid} {p : ℤ}

/-- The counters of a file and its chain of free pages. -/
def book (f : RmFile) : Book ℤ :=
  ⟨fun p => (f.pages p).numRecords, f.nextFree, f.hdr.firstFreePageNo⟩

/-- Each counter is the number of set bits, and the chain has exactly the pages with a clear bit. -/
structure Consistent (f : RmFile) : Prop where
  count : ∀ p, f.DataPage p → (f.pages p).numRecords =
    (Bitmap.setBits (f.pages p).body f.hdr.numRecordsPerPage).card
  chain : ∃ l : List ℤ, l.Nodup ∧ FreeChain f.nextFree f.hdr.firstFreePageNo l ∧
    ∀ p, p ∈ l ↔ f.HasRoom p

theorem book_relinked (body : ℕ → UInt8) (numRecords next first : ℤ) :
    (relinked f p body numRecords next first).book =
      ⟨Function.update f.book.count p numRecords, Function.update f.book.next p next, first⟩ := by
  have hcount : (fun q => ((relinked f p body numRecords next first).pages q).numRecords) =
      Function.update f.book.count p numRecords := by
    funext q
    by_cases hq : q = p
    · subst hq
      rw [relinked_pages_self, Function.update_self]
    · rw [Function.update_of_ne hq]
      exact congrArg RmPage.numRecords (Function.update_of_ne hq _ _)
  have hnext : (relinked f p body numRecords next first).nextFree =
      Function.update f.book.next p next := by
    funext q
    by_cases hq : q = p
    · subst hq
      rw [nextFree_relinked_self, Function.update_self]
    · rw [Function.update_of_ne hq]
      exact congrArg RmPage.nextFreePageNo (Function.update_of_ne hq _ _)
  rw [book, hcount, hnext]
  rfl

theorem deleteRecord_book (hp : f.DataPage rid.pageNo) : ∃ f', f.deleteRecord rid = .ok f' ∧
    SameShape f f' ∧ f'.book = f.book.move f.hdr.numRecordsPerPage (.free rid.pageNo) := by
  refine ⟨_, deleteRecord_eq hp, ?_, ?_⟩
  · split <;> rfl
  · have hfull : (f.pages rid.pageNo).numRecords - 1 = (f.hdr.numRecordsPerPage : ℤ) - 1 ↔
        f.book.count rid.pageNo = f.hdr.numRecordsPerPage := by
      change _ ↔ (f.pages rid.pageNo).numRecords = _
      omega
    by_cases hcap : f.book.count rid.pageNo = f.hdr.numRecordsPerPage
    · rw [if_pos (hfull.2 hcap), cleared, book_relinked]
      simp only [Book.move, if_pos hcap]
      rfl
    · rw [if_neg (mt hfull.1 hcap), cleared, book_relinked]
      simp only [Book.move, if_neg hcap]
      rw [show f.nextFree rid.pageNo = f.book.next rid.pageNo from rfl, Function.update_eq_self]
      rfl

theorem insertRecordAt_book (buf : Bytes) (hp : f.DataPage rid.pageNo) :
    ∃ f', f.insertRecordAt rid buf = .ok f' ∧
    SameShape f f' ∧ f'.book = f.book.move f.hdr.numRecordsPerPage (.fill rid.pageNo) := by
  refine ⟨_, insertRecordAt_eq hp, rfl, ?_⟩
  rw [filled, book_relinked, show f.nextFree rid.pageNo = f.book.next rid.pageNo from rfl,
    Function.update_eq_self]
  rfl

theorem updateRecord_book (buf : Bytes) (hp : f.DataPage rid.pageNo) :
    ∃ f', f.updateRecord rid buf = .ok f' ∧ SameShape f f' ∧ f'.book = f.book := by
  refine ⟨_, updateRecord_eq hp, rfl, ?_⟩
  rw [overwritten, book_relinked, show f.nextFree rid.pageNo = f.book.next rid.pageNo from rfl,
    Function.update_eq_self, show (f.pages rid.pageNo).numRecords =
      f.book.count rid.pageNo from rfl,
    Function.update_eq_self]
  rfl

end RmFile

/-! ## Log records -/

/-- What undoing an operation does to the book of its table. -/
def SlotOp.undoMoves (p : ℤ) : SlotOp Bytes → List (Move ℤ)
  | .insert _ => [.free p]
  | .delete _ => [.fill p]
  | .update _ _ => []

/-- What redoing an operation does to the book of its table. -/
def SlotOp.redoMoves (p : ℤ) : SlotOp Bytes → List (Move ℤ)
  | .insert _ => [.fill p]
  | .delete _ => [.free p]
  | .update _ _ => []

/-- The moves that a record stands for in the table `tabName`. -/
def LogRecord.movesIn (moves : ℤ → SlotOp Bytes → List (Move ℤ)) (tabName : String)
    (log : LogRecord) : List (Move ℤ) :=
  match log.body.op? with
  | none => []
  | some (x, op) => if x.1 = tabName then moves x.2.pageNo op else []

/-- `tabs'` has the table `tabName` of `tabs` after some moves. -/
structure Tables.Moves (tabs : Tables) (tabName : String) (ms : List (Move ℤ)) (tabs' : Tables) :
    Prop where
  none : tabs tabName = none → tabs' tabName = none
  some : ∀ f, tabs tabName = some f → ∃ f', tabs' tabName = some f' ∧ RmFile.SameShape f f' ∧
    f'.book = ms.foldl (Book.move f.hdr.numRecordsPerPage) f.book

section Records

variable {tabs tabs' tabs'' : Tables} {tabName : String} {ms ms' : List (Move ℤ)}
  {f f' : RmFile} {x : Loc}
  {log : LogRecord} {logs : List LogRecord}

theorem Tables.Moves.refl (tabs : Tables) (tabName : String) : tabs.Moves tabName [] tabs :=
  ⟨id, fun f hf => ⟨f, hf, rfl, rfl⟩⟩

theorem Tables.Moves.trans (h : tabs.Moves tabName ms tabs') (h' : tabs'.Moves tabName ms' tabs'') :
    tabs.Moves tabName (ms ++ ms') tabs'' := by
  refine ⟨fun hnone => h'.none (h.none hnone), fun f hf => ?_⟩
  obtain ⟨f₁, hf₁, hshape₁, hbook₁⟩ := h.some f hf
  obtain ⟨f₂, hf₂, hshape₂, hbook₂⟩ := h'.some f₁ hf₁
  have hcap : f₁.hdr.numRecordsPerPage = f.hdr.numRecordsPerPage := by rw [hshape₁]
  refine ⟨f₂, hf₂, ?_, ?_⟩
  · rw [RmFile.SameShape, hshape₂, hshape₁]
  · rw [List.foldl_append, ← hbook₁, hbook₂, hcap]

/-- An operation on one file. -/
theorem moves_update (hf : tabs x.1 = some f) (hshape : RmFile.SameShape f f')
    (hbook : f'.book = ms.foldl (Book.move f.hdr.numRecordsPerPage) f.book) :
    tabs.Moves tabName (if x.1 = tabName then ms else []) (Function.update tabs x.1 (some f')) := by
  by_cases hx : x.1 = tabName
  · subst hx
    refine ⟨fun hnone => ?_, fun g hg => ?_⟩
    · rw [hf] at hnone
      cases hnone
    · rw [hf] at hg
      cases hg
      rw [if_pos rfl]
      exact ⟨f', Function.update_self _ _ _, hshape, hbook⟩
  · have hsame : Function.update tabs x.1 (some f') tabName = tabs tabName :=
      Function.update_of_ne (Ne.symm hx) _ _
    rw [if_neg hx]
    exact ⟨fun hnone => hsame.trans hnone, fun g hg => ⟨g, hsame.trans hg, rfl, rfl⟩⟩

theorem undoLog_moves (h : log.Fits tabs) (tabName : String) :
    tabs.Moves tabName (log.movesIn SlotOp.undoMoves tabName) (undoLog tabs log) := by
  unfold LogRecord.movesIn
  cases hop : log.body.op? with
  | none =>
    rw [undoLog_of_none hop]
    exact Moves.refl tabs tabName
  | some e =>
    obtain ⟨x, op⟩ := e
    obtain ⟨⟨f, hf, -, hpage, -⟩, -⟩ := h x op hop
    unfold undoLog
    cases hb : log.body with
    | insert n rid v =>
      rw [hb] at hop
      cases hop
      obtain ⟨f', hf', hshape, hbook⟩ := RmFile.deleteRecord_book hpage
      have hmodify : tabs.modify n (·.deleteRecord rid) = _ := modify_of_ok hf hf'
      simp only [hmodify]
      exact moves_update hf hshape hbook
    | update n rid old new =>
      rw [hb] at hop
      cases hop
      obtain ⟨f', hf', hshape, hbook⟩ := RmFile.updateRecord_book old hpage
      have hmodify : tabs.modify n (·.updateRecord rid old) = _ := modify_of_ok hf hf'
      simp only [hmodify]
      exact moves_update hf hshape hbook
    | delete n rid old =>
      rw [hb] at hop
      cases hop
      obtain ⟨f', hf', hshape, hbook⟩ := RmFile.insertRecordAt_book old hpage
      have hmodify : tabs.modify n (·.insertRecordAt rid old) = _ := modify_of_ok hf hf'
      simp only [hmodify]
      exact moves_update hf hshape hbook
    | _ =>
      rw [hb] at hop
      cases hop

theorem redoLog_moves {a : Analysis} (h : log.Fits tabs) (hredo : redoLog a tabs log = .ok tabs')
    (tabName : String) :
    tabs.Moves tabName (if log.logTid ∈ a.abortedTxns ∨ log.logTid ∉ a.committedTxns then []
      else log.movesIn SlotOp.redoMoves tabName) tabs' := by
  unfold redoLog at hredo
  split at hredo
  · cases hredo
    rename_i hskip
    rw [if_pos hskip]
    exact Moves.refl tabs tabName
  · rename_i hskip
    rw [if_neg hskip]
    unfold LogRecord.movesIn
    cases hb : log.body with
    | insert n rid v =>
      obtain ⟨⟨f, hf, -, hpage, -⟩, -⟩ := h (n, rid) (.insert v) (by rw [hb]; rfl)
      obtain ⟨f', hf', hshape, hbook⟩ := RmFile.insertRecordAt_book v hpage
      simp only at hf hf'
      simp only [hb, hf, hf'] at hredo
      cases hredo
      exact moves_update (x := (n, rid)) hf hshape hbook
    | update n rid old new =>
      obtain ⟨⟨f, hf, -, hpage, -⟩, -⟩ := h (n, rid) (.update old new) (by rw [hb]; rfl)
      obtain ⟨f', hf', hshape, hbook⟩ := RmFile.updateRecord_book new hpage
      have hok : redoModify tabs n (·.updateRecord rid new) = _ :=
        redoModify_of_ok (x := (n, rid)) hf hf'
      simp only [hb] at hredo
      cases hok.symm.trans hredo
      exact moves_update (x := (n, rid)) hf hshape hbook
    | delete n rid old =>
      obtain ⟨⟨f, hf, -, hpage, -⟩, -⟩ := h (n, rid) (.delete old) (by rw [hb]; rfl)
      obtain ⟨f', hf', hshape, hbook⟩ := RmFile.deleteRecord_book hpage
      have hok : redoModify tabs n (·.deleteRecord rid) = _ :=
        redoModify_of_ok (x := (n, rid)) hf hf'
      simp only [hb] at hredo
      cases hok.symm.trans hredo
      exact moves_update (x := (n, rid)) hf hshape hbook
    | _ =>
      simp only [hb] at hredo
      cases hredo
      exact Moves.refl tabs tabName

theorem undoLogs_moves (h : ∀ log ∈ logs, log.Fits tabs) (tabName : String) :
    tabs.Moves tabName (logs.reverse.flatMap (·.movesIn SlotOp.undoMoves tabName))
      (undoLogs logs tabs) := by
  induction logs with
  | nil => exact Moves.refl tabs tabName
  | cons log logs ih =>
    have hlogs : ∀ log' ∈ logs, log'.Fits tabs :=
      fun log' hlog' => h log' (List.mem_cons_of_mem _ hlog')
    have hlog := (h log List.mem_cons_self).frame (undoLogs_spec hlogs).1
    have hmoves := (ih hlogs).trans (undoLog_moves hlog tabName)
    rw [List.reverse_cons, List.flatMap_append, List.flatMap_singleton]
    exact hmoves

end Records

/-! ## The three passes -/

/-- The moves that undoing a transaction makes. -/
def undoTxnMoves (logs : List LogRecord) (tabName : String) (t : TxnId) : List (Move ℤ) :=
  (recordsOf t logs).reverse.flatMap (·.movesIn SlotOp.undoMoves tabName)

/-- The transactions of a log from the largest id down, in the order of `rollback`. -/
def txnsDown (logs : List LogRecord) : List TxnId :=
  (logs.map LogRecord.logTid).dedup.insertionSort (· ≥ ·)

/-- The moves of recovery in the table `tabName`: every transaction is undone, the records of the
committed ones are redone, and those without an end are undone again. -/
def recoveryMoves (logs : List LogRecord) (tabName : String) : List (Move ℤ) :=
  (txnsDown logs).flatMap (undoTxnMoves logs tabName) ++
    ((logs.filter fun r => committedIn logs r.logTid).flatMap
      (·.movesIn SlotOp.redoMoves tabName) ++
      ((txnsDown logs).filter fun t => ¬ endedIn logs t).flatMap (undoTxnMoves logs tabName))

section Passes

variable {tabs tabs' : Tables} {tabName : String} {logs : List LogRecord} {t : TxnId}

theorem mem_txnsDown : t ∈ txnsDown logs ↔ recordsOf t logs ≠ [] := by
  rw [txnsDown, List.mem_insertionSort, List.mem_dedup, List.mem_map]
  constructor
  · rintro ⟨r, hr, rfl⟩
    exact List.ne_nil_of_mem (List.mem_filter.2 ⟨hr, by simp⟩)
  · intro hne
    obtain ⟨r, hr⟩ := List.exists_mem_of_ne_nil _ hne
    exact ⟨r, List.mem_of_mem_filter hr, by simpa using (List.mem_filter.1 hr).2⟩

theorem nodup_txnsDown : (txnsDown logs).Nodup :=
  (List.perm_insertionSort _ _).nodup_iff.2 (List.nodup_dedup _)

/-- A list in descending order is determined by its members. -/
theorem eq_txnsDown {ts : List TxnId} (hsorted : ts.Pairwise (· > ·))
    (hmem : ∀ t, t ∈ ts ↔ recordsOf t logs ≠ []) : ts = txnsDown logs := by
  have hnodup : ts.Nodup := hsorted.imp fun hlt => ne_of_gt hlt
  have hperm : ts.Perm (txnsDown logs) :=
    (List.perm_ext_iff_of_nodup hnodup nodup_txnsDown).2 fun t => by rw [hmem, mem_txnsDown]
  exact hperm.eq_of_pairwise' (hsorted.imp fun hlt => le_of_lt hlt)
    (List.pairwise_insertionSort _ _)

theorem rollback_moves (h : Linked logs) (redoPhase : Bool) (hfits : ∀ r ∈ logs, r.Fits tabs)
    {att : List (TxnId × ℤ)} (hatt : ∀ e ∈ att, e.2 = lastLsn logs e.1) (tabName : String) :
    tabs.Moves tabName
      (((att.map Prod.fst).filter fun t => ¬ (redoPhase = false ∧ endedIn logs t)).flatMap
        (undoTxnMoves logs tabName))
      (att.foldl (fun tabs e => rollbackFrom logs redoPhase (logs.length + 1) e.2 tabs) tabs) := by
  induction att generalizing tabs with
  | nil => exact Moves.refl tabs tabName
  | cons e att ih =>
    have hlen : (recordsOf e.1 logs).length < logs.length + 1 :=
      Nat.lt_succ_of_le (List.length_filter_le _ _)
    have hfrom := h.rollbackFrom_eq redoPhase e.1 hlen tabs
    rw [← hatt e List.mem_cons_self] at hfrom
    have hatt' : ∀ e' ∈ att, e'.2 = lastLsn logs e'.1 := fun e' he' =>
      hatt e' (List.mem_cons_of_mem _ he')
    rw [List.foldl_cons, hfrom, List.map_cons]
    split
    · rename_i hskip
      rw [List.filter_cons, if_neg (by simpa using hskip)]
      exact ih hfits hatt'
    · rename_i hskip
      have hrec : ∀ r ∈ recordsOf e.1 logs, r.Fits tabs :=
        fun r hr => hfits r (List.mem_of_mem_filter hr)
      have hframe := (undoLogs_spec hrec).1
      rw [List.filter_cons, if_pos (decide_eq_true hskip), List.flatMap_cons]
      exact (undoLogs_moves hrec tabName).trans (ih (fun r hr => (hfits r hr).frame hframe) hatt')

theorem redoLogs_moves {a : Analysis} {committed : TxnId → Bool}
    (hcommitted : ∀ t, committed t ↔ t ∉ a.abortedTxns ∧ t ∈ a.committedTxns)
    (hfits : ∀ r ∈ logs, r.Fits tabs) (hredo : logs.foldlM (redoLog a) tabs = .ok tabs')
    (tabName : String) :
    tabs.Moves tabName ((logs.filter fun r => committed r.logTid).flatMap
      (·.movesIn SlotOp.redoMoves tabName)) tabs' := by
  induction logs generalizing tabs with
  | nil =>
    cases hredo
    exact Moves.refl _ tabName
  | cons r logs ih =>
    obtain ⟨tabs₁, hredo₁, hframe, -⟩ := redoLog_spec (a := a) (hfits r List.mem_cons_self)
    rw [List.foldlM_cons, hredo₁] at hredo
    have hmoves := (redoLog_moves (hfits r List.mem_cons_self) hredo₁ tabName).trans
      (ih (fun r' hr' => (hfits r' (List.mem_cons_of_mem _ hr')).frame hframe) hredo)
    -- a record is redone exactly when its transaction is committed and not aborted
    by_cases hc : committed r.logTid
    · have hnot : ¬ (r.logTid ∈ a.abortedTxns ∨ r.logTid ∉ a.committedTxns) := by
        obtain ⟨ha, hc⟩ := (hcommitted _).1 hc
        simp [ha, hc]
      rw [if_neg hnot] at hmoves
      rw [List.filter_cons, if_pos hc, List.flatMap_cons]
      exact hmoves
    · have hskip : r.logTid ∈ a.abortedTxns ∨ r.logTid ∉ a.committedTxns := by
        by_contra hn
        push Not at hn
        exact hc ((hcommitted _).2 hn)
      rw [if_pos hskip] at hmoves
      rw [List.filter_cons, if_neg hc]
      exact hmoves

/-- What recovery does to the books of the tables. -/
theorem recover_moves (h : Linked logs) (hfits : ∀ r ∈ logs, r.Fits tabs)
    (hrec : recover logs tabs = some tabs') (tabName : String) :
    tabs.Moves tabName (recoveryMoves logs tabName) tabs' := by
  obtain ⟨a, ha, rfl, hatt, hcommitted, haborted, hsorted⟩ := h.analyze
  have hlast : ∀ e ∈ a.att.reverse, e.2 = lastLsn a.logs e.1 := fun e he =>
    ((hatt e).1 (List.mem_reverse.1 he)).2
  have hts : a.att.reverse.map Prod.fst = txnsDown a.logs := by
    refine eq_txnsDown ?_ fun t => ?_
    · rw [List.map_reverse, List.pairwise_reverse, List.pairwise_map]
      exact hsorted
    · rw [List.map_reverse, List.mem_reverse, List.mem_map]
      constructor
      · rintro ⟨e, he, rfl⟩
        exact ((hatt e).1 he).1
      · exact fun ht => ⟨(t, lastLsn a.logs t), (hatt _).2 ⟨ht, rfl⟩, rfl⟩
  have hredone (t : TxnId) : committedIn a.logs t ↔ t ∉ a.abortedTxns ∧ t ∈ a.committedTxns := by
    rw [hcommitted, haborted]
    refine ⟨fun ht => ⟨?_, ht⟩, fun ht => ht.2⟩
    rw [h.not_aborted ht]
    exact Bool.false_ne_true
  obtain ⟨hframe₁, -⟩ := rollback_spec h true hfits hlast
  have hfits₁ : ∀ r ∈ a.logs, r.Fits (rollback a true tabs) :=
    fun r hr => (hfits r hr).frame hframe₁
  obtain ⟨tabs₂, hredo, hframe₂, -⟩ := redoLogs_spec hredone hfits₁
  have hredo' : redo a tabs = .ok tabs₂ := hredo
  simp only [recover, ha, Option.bind_eq_bind, Option.bind_some, hredo'] at hrec
  cases hrec
  have hall : (txnsDown a.logs).filter (fun t => ¬ (true = false ∧ endedIn a.logs t)) =
    txnsDown a.logs :=
    List.filter_eq_self.2 fun t _ => by simp
  have hlosers : (txnsDown a.logs).filter (fun t => ¬ (false = false ∧ endedIn a.logs t)) =
      (txnsDown a.logs).filter fun t => ¬ endedIn a.logs t := by simp
  have hpass₁ := rollback_moves h true hfits hlast tabName
  have hpass₂ := redoLogs_moves hredone hfits₁ hredo tabName
  have hpass₃ := rollback_moves h false
    (fun r hr => (hfits r hr).frame (hframe₁.trans hframe₂)) hlast tabName
  rw [hts, hall] at hpass₁
  rw [hts, hlosers] at hpass₃
  exact hpass₁.trans (hpass₂.trans hpass₃)

end Passes

/-! ## Counting -/

/-- What a record adds to the number of records on a page. -/
def LogRecord.net (tabName : String) (p : ℤ) (log : LogRecord) : ℤ :=
  match log.body with
  | .insert tab rid _ => if tab = tabName ∧ rid.pageNo = p then 1 else 0
  | .delete tab rid _ => if tab = tabName ∧ rid.pageNo = p then -1 else 0
  | _ => 0

/-- Insertions less deletions on a page by some of the transactions. -/
def netOn (logs : List LogRecord) (tabName : String) (p : ℤ) (txns : TxnId → Bool) : ℤ :=
  ((logs.filter fun r => txns r.logTid).map fun r => r.net tabName p).sum

section Counting

variable {logs : List LogRecord} {tabName : String} {p : ℤ} {txns txns' : TxnId → Bool}

theorem sum_undoMoves (tabName : String) (p : ℤ) (log : LogRecord) :
    (Book.signsAt p (log.movesIn SlotOp.undoMoves tabName)).sum = -log.net tabName p := by
  unfold LogRecord.movesIn LogRecord.net
  cases log.body with
  | insert tab rid v =>
    by_cases ht : tab = tabName <;> by_cases hp : rid.pageNo = p <;>
      simp [LogBody.op?, SlotOp.undoMoves, Book.signsAt, Move.bin, Move.sign, ht, hp]
  | delete tab rid v =>
    by_cases ht : tab = tabName <;> by_cases hp : rid.pageNo = p <;>
      simp [LogBody.op?, SlotOp.undoMoves, Book.signsAt, Move.bin, Move.sign, ht, hp]
  | _ => simp [LogBody.op?, SlotOp.undoMoves, Book.signsAt]

theorem sum_redoMoves (tabName : String) (p : ℤ) (log : LogRecord) :
    (Book.signsAt p (log.movesIn SlotOp.redoMoves tabName)).sum = log.net tabName p := by
  unfold LogRecord.movesIn LogRecord.net
  cases log.body with
  | insert tab rid v =>
    by_cases ht : tab = tabName <;> by_cases hp : rid.pageNo = p <;>
      simp [LogBody.op?, SlotOp.redoMoves, Book.signsAt, Move.bin, Move.sign, ht, hp]
  | delete tab rid v =>
    by_cases ht : tab = tabName <;> by_cases hp : rid.pageNo = p <;>
      simp [LogBody.op?, SlotOp.redoMoves, Book.signsAt, Move.bin, Move.sign, ht, hp]
  | _ => simp [LogBody.op?, SlotOp.redoMoves, Book.signsAt]

theorem netOn_congr (h : ∀ r ∈ logs, txns r.logTid = txns' r.logTid) :
    netOn logs tabName p txns = netOn logs tabName p txns' := by
  rw [netOn, netOn, List.filter_congr h]

/-- Disjoint sets of transactions. -/
theorem netOn_add (h : ∀ r ∈ logs, ¬ (txns r.logTid ∧ txns' r.logTid)) :
    netOn logs tabName p txns + netOn logs tabName p txns' =
      netOn logs tabName p fun t => txns t || txns' t := by
  unfold netOn
  induction logs with
  | nil => rfl
  | cons r logs ih =>
    have ih := ih fun r' hr' => h r' (List.mem_cons_of_mem _ hr')
    have hr := h r List.mem_cons_self
    cases ht : txns r.logTid <;> cases ht' : txns' r.logTid
    · simpa [List.filter_cons, ht, ht'] using ih
    · simp only [List.filter_cons, ht, ht', Bool.or_true, if_true, List.map_cons, List.sum_cons,
        Bool.false_eq_true, if_false, ← ih]
      ring
    · simp only [List.filter_cons, ht, ht', Bool.or_false, if_true, List.map_cons, List.sum_cons,
        Bool.false_eq_true, if_false, ← ih]
      ring
    · exact absurd ⟨ht, ht'⟩ hr

/-- Transactions one by one. -/
theorem sum_netOn {ts : List TxnId} (h : ts.Nodup) :
    (ts.map fun t => netOn logs tabName p fun s => decide (s = t)).sum =
      netOn logs tabName p fun s => decide (s ∈ ts) := by
  induction ts with
  | nil => simp [netOn]
  | cons t ts ih =>
    obtain ⟨hout, hnodup⟩ := List.nodup_cons.1 h
    rw [List.map_cons, List.sum_cons, ih hnodup, netOn_add]
    · refine netOn_congr fun r _ => ?_
      simp
    · rintro r - ⟨heq, hmem⟩
      exact hout (of_decide_eq_true heq ▸ of_decide_eq_true hmem)

theorem sum_undoTxnMoves {ts : List TxnId} (h : ts.Nodup) :
    (Book.signsAt p (ts.flatMap (undoTxnMoves logs tabName))).sum =
      -netOn logs tabName p fun s => decide (s ∈ ts) := by
  have htxn (t : TxnId) : (Book.signsAt p (undoTxnMoves logs tabName t)).sum =
      -netOn logs tabName p fun s => decide (s = t) := by
    rw [undoTxnMoves, Book.sum_signsAt_flatMap]
    simp only [sum_undoMoves, List.map_reverse, List.sum_reverse]
    rw [netOn, List.sum_neg, List.map_map]
    rfl
  rw [Book.sum_signsAt_flatMap, ← sum_netOn h, List.sum_neg, List.map_map]
  simp only [htxn]
  rfl

/-- What recovery adds to the counter of a page in all. -/
theorem sum_recoveryMoves (h : Linked logs) (tabName : String) (p : ℤ) :
    (Book.signsAt p (recoveryMoves logs tabName)).sum =
      -netOn logs tabName p (abortedIn logs) - 2 * netOn logs tabName p fun t =>
      !endedIn logs t := by
  have hmem (r : LogRecord) (hr : r ∈ logs) : r.logTid ∈ txnsDown logs :=
    mem_txnsDown.2 (List.ne_nil_of_mem (List.mem_filter.2 ⟨hr, by simp⟩))
  have hall : (netOn logs tabName p fun s => decide (s ∈ txnsDown logs)) =
      netOn logs tabName p (committedIn logs) + netOn logs tabName p (abortedIn logs) +
        netOn logs tabName p fun t => !endedIn logs t := by
    rw [netOn_add, netOn_add]
    · refine netOn_congr fun r hr => ?_
      cases hc : committedIn logs r.logTid <;> simp [hmem r hr, endedIn, hc]
    · rintro r - ⟨hended, hnot⟩
      simp [endedIn, hended] at hnot
    · rintro r - ⟨hc, ha⟩
      rw [h.not_aborted hc] at ha
      cases ha
  have hlosers : (netOn logs tabName p fun s =>
      decide (s ∈ (txnsDown logs).filter fun t => ¬ endedIn logs t)) =
      netOn logs tabName p fun t => !endedIn logs t := by
    refine netOn_congr fun r hr => ?_
    simp [List.mem_filter, hmem r hr]
  have hredo : (Book.signsAt p ((logs.filter fun r => committedIn logs r.logTid).flatMap
      (·.movesIn SlotOp.redoMoves tabName))).sum = netOn logs tabName p (committedIn logs) := by
    rw [Book.sum_signsAt_flatMap]
    simp only [sum_redoMoves]
    rfl
  rw [recoveryMoves, Book.signsAt_append, Book.signsAt_append, List.sum_append,
    List.sum_append, hredo,
    sum_undoTxnMoves nodup_txnsDown, sum_undoTxnMoves (nodup_txnsDown.filter _), hall, hlosers]
  ring

end Counting

/-! ## The files after recovery -/

/-- The number of records that the committed transactions left on a page of `n` slots. -/
def committedCount (logs : List LogRecord) (tabName : String) (p : ℤ) (n : ℕ) : ℕ :=
  ((Finset.range n).filter fun i : ℕ => (committedValue logs (tabName, ⟨p, i⟩)).isSome).card

/-- The bookkeeping of the page `p` comes out right.  The bits that are set on disk are the
committed records of the page, and what its aborted transactions and, twice, its unfinished ones put
there; and a counter that starts there leaves the capacity downwards once if the page was full and
is not any more, and never otherwise. -/
structure PageRestored (logs : List LogRecord) (tabName : String) (f : RmFile) (p : ℤ) : Prop where
  count : ((Bitmap.setBits (f.pages p).body f.hdr.numRecordsPerPage).card : ℤ) =
    committedCount logs tabName p f.hdr.numRecordsPerPage + netOn logs tabName p (abortedIn logs) +
      2 * netOn logs tabName p fun t => !endedIn logs t
  links : Book.refills f.hdr.numRecordsPerPage
        (Bitmap.setBits (f.pages p).body f.hdr.numRecordsPerPage).card
        (Book.signsAt p (recoveryMoves logs tabName)) +
      (if (Bitmap.setBits (f.pages p).body f.hdr.numRecordsPerPage).card < f.hdr.numRecordsPerPage
        then 1 else 0) =
    if committedCount logs tabName p f.hdr.numRecordsPerPage < f.hdr.numRecordsPerPage then 1 else 0

section Files

open RmFile

variable {logs : List LogRecord} {tabName : String} {f f' : RmFile} {p : ℤ}

theorem freeChain_iff_leads {next : ℤ → ℤ} {start : ℤ} {l : List ℤ} :
    FreeChain next start l ↔ Leads RM_NO_PAGE next start l := by
  induction l generalizing start with
  | nil => exact Iff.rfl
  | cons q l ih => exact and_congr_right fun _ => ih

theorem hasRoom_iff : f.HasRoom p ↔ f.DataPage p ∧
    (Bitmap.setBits (f.pages p).body f.hdr.numRecordsPerPage).card < f.hdr.numRecordsPerPage := by
  refine and_congr_right fun _ => ?_
  have hle : (Bitmap.setBits (f.pages p).body f.hdr.numRecordsPerPage).card ≤
      f.hdr.numRecordsPerPage := by
    refine (Finset.card_filter_le _ _).trans ?_
    rw [Finset.card_range]
  rw [lt_iff_le_and_ne, and_iff_right hle, Ne, Bitmap.card_setBits_eq_iff]
  simp

/-- The chain of a file, as a list of its book. -/
theorem chain_iff : (∃ l : List ℤ, l.Nodup ∧ FreeChain f.nextFree f.hdr.firstFreePageNo l ∧
      ∀ p, p ∈ l ↔ f.HasRoom p) ↔
    ∃ l, Book.Exact RM_NO_PAGE f.book l ∧ ∀ p, p ∈ l ↔ f.HasRoom p := by
  refine exists_congr fun l => ?_
  constructor
  · rintro ⟨hnodup, hchain, hmem⟩
    refine ⟨⟨hnodup, fun hnil => ?_, freeChain_iff_leads.1 hchain⟩, hmem⟩
    have hpage := ((hmem _).1 hnil).1.1
    rw [RM_NO_PAGE] at hpage
    omega
  · rintro ⟨⟨hnodup, -, hleads⟩, hmem⟩
    exact ⟨hnodup, freeChain_iff_leads.2 hleads, hmem⟩

/-- One file after recovery. -/
theorem consistent_iff (hlinked : Linked logs) (hcons : f.Consistent) (hshape : SameShape f f')
    (hbook : f'.book = (recoveryMoves logs tabName).foldl
      (Book.move f.hdr.numRecordsPerPage) f.book)
    (hpages : ∀ m ∈ recoveryMoves logs tabName, f.DataPage m.bin)
    (hslot : ∀ rid, f.ValidRid rid →
      (f'.slotAt rid).used = (committedValue logs (tabName, rid)).isSome) :
    f'.Consistent ↔ ∀ p, f.DataPage p → PageRestored logs tabName f p := by
  have hcap : f'.hdr.numRecordsPerPage = f.hdr.numRecordsPerPage := by rw [hshape]
  have hdata (p : ℤ) : f'.DataPage p ↔ f.DataPage p := by rw [DataPage, DataPage, hshape]
  have hcard (p : ℤ) (hp : f.DataPage p) :
      (Bitmap.setBits (f'.pages p).body f'.hdr.numRecordsPerPage).card =
        committedCount logs tabName p f.hdr.numRecordsPerPage := by
    rw [hcap]
    refine congrArg Finset.card (Finset.filter_congr fun i hi => ?_)
    have hrid : f.ValidRid ⟨p, i⟩ := ⟨hp, Int.natCast_nonneg i, by simpa using hi⟩
    rw [← hslot _ hrid]
    rfl
  have hcount (p : ℤ) (hp : f.DataPage p) : (f'.pages p).numRecords =
      (Bitmap.setBits (f.pages p).body f.hdr.numRecordsPerPage).card +
        (Book.signsAt p (recoveryMoves logs tabName)).sum := by
    have hfold := congrFun (congrArg Book.count hbook) p
    rw [Book.count_foldl] at hfold
    rw [← hcons.count p hp]
    exact hfold
  have hbin (m : Move ℤ) (hm : m ∈ recoveryMoves logs tabName) : m.bin ≠ RM_NO_PAGE := by
    have hpage := (hpages m hm).1
    rw [RM_NO_PAGE]
    omega
  obtain ⟨l, hexact, hmem⟩ := chain_iff.1 hcons.chain
  classical
  have hchain := (Book.exact_iff (R := f'.HasRoom) hexact hbin :
    (∃ l', Book.Exact RM_NO_PAGE ((recoveryMoves logs tabName).foldl
      (Book.move f.hdr.numRecordsPerPage) f.book) l' ∧ _) ↔ _)
  rw [← hbook, ← chain_iff] at hchain
  have hlinks (p : ℤ) (hp : f.DataPage p) :
      (Book.refills f.hdr.numRecordsPerPage (f.book.count p)
          (Book.signsAt p (recoveryMoves logs tabName)) + (if p ∈ l then 1 else 0) =
        if f'.HasRoom p then 1 else 0) ↔
      Book.refills f.hdr.numRecordsPerPage
            (Bitmap.setBits (f.pages p).body f.hdr.numRecordsPerPage).card
            (Book.signsAt p (recoveryMoves logs tabName)) +
          (if (Bitmap.setBits (f.pages p).body f.hdr.numRecordsPerPage).card <
              f.hdr.numRecordsPerPage then 1 else 0) =
        if committedCount logs tabName p f.hdr.numRecordsPerPage < f.hdr.numRecordsPerPage
          then 1 else 0 := by
    have hroom : f'.HasRoom p ↔
        committedCount logs tabName p f.hdr.numRecordsPerPage < f.hdr.numRecordsPerPage := by
      rw [hasRoom_iff, hdata, hcard p hp, hcap, and_iff_right hp]
    have hin : p ∈ l ↔
        (Bitmap.setBits (f.pages p).body f.hdr.numRecordsPerPage).card <
          f.hdr.numRecordsPerPage := by
      rw [hmem, hasRoom_iff, and_iff_right hp]
    have hnum : f.book.count p = (Bitmap.setBits (f.pages p).body f.hdr.numRecordsPerPage).card :=
      hcons.count p hp
    rw [hnum]
    simp only [hroom, hin]
  have hsum (p : ℤ) := sum_recoveryMoves hlinked tabName p
  constructor
  · rintro ⟨hcount', hchain'⟩ p hp
    refine ⟨?_, (hlinks p hp).1 (hchain.1 hchain' p)⟩
    have hnum := hcount' p ((hdata p).2 hp)
    rw [hcount p hp, hcard p hp, hsum p] at hnum
    omega
  · intro h
    refine ⟨fun p hp => ?_, hchain.2 fun p => ?_⟩
    · have hp' := (hdata p).1 hp
      have hnum := (h p hp').count
      rw [hcount p hp', hcard p hp', hsum p]
      omega
    · by_cases hp : f.DataPage p
      · exact (hlinks p hp).2 (h p hp).links
      · -- no move and no link is about a page that is none
        have hnil : Book.signsAt p (recoveryMoves logs tabName) = [] := by
          rw [Book.signsAt, List.map_eq_nil_iff, List.filter_eq_nil_iff]
          intro m hm heq
          exact hp (of_decide_eq_true heq ▸ hpages m hm)
        have hout : p ∉ l := fun hin => hp ((hmem p).1 hin).1
        have hroom : ¬ f'.HasRoom p := fun hroom => hp ((hdata p).1 hroom.1)
        rw [hnil, if_neg hout, if_neg hroom]
        rfl

/-- Recovery only touches the pages that the log is about. -/
theorem dataPage_of_mem_movesIn {tabs : Tables} {moves : ℤ → SlotOp Bytes → List (Move ℤ)}
    {r : LogRecord}
    {m : Move ℤ} (hbin : ∀ p op, ∀ m ∈ moves p op, m.bin = p) (hr : r.Fits tabs)
    (hf : tabs tabName = some f) (hm : m ∈ r.movesIn moves tabName) : f.DataPage m.bin := by
  unfold LogRecord.movesIn at hm
  split at hm
  · cases hm
  · rename_i x op hop
    split at hm
    · rename_i hx
      obtain ⟨⟨g, hg, -, hrid⟩, -⟩ := hr x op hop
      rw [hx, hf] at hg
      cases hg
      rw [hbin _ op m hm]
      exact hrid.1
    · cases hm

theorem dataPage_of_mem_recoveryMoves {tabs : Tables} {m : Move ℤ} (hfits : ∀ r ∈ logs, r.Fits tabs)
    (hf : tabs tabName = some f) (hm : m ∈ recoveryMoves logs tabName) : f.DataPage m.bin := by
  have hundo (p : ℤ) (op : SlotOp Bytes) (m : Move ℤ) (hm : m ∈ op.undoMoves p) : m.bin = p := by
    cases op <;> simp_all [SlotOp.undoMoves, Move.bin]
  have hredo (p : ℤ) (op : SlotOp Bytes) (m : Move ℤ) (hm : m ∈ op.redoMoves p) : m.bin = p := by
    cases op <;> simp_all [SlotOp.redoMoves, Move.bin]
  have htxns (ts : List TxnId) (hm : m ∈ ts.flatMap (undoTxnMoves logs tabName)) :
      f.DataPage m.bin := by
    obtain ⟨t, -, hm⟩ := List.mem_flatMap.1 hm
    obtain ⟨r, hr, hm⟩ := List.mem_flatMap.1 hm
    have hr' := List.mem_of_mem_filter (List.mem_reverse.1 hr)
    exact dataPage_of_mem_movesIn hundo (hfits r hr') hf hm
  rcases List.mem_append.1 hm with hm | hm
  · exact htxns _ hm
  rcases List.mem_append.1 hm with hm | hm
  · obtain ⟨r, hr, hm⟩ := List.mem_flatMap.1 hm
    exact dataPage_of_mem_movesIn hredo (hfits r (List.mem_of_mem_filter hr)) hf hm
  · exact htxns _ hm

end Files

/-- A transaction inserts one record of 512 bytes. -/
def openLog : List LogRecord :=
  [⟨0, 0, -1, .begin⟩, ⟨1, 0, 0, .insert "t" ⟨1, 0⟩ (List.replicate 512 0)⟩]

/-- It commits. -/
def closedLog : List LogRecord := openLog ++ [⟨2, 0, 1, .commit⟩]

/-- The file on disk, with the record. -/
def writtenFile : RmFile where
  hdr := ⟨512, 2, 7, 1, 1⟩
  pages := fun _ => { nextFreePageNo := -1, numRecords := 1, body := Bitmap.set (fun _ => 0) 0 }
  fd2pageno := 2

def writtenTables : Tables := fun tabName => if tabName = "t" then some writtenFile else none

section Example

theorem writtenTables_some {tabName : String} {f : RmFile} (h : writtenTables tabName = some f) :
    tabName = "t" ∧ f = writtenFile := by
  unfold writtenTables at h
  split at h
  · rename_i hn
    exact ⟨hn, (Option.some.inj h).symm⟩
  · cases h

theorem writtenFile_page {p : ℤ} (h : writtenFile.DataPage p) : p = 1 := by
  obtain ⟨hle, hlt⟩ := h
  change p < 2 at hlt
  omega

theorem writtenFile_wellFormed : writtenFile.hdr.WellFormed := ⟨by decide, by decide, by decide⟩

theorem writtenFile_consistent : writtenFile.Consistent := by
  have hcard : (1 : ℤ) = (Bitmap.setBits (Bitmap.set (fun _ => 0) 0) 7).card := by decide
  refine ⟨fun _ _ => hcard, [1], List.nodup_singleton 1, ⟨rfl, rfl⟩, fun p => ?_⟩
  rw [List.mem_singleton]
  refine ⟨?_, fun h => writtenFile_page h.1⟩
  rintro rfl
  exact ⟨⟨by decide, by decide⟩, 1, by decide, by decide⟩

theorem openLog_linked : Linked openLog := by
  have h₁ : Linked ([] ++ [⟨0, 0, -1, .begin⟩]) := .snoc .nil rfl rfl (by decide) rfl
  exact .snoc h₁ rfl rfl (by decide) rfl

theorem openLog_values : ∃ cur, LogValues openLog cur := by
  have h₁ : LogValues ([] ++ [⟨0, 0, -1, .begin⟩]) _ := .snoc .nil fun x op h => by cases h
  refine ⟨_, .snoc h₁ fun x op h => ?_⟩
  obtain ⟨e, he, hx⟩ := Option.bind_eq_some_iff.1 h
  cases he
  split at hx
  · cases hx
    exact ⟨rfl, fun t ht => absurd rfl ht⟩
  · cases hx

theorem openLog_fits : ∀ r ∈ openLog, r.Fits writtenTables := by
  intro r hr x op hop
  rcases List.mem_cons.1 hr with rfl | hr
  · cases hop
  · cases List.mem_singleton.1 hr
    cases hop
    refine ⟨⟨_, rfl, writtenFile_wellFormed, ⟨by decide, by decide⟩, by decide, by decide⟩, ?_⟩
    intro f hf
    obtain ⟨-, rfl⟩ := writtenTables_some hf
    exact List.length_replicate

theorem writtenTables_empty {x : Loc} (hx : writtenTables.ValidLoc x) (hne : x ≠ ("t", ⟨1, 0⟩)) :
    (writtenTables.slot x).used = false := by
  obtain ⟨f, hf, -, hpage, hle, -⟩ := hx
  obtain ⟨hn, rfl⟩ := writtenTables_some hf
  have hp := writtenFile_page hpage
  have hslot : x.2.slotNo.toNat ≠ 0 := by
    intro hzero
    refine hne (Prod.ext hn (RmFile.rid_eq le_rfl hle hp ?_))
    exact hzero
  rw [slot_of_some hf]
  change Bitmap.isSet (Bitmap.set (fun _ => 0) 0) x.2.slotNo.toNat = false
  rw [Bitmap.isSet_set]
  simp [hslot, Bitmap.isSet]

end Example

end Rmdb
