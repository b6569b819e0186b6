import Rmdb.Lib.Run
import Rmdb.Recovery.Committed

/-!
# Durability across restarts

A server runs transactions on the tables and writes the log; a crash keeps some part of the log that
contains everything flushed, leaves any content in the slots that were ever written, and the next
run starts with a recovery pass over the whole log that was kept.

Recovery undoes the transactions without an end record at every restart, after all committed work
has been redone, and leaves no record of having done so.  So a transaction left unfinished by a
crash is undone again after later runs have committed work on the same slots.

`DeleteExecutor` and `UpdateExecutor` log an operation before they ask for the lock of its record.
When the lock is refused the log has an operation that was never applied, and `abort` logs the end
of the transaction only when its write set is not empty, which after a refused DELETE it need not
be.  Outside of explicit transactions they read the record without a lock, so that the before-image
can be out of date.

As long as nobody logs an operation on a slot that a loser wrote, that another running transaction
has written or logged, or that holds something else than the before-image, what was committed stays.
-/

namespace Rmdb

open Slot Tables

/-- The state of the server.  `running` are the transactions of this run that have logged and not
ended, `writes` the records of the operations in their write sets, and `refused` those of the
operations whose lock was refused.  The last three fields only record the past: the commits that
returned, the slots ever written or logged, and those of transactions that a crash left
unfinished. -/
structure Server where
  logs : List LogRecord := []
  flushed : ℕ := 0
  tabs : Tables
  running : List TxnId := []
  writes : List LogRecord := []
  refused : List LogRecord := []
  returned : List TxnId := []
  touched : Set Loc := ∅
  leftovers : Set Loc := ∅

/-- What happens in a history. -/
inductive ServerOp
  | begin (t : TxnId)
  | write (t : TxnId) (body : LogBody)
  | refused (t : TxnId) (body : LogBody)
  | index (t : TxnId) (body : LogBody)
  | commit (t : TxnId)
  | abort (t : TxnId)
  | flush (n : ℕ)
  | commitReturns (t : TxnId)
  | newPage (tabs : Tables)
  | crash (kept : ℕ) (disk : Tables)

/-- The operation of the record layer that a logged operation on a slot stands for. -/
def Tables.write (tabs : Tables) (x : Loc) : SlotOp Bytes → Tables
  | .insert v => tabs.modify x.1 (·.insertRecordAt x.2 v)
  | .delete _ => tabs.modify x.1 (·.deleteRecord x.2)
  | .update _ new => tabs.modify x.1 (·.updateRecord x.2 new)

/-- `tabs'` is `tabs` with pages added: the slots there were stay, the new ones are empty. -/
structure Tables.Grows (tabs tabs' : Tables) : Prop where
  valid : ∀ y, tabs.ValidLoc y → tabs'.ValidLoc y ∧ tabs'.slot y = tabs.slot y
  fits : ∀ y buf, tabs'.FitsLoc y buf ↔ tabs.FitsLoc y buf
  fresh : ∀ y, tabs'.ValidLoc y → ¬ tabs.ValidLoc y → (tabs'.slot y).used = false

namespace Server

/-- The record that the transaction `t` writes next. -/
def nextRecord (s : Server) (t : TxnId) (body : LogBody) : LogRecord :=
  ⟨s.logs.length, t, lastLsn s.logs t, body⟩

/-- The slots that transactions without an end in the kept log wrote. -/
def unfinishedAt (s : Server) (kept : ℕ) : Set Loc :=
  {x | ∃ t, opsBy t (opsOn x s.logs) ≠ [] ∧ endedIn (s.logs.take kept) t = false}

/-- The records that `commit` and `abort` add for `t`: none when its write set is empty. -/
def endRecord (s : Server) (t : TxnId) (body : LogBody) : List LogRecord :=
  if recordsOf t s.writes = [] then [] else [s.nextRecord t body]

/-- The records of the other transactions. -/
def others (t : TxnId) (logs : List LogRecord) : List LogRecord := logs.filter fun r => r.logTid ≠ t

/-- One step of a history. -/
inductive Step : Server → ServerOp → Server → Prop
  | begin {s : Server} {t : TxnId} : recordsOf t s.logs = [] →
      Step s (.begin t)
        { s with logs := s.logs ++ [s.nextRecord t .begin], running := t :: s.running }
  /-- An operation under its lock: no other running transaction has written the slot.  An INSERT
  goes to a free slot. -/
  | write {s : Server} {t : TxnId} {body : LogBody} {x : Loc} {op : SlotOp Bytes} : t ∈ s.running →
      recordsOf t s.refused = [] → body.op? = some (x, op) → s.tabs.ValidLoc x → op.Fits s.tabs x →
      (op.before = none → (s.tabs.slot x).val = none) →
      (∀ r ∈ s.writes, r ∉ s.refused → r.opAt x ≠ none → r.logTid = t) →
      Step s (.write t body) { s with
        logs := s.logs ++ [s.nextRecord t body], tabs := s.tabs.write x op,
        writes := s.writes ++ [s.nextRecord t body], touched := insert x s.touched }
  /-- A DELETE or UPDATE is logged and then refused its lock.  The UPDATE is in the write set
  already. -/
  | refused {s : Server} {t : TxnId} {body : LogBody} {x : Loc} {op : SlotOp Bytes} :
      t ∈ s.running →
      recordsOf t s.refused = [] → body.op? = some (x, op) → op.before ≠ none → s.tabs.ValidLoc x →
      op.Fits s.tabs x → opsBy t (opsOn x s.writes) = [] →
      Step s (.refused t body) { s with
        logs := s.logs ++ [s.nextRecord t body],
        writes := if op.after = none then s.writes else s.writes ++ [s.nextRecord t body],
        refused := s.refused ++ [s.nextRecord t body], touched := insert x s.touched }
  | index {s : Server} {t : TxnId} {body : LogBody} : t ∈ s.running → recordsOf t s.refused = [] →
      (∃ ixName key rid, body = .indexInsert ixName key rid ∨ body = .indexDelete ixName key rid) →
      Step s (.index t body) { s with logs := s.logs ++ [s.nextRecord t body] }
  | commit {s : Server} {t : TxnId} : t ∈ s.running → recordsOf t s.refused = [] →
      Step s (.commit t) { s with
        logs := s.logs ++ s.endRecord t .commit, running := s.running.filter (· ≠ t),
        writes := others t s.writes }
  | abort {s : Server} {t : TxnId} : t ∈ s.running →
      Step s (.abort t) { s with
        logs := s.logs ++ s.endRecord t .abort, running := s.running.filter (· ≠ t),
        tabs := undoLogs (recordsOf t s.writes) s.tabs, writes := others t s.writes,
        refused := others t s.refused }
  | flush {s : Server} {n : ℕ} : s.flushed ≤ n → n ≤ s.logs.length →
      Step s (.flush n) { s with flushed := n }
  | commitReturns {s : Server} {t : TxnId} : committedIn (s.logs.take s.flushed) t →
      Step s (.commitReturns t) { s with returned := t :: s.returned }
  | newPage {s : Server} {tabs : Tables} : s.tabs.Grows tabs →
      Step s (.newPage tabs) { s with tabs := tabs }
  | crash {s : Server} {kept : ℕ} {disk tabs : Tables} : s.flushed ≤ kept → kept ≤ s.logs.length →
      Frame s.tabs disk → (∀ x, disk.ValidLoc x → x ∉ s.touched → (disk.slot x).used = false) →
      recover (s.logs.take kept) disk = some tabs →
      Step s (.crash kept disk) { s with
        logs := s.logs.take kept, flushed := kept, tabs := tabs
        running := [], writes := [], refused := []
        leftovers := s.leftovers ∪ s.unfinishedAt kept }

/-- A server on empty tables. -/
structure Initial (s : Server) : Prop where
  logs : s.logs = []
  flushed : s.flushed = 0
  running : s.running = []
  writes : s.writes = []
  refused : s.refused = []
  returned : s.returned = []
  touched : s.touched = ∅
  leftovers : s.leftovers = ∅
  empty : ∀ x, s.tabs.ValidLoc x → (s.tabs.slot x).used = false

/-- A write to `x` whose commit returned is in the log of every later restart, and unless a later
operation of a committed transaction follows it there, the slot holds what it wrote. -/
def Durable (step : Server → ServerOp → Server → Prop) (x : Loc) : Prop :=
  ∀ (s₀ s s₁ s₂ : Server) (ops ops' : List ServerOp) (kept : ℕ) (disk : Tables), Initial s₀ →
    Run step s₀ ops s → Run step s ops' s₁ → step s₁ (.crash kept disk) s₂ →
    ∀ t ∈ s.returned, ∀ op l l', opsOn x s.logs = l ++ (t, op) :: l' →
      ∃ l'', opsOn x s₂.logs = l ++ (t, op) :: l'' ∧ committedIn s₂.logs t ∧
        (committedOps (committedIn s₂.logs) l'' = [] → (s₂.tabs.slot x).val = op.after)

/-- The slot `x` is no leftover and holds the before-image of `op`, and no running transaction but
`t` has an operation on it in the log. -/
def Clear (s : Server) (t : TxnId) (x : Loc) (op : SlotOp Bytes) : Prop :=
  x ∉ s.leftovers ∧ op.before = (s.tabs.slot x).val ∧
    ∀ t' ∈ s.running, opsBy t' (opsOn x s.logs) ≠ [] → t' = t

/-- Operations are logged only where the slot is clear for them, and no DELETE is refused its lock
in a transaction with an empty write set. -/
def AvoidsLeftovers (s : Server) : ServerOp → Prop
  | .write t body => ∀ x op, body.op? = some (x, op) → s.Clear t x op
  | .refused t body => ∀ x op, body.op? = some (x, op) → s.Clear t x op ∧
      (op.after = none → recordsOf t s.writes ≠ [])
  | _ => True

variable {s s' : Server} {x : Loc} {t : TxnId} {r : LogRecord}

/-! ## The invariant -/

/-- What the log says of a slot: the record that is in it, or what a refused operation would have
put there. -/
def loggedVal (s : Server) (x : Loc) : Option Bytes :=
  finalValue (s.tabs.slot x).val ((opsOn x s.refused).map Prod.snd)

/-- The write sets and the log.  They differ by a refused operation, which is then the only one of a
running transaction on its slot. -/
structure WriteSets (s : Server) : Prop where
  logged : ∀ r, r ∈ s.writes ∨ r ∈ s.refused → r ∈ s.logs ∧ r.logTid ∈ s.running ∧ r.body.op? ≠ none
  noted : ∀ t ∈ s.running, ∀ x, opsBy t (opsOn x s.refused) = [] →
    opsBy t (opsOn x s.writes) = opsBy t (opsOn x s.logs)
  refused : ∀ x, ∀ e ∈ opsOn x s.refused, opsOn x s.refused = [e] ∧ x ∉ s.leftovers ∧
    e.2.before = (s.tabs.slot x).val ∧ opsBy e.1 (opsOn x s.logs) = [e.2] ∧
    (opsBy e.1 (opsOn x s.writes) = [] ∨ opsBy e.1 (opsOn x s.writes) = [e.2])
  ends : ∀ t ∈ s.running, ∀ x, opsBy t (opsOn x s.logs) ≠ [] → recordsOf t s.writes ≠ []

/-- The log is well linked and each of its prefixes has a strict history on every slot; on a slot
that is no leftover the log says what the slot holds, and its writers have ended or run. -/
structure Inv (s : Server) : Prop where
  linked : Linked s.logs
  fits : ∀ r ∈ s.logs, r.Fits s.tabs
  flushed : s.flushed ≤ s.logs.length
  running : ∀ t ∈ s.running, endedIn s.logs t = false ∧ recordsOf t s.logs ≠ []
  writeSets : s.WriteSets
  slots : ∀ n x, ∃ v, SlotInv (s.logs.take n) x v
  values : ∀ x, s.tabs.ValidLoc x → x ∉ s.leftovers → SlotInv s.logs x (s.loggedVal x)
  writers : ∀ x t, x ∉ s.leftovers → opsBy t (opsOn x s.logs) ≠ [] → endedIn s.logs t ∨
    t ∈ s.running
  untouched : ∀ x, s.tabs.ValidLoc x → x ∉ s.touched → (s.tabs.slot x).used = false
  touched : ∀ x, opsOn x s.logs ≠ [] → x ∈ s.touched
  mentioned : ∀ x ∈ s.touched, x ∉ s.leftovers → opsOn x s.logs ≠ []
  leftovers : s.leftovers ⊆ s.touched
  returned : ∀ t ∈ s.returned, committedIn (s.logs.take s.flushed) t

theorem loggedVal_of_nil (h : opsOn x s.refused = []) : s.loggedVal x = (s.tabs.slot x).val := by
  rw [loggedVal, h]
  rfl

theorem WriteSets.of_nil (hwrites : s.writes = []) (hrefused : s.refused = [])
    (hrunning : s.running = []) : s.WriteSets := by
  refine ⟨?_, ?_, ?_, ?_⟩
  · rw [hwrites, hrefused]
    rintro r (hr | hr) <;> cases hr
  · rw [hrunning]
    intro t ht
    cases ht
  · rw [hrefused]
    intro x e he
    cases he
  · rw [hrunning]
    intro t ht
    cases ht

theorem Initial.inv (h : Initial s) : Inv s := by
  obtain ⟨hlogs, hflushed, hrunning, hwrites, hrefused, hreturned, htouched, hleft, hempty⟩ := h
  refine ⟨hlogs ▸ .nil, by simp [hlogs], by simp [hflushed], by simp [hrunning],
    .of_nil hwrites hrefused hrunning, fun n x => ?_, fun x hx _ => ?_, fun x t _ hne => ?_,
    fun x hx _ => hempty x hx, fun x hne => ?_, by
      simp [htouched], by simp [hleft], by simp [hreturned]⟩
  · rw [hlogs, List.take_nil]
    exact ⟨none, SlotInv.nil x⟩
  · rw [loggedVal_of_nil (by rw [hrefused]; rfl), hlogs, val_of_not_used (hempty x hx)]
    exact SlotInv.nil x
  · rw [hlogs] at hne
    exact absurd rfl hne
  · rw [hlogs] at hne
    exact absurd rfl hne

theorem opsOn_ne_nil_of_opsBy {logs : List LogRecord} (h : opsBy t (opsOn x logs) ≠ []) :
    opsOn x logs ≠ [] := by
  intro hnil
  rw [hnil] at h
  exact h rfl

theorem exists_of_opsOn_ne_nil {logs : List LogRecord} (h : opsOn x logs ≠ []) :
    ∃ r ∈ logs, ∃ op, r.body.op? = some (x, op) := by
  obtain ⟨e, he⟩ := List.exists_mem_of_ne_nil _ h
  obtain ⟨r, hr, hop⟩ := List.mem_filterMap.1 he
  obtain ⟨op, hop, -⟩ := Option.map_eq_some_iff.1 hop
  obtain ⟨e', he', hx⟩ := Option.bind_eq_some_iff.1 hop
  split at hx
  · rename_i heq
    exact ⟨r, hr, e'.2, heq ▸ he'⟩
  · cases hx

theorem opsOn_ne_nil {logs : List LogRecord} {op : SlotOp Bytes} (hr : r ∈ logs)
    (hop : r.body.op? = some (x, op)) : opsOn x logs ≠ [] := by
  have hmem : (r.logTid, op) ∈ opsOn x logs :=
    List.mem_filterMap.2 ⟨r, hr, by simp [LogRecord.opAt, hop]⟩
  exact List.ne_nil_of_mem hmem

/-- The slots that the log is about exist. -/
theorem Inv.validLoc (h : Inv s) (hne : opsOn x s.logs ≠ []) : s.tabs.ValidLoc x := by
  obtain ⟨r, hr, op, hop⟩ := exists_of_opsOn_ne_nil hne
  exact (h.fits r hr x op hop).1

theorem WriteSets.opsOn_subset (h : s.WriteSets) {e : TxnId × SlotOp Bytes}
    (he : e ∈ opsOn x s.refused) : e ∈ opsOn x s.logs ∧ e.1 ∈ s.running := by
  obtain ⟨r, hr, hop⟩ := List.mem_filterMap.1 he
  obtain ⟨hlog, hrun, -⟩ := h.logged r (.inr hr)
  obtain ⟨op, -, rfl⟩ := Option.map_eq_some_iff.1 hop
  exact ⟨List.mem_filterMap.2 ⟨r, hlog, hop⟩, hrun⟩

/-- The log has no refused operation on a slot that it is not about. -/
theorem WriteSets.refused_nil (h : s.WriteSets) (hnil : opsOn x s.logs = []) :
    opsOn x s.refused = [] := by
  refine List.eq_nil_iff_forall_not_mem.2 fun e he => ?_
  have hmem := (h.opsOn_subset he).1
  rw [hnil] at hmem
  cases hmem

/-- One more record, with its effect on the tables and the write sets. -/
theorem Inv.append {tabs : Tables} {running : List TxnId} {writes refused : List LogRecord}
    {touched : Set Loc} (h : Inv s) (hlinked : Linked (s.logs ++ [r])) (hframe : Frame s.tabs tabs)
    (hfits : r.Fits s.tabs)
    (hwrite : ∀ x op, r.opAt x = some op → s.tabs.ValidLoc x ∧ x ∉ s.leftovers ∧
      op.before = s.loggedVal x ∧ ∀ t ∈ s.running, opsBy t (opsOn x s.logs) ≠ [] → t = r.logTid)
    (hvalue : ∀ x, s.tabs.ValidLoc x → x ∉ s.leftovers →
      finalValue (tabs.slot x).val ((opsOn x refused).map Prod.snd) =
        valueAfter s.logs r x (s.loggedVal x))
    (hsame : ∀ x, s.tabs.ValidLoc x → x ∉ touched → tabs.slot x = s.tabs.slot x)
    (hrunning : ∀ t ∈ running,
      endedIn (s.logs ++ [r]) t = false ∧ recordsOf t (s.logs ++ [r]) ≠ [])
    (hwriters : ∀ t, t ∈ s.running ∨ t = r.logTid → endedIn (s.logs ++ [r]) t ∨ t ∈ running)
    (htouched : ∀ x, x ∈ touched ↔ x ∈ s.touched ∨ (r.opAt x).isSome)
    (hsets : WriteSets { s with
      logs := s.logs ++ [r], tabs := tabs, running := running, writes := writes, refused := refused,
      touched := touched }) :
    Inv { s with
      logs := s.logs ++ [r], tabs := tabs, running := running, writes := writes, refused := refused,
      touched := touched } := by
  have hended := hlinked.of_snoc.2.2.2.2
  have hsnoc (x : Loc) (v : Option Bytes) (hv : SlotInv s.logs x v)
      (heq : ∀ op, r.opAt x = some op → v = s.loggedVal x) :
      SlotInv (s.logs ++ [r]) x (valueAfter s.logs r x v) := by
    refine hv.snoc hended fun op hop => ?_
    obtain ⟨-, hleft, hbefore, hlock⟩ := hwrite x op hop
    refine ⟨hbefore.trans (heq op hop).symm, fun t ht => ?_⟩
    rcases h.writers x t hleft ht with hend | hrun
    · exact .inr hend
    · exact .inl (hlock t hrun ht)
  have hslot (x : Loc) (hx : s.tabs.ValidLoc x) (hleft : x ∉ s.leftovers) :
      SlotInv (s.logs ++ [r]) x (finalValue (tabs.slot x).val
        ((opsOn x refused).map Prod.snd)) := by
    rw [hvalue x hx hleft]
    exact hsnoc x _ (h.values x hx hleft) fun _ _ => rfl
  refine ⟨hlinked, ?_, ?_, hrunning, hsets, ?_, ?_, ?_, ?_, ?_, ?_, ?_, ?_⟩
  · intro r' hr'
    rcases List.mem_append.1 hr' with hr' | hr'
    · exact (h.fits r' hr').frame hframe
    · rw [List.mem_singleton.1 hr']
      exact hfits.frame hframe
  · change s.flushed ≤ (s.logs ++ [r]).length
    rw [List.length_append]
    exact h.flushed.trans (Nat.le_add_right _ _)
  · intro n x
    change ∃ v, SlotInv ((s.logs ++ [r]).take n) x v
    by_cases hn : n ≤ s.logs.length
    · rw [List.take_append_of_le_length hn]
      exact h.slots n x
    · have htake : (s.logs ++ [r]).take n = s.logs ++ [r] :=
        List.take_of_length_le (by rw [List.length_append, List.length_singleton]; omega)
      rw [htake]
      cases hop : r.opAt x with
      | some op =>
        obtain ⟨hx, hleft, -⟩ := hwrite x op hop
        exact ⟨_, hslot x hx hleft⟩
      | none =>
        obtain ⟨v, hv⟩ := h.slots s.logs.length x
        rw [List.take_length] at hv
        exact ⟨_, hsnoc x v hv fun op hop' => by rw [hop] at hop'; cases hop'⟩
  · exact fun x hx hleft => hslot x ((hframe.valid x).1 hx) hleft
  · intro x t hleft hne
    change endedIn (s.logs ++ [r]) t ∨ t ∈ running
    by_cases ht : t = r.logTid
    · exact hwriters t (.inr ht)
    · change opsBy t (opsOn x (s.logs ++ [r])) ≠ [] at hne
      rw [opsOn_snoc, opsBy_append, opsBy_map, if_neg (Ne.symm ht), List.append_nil] at hne
      rcases h.writers x t hleft hne with hend | hrun
      · exact .inl (endedIn_mono hend)
      · exact hwriters t (.inl hrun)
  · intro x hx hnot
    have hx' := (hframe.valid x).1 hx
    change (tabs.slot x).used = false
    rw [hsame x hx' hnot]
    exact h.untouched x hx' fun ht => hnot ((htouched x).2 (.inl ht))
  · intro x hne
    change opsOn x (s.logs ++ [r]) ≠ [] at hne
    rw [opsOn_snoc] at hne
    refine (htouched x).2 ?_
    by_cases hops : opsOn x s.logs = []
    · right
      cases hop : r.opAt x with
      | none => simp [hops, hop] at hne
      | some op => rfl
    · exact .inl (h.touched x hops)
  · intro x hx hleft
    change opsOn x (s.logs ++ [r]) ≠ []
    rw [opsOn_snoc]
    rcases (htouched x).1 hx with hx | hop
    · exact List.append_ne_nil_of_left_ne_nil (h.mentioned x hx hleft) _
    · obtain ⟨op, hop⟩ := Option.isSome_iff_exists.1 hop
      simp [hop]
  · exact fun x hx => (htouched x).2 (.inl (h.leftovers hx))
  · intro t ht
    change committedIn ((s.logs ++ [r]).take s.flushed) t
    rw [List.take_append_of_le_length h.flushed]
    exact h.returned t ht

/-! ## The steps of a run -/

theorem endedIn_of_recordsOf_nil {logs : List LogRecord} (h : recordsOf t logs = []) :
    endedIn logs t = false := by
  have hnone (r : LogRecord) (hr : r ∈ logs) : r.logTid ≠ t := by
    simpa using List.filter_eq_nil_iff.1 h r hr
  simp only [endedIn, committedIn, abortedIn, Bool.or_eq_false_iff, List.any_eq_false]
  exact ⟨fun r hr => by simp [hnone r hr], fun r hr => by simp [hnone r hr]⟩

theorem Inv.linked_nextRecord (h : Inv s) (ht : t ∈ s.running) {body : LogBody}
    (hbody : body ≠ .begin) : Linked (s.logs ++ [s.nextRecord t body]) := by
  obtain ⟨hended, hrec⟩ := h.running t ht
  exact .snoc h.linked rfl rfl ⟨fun hb => absurd hb hbody, fun hnil => absurd hnil hrec⟩ hended

theorem fits_of_op_none {tabs : Tables} (h : r.body.op? = none) : r.Fits tabs := by
  intro x op hop
  rw [h] at hop
  cases hop

theorem opAt_of_op_none (h : r.body.op? = none) (x : Loc) : r.opAt x = none := by
  simp [LogRecord.opAt, h]

/-- What a log says of the slots is not changed by a record without an operation. -/
theorem opsOn_snoc_quiet {logs : List LogRecord} (h : r.body.op? = none) (x : Loc) :
    opsOn x (logs ++ [r]) = opsOn x logs := by
  rw [opsOn_snoc, opAt_of_op_none h]
  simp

theorem mem_others {logs : List LogRecord} : r ∈ others t logs ↔ r ∈ logs ∧ r.logTid ≠ t := by
  simp [others]

theorem opsOn_others {logs : List LogRecord} (t : TxnId) (x : Loc) :
    opsOn x (others t logs) = (opsOn x logs).filter fun e => e.1 ≠ t := by
  induction logs with
  | nil => rfl
  | cons r logs ih =>
    have hcons (r : LogRecord) (logs : List LogRecord) :
      opsOn x (r :: logs) = opsOn x [r] ++ opsOn x logs :=
      opsOn_append x [r] logs
    rw [hcons, List.filter_append, ← ih]
    by_cases hr : r.logTid = t
    · have hdrop : others t (r :: logs) = others t logs := by simp [others, hr]
      rw [hdrop]
      cases hop : r.opAt x <;> simp [opsOn, hop, hr]
    · have hkeep : others t (r :: logs) = r :: others t logs := by simp [others, hr]
      rw [hkeep, hcons]
      cases hop : r.opAt x <;> simp [opsOn, hop, hr]

theorem opsBy_others {logs : List LogRecord} {t' : TxnId} (h : t' ≠ t) (x : Loc) :
    opsBy t' (opsOn x (others t logs)) = opsBy t' (opsOn x logs) := by
  rw [opsOn_others, opsBy, opsBy, List.filter_filter]
  congr 1
  refine List.filter_congr fun e _ => ?_
  by_cases he : e.1 = t' <;> simp [he, h]

theorem recordsOf_others {logs : List LogRecord} {t' : TxnId} (h : t' ≠ t) :
    recordsOf t' (others t logs) = recordsOf t' logs := by
  rw [recordsOf, others, List.filter_filter]
  refine List.filter_congr fun r _ => ?_
  by_cases hr : r.logTid = t' <;> simp [hr, h]

/-- The other transactions keep their records when none of `t` are among them. -/
theorem others_of_recordsOf {logs : List LogRecord} (h : recordsOf t logs = []) :
    others t logs = logs := by
  refine List.filter_eq_self.2 fun r hr => ?_
  simpa using List.filter_eq_nil_iff.1 h r hr

theorem opsBy_of_recordsOf {logs : List LogRecord} (h : recordsOf t logs = []) (x : Loc) :
    opsBy t (opsOn x logs) = [] := by
  rw [opsBy_opsOn, h]
  rfl

/-- A record without an operation, and more or the same transactions running. -/
theorem WriteSets.snoc_quiet {running : List TxnId} (h : s.WriteSets) (hop : r.body.op? = none)
    (hmore : ∀ t ∈ s.running, t ∈ running)
    (hnew : ∀ t ∈ running, t ∈ s.running ∨ recordsOf t s.logs = []) :
    WriteSets { s with logs := s.logs ++ [r], running := running } := by
  have hnil {t : TxnId} (ht : recordsOf t s.logs = []) : recordsOf t s.writes = [] := by
    refine List.filter_eq_nil_iff.2 fun r hr htid => ?_
    exact List.filter_eq_nil_iff.1 ht r (h.logged r (.inl hr)).1 htid
  refine ⟨fun r hr => ?_, fun t ht x hx => ?_, fun x e he => ?_, fun t ht x hne => ?_⟩
  · obtain ⟨hlog, hrun, hop⟩ := h.logged r hr
    exact ⟨List.mem_append_left _ hlog, hmore _ hrun, hop⟩
  · change _ = opsBy t (opsOn x (s.logs ++ [r]))
    rw [opsOn_snoc_quiet hop]
    rcases hnew t ht with ht | ht
    · exact h.noted t ht x hx
    · rw [opsBy_of_recordsOf ht]
      exact opsBy_of_recordsOf (hnil ht) x
  · change _ ∧ _ ∧ _ ∧ opsBy e.1 (opsOn x (s.logs ++ [r])) = _ ∧ _
    rw [opsOn_snoc_quiet hop]
    exact h.refused x e he
  · change opsBy t (opsOn x (s.logs ++ [r])) ≠ [] at hne
    rw [opsOn_snoc_quiet hop] at hne
    rcases hnew t ht with ht | ht
    · exact h.ends t ht x hne
    · exact absurd (opsBy_of_recordsOf ht x) hne

/-- A transaction leaves, with its write set. -/
theorem WriteSets.leave (h : s.WriteSets) (tabs : Tables) {logs : List LogRecord}
    (hlogs : ∃ rest, logs = s.logs ++ rest ∧ ∀ x, opsOn x rest = [])
    (hslot : ∀ x, ∀ e ∈ opsOn x s.refused, e.1 ≠ t → (tabs.slot x).val = (s.tabs.slot x).val) :
    WriteSets { s with
      logs := logs, tabs := tabs, running := s.running.filter (· ≠ t), writes := others t s.writes,
      refused := others t s.refused } := by
  obtain ⟨rest, rfl, hrest⟩ := hlogs
  have hops (x : Loc) : opsOn x (s.logs ++ rest) = opsOn x s.logs := by
    rw [opsOn_append, hrest, List.append_nil]
  have hrun {t' : TxnId} : t' ∈ s.running.filter (· ≠ t) ↔ t' ∈ s.running ∧ t' ≠ t := by simp
  refine ⟨fun r hr => ?_, fun t' ht x hx => ?_, fun x e he => ?_, fun t' ht x hne => ?_⟩
  · have hr' : (r ∈ s.writes ∨ r ∈ s.refused) ∧ r.logTid ≠ t := by
      rcases hr with hr | hr
      · obtain ⟨hr, hne⟩ := mem_others.1 hr
        exact ⟨.inl hr, hne⟩
      · obtain ⟨hr, hne⟩ := mem_others.1 hr
        exact ⟨.inr hr, hne⟩
    obtain ⟨hlog, hmem, hop⟩ := h.logged r hr'.1
    exact ⟨List.mem_append_left _ hlog, hrun.2 ⟨hmem, hr'.2⟩, hop⟩
  · obtain ⟨ht, hne⟩ := hrun.1 ht
    change opsBy t' (opsOn x (others t s.writes)) = opsBy t' (opsOn x (s.logs ++ rest))
    change opsBy t' (opsOn x (others t s.refused)) = [] at hx
    rw [opsBy_others hne] at hx ⊢
    rw [hops]
    exact h.noted t' ht x hx
  · change e ∈ opsOn x (others t s.refused) at he
    rw [opsOn_others] at he
    obtain ⟨he, hne⟩ := List.mem_filter.1 he
    have hne : e.1 ≠ t := by simpa using hne
    obtain ⟨honly, hleft, hbefore, hlogged, hnoted⟩ := h.refused x e he
    change opsOn x (others t s.refused) = [e] ∧ x ∉ s.leftovers ∧ e.2.before = (tabs.slot x).val ∧
      opsBy e.1 (opsOn x (s.logs ++ rest)) = [e.2] ∧ (opsBy e.1 (opsOn x (others t s.writes)) = [] ∨
        opsBy e.1 (opsOn x (others t s.writes)) = [e.2])
    rw [opsOn_others, honly, hops, opsBy_others hne, hslot x e he hne]
    exact ⟨by simp [hne], hleft, hbefore, hlogged, hnoted⟩
  · obtain ⟨ht, hne'⟩ := hrun.1 ht
    change opsBy t' (opsOn x (s.logs ++ rest)) ≠ [] at hne
    rw [hops] at hne
    change recordsOf t' (others t s.writes) ≠ []
    rw [recordsOf_others hne']
    exact h.ends t' ht x hne

/-- A record that does not touch the tables. -/
theorem Inv.append_quiet {running : List TxnId} {writes refused : List LogRecord} (h : Inv s)
    (hlinked : Linked (s.logs ++ [r])) (hop : r.body.op? = none) (habort : r.body ≠ .abort)
    (hrefused : refused = s.refused)
    (hrunning : ∀ t ∈ running,
      endedIn (s.logs ++ [r]) t = false ∧ recordsOf t (s.logs ++ [r]) ≠ [])
    (hwriters : ∀ t, t ∈ s.running ∨ t = r.logTid → endedIn (s.logs ++ [r]) t ∨ t ∈ running)
    (hsets : WriteSets { s with
      logs := s.logs ++ [r], running := running, writes := writes, refused := refused }) :
    Inv { s with
      logs := s.logs ++ [r], running := running, writes := writes, refused := refused } := by
  have hnone (x : Loc) := opAt_of_op_none hop x
  refine h.append hlinked (Frame.refl _) (fits_of_op_none hop) ?_ ?_
    (fun _ _ _ => rfl) hrunning hwriters ?_ hsets
  · intro x op hop'
    rw [hnone x] at hop'
    cases hop'
  · intro x _ _
    rw [valueAfter, if_neg habort, hnone x, hrefused]
    rfl
  · intro x
    simp [hnone x]

theorem recordsOf_append_ne_nil {logs logs' : List LogRecord} (h : recordsOf t logs ≠ []) :
    recordsOf t (logs ++ logs') ≠ [] := by
  rw [recordsOf, List.filter_append]
  exact List.append_ne_nil_of_left_ne_nil h _

/-- The running transactions stay so when a record is written that ends none. -/
theorem Inv.running_append (h : Inv s) (hc : r.body ≠ .commit) (ha : r.body ≠ .abort) (t : TxnId)
    (ht : t ∈ s.running) : endedIn (s.logs ++ [r]) t = false ∧ recordsOf t
    (s.logs ++ [r]) ≠ [] := by
  obtain ⟨hended, hrec⟩ := h.running t ht
  exact ⟨(endedIn_snoc_of_body hc ha).trans hended, recordsOf_append_ne_nil hrec⟩

/-- The other transactions stay running when one ends. -/
theorem Inv.running_end (h : Inv s) (t : TxnId) (ht : t ∈ s.running.filter (· ≠ r.logTid)) :
    endedIn (s.logs ++ [r]) t = false ∧ recordsOf t (s.logs ++ [r]) ≠ [] := by
  obtain ⟨ht, hne⟩ := List.mem_filter.1 ht
  obtain ⟨hended, hrec⟩ := h.running t ht
  have hne : r.logTid ≠ t := by
    rintro rfl
    simp at hne
  exact ⟨(endedIn_snoc_of_ne hne).trans hended, recordsOf_append_ne_nil hrec⟩

theorem endedIn_snoc_self {logs : List LogRecord} (h : r.body = .commit ∨ r.body = .abort) :
    endedIn (logs ++ [r]) r.logTid := by
  rcases h with h | h <;> simp [endedIn, committedIn_snoc, abortedIn_snoc, h]

theorem writers_end {logs : List LogRecord} {running : List TxnId}
    (h : r.body = .commit ∨ r.body = .abort) (t : TxnId) (ht : t ∈ running ∨ t = r.logTid) :
    endedIn (logs ++ [r]) t ∨ t ∈ running.filter (· ≠ r.logTid) := by
  by_cases heq : t = r.logTid
  · rw [heq]
    exact .inl (endedIn_snoc_self h)
  · exact .inr (List.mem_filter.2 ⟨ht.resolve_right heq, by simpa using heq⟩)

theorem write_sets {tabs : Tables} {op : SlotOp Bytes} (hx : tabs.ValidLoc x)
    (hfits : op.Fits tabs x) : Sets tabs x ((tabs.slot x).redo op) (tabs.write x op) := by
  obtain ⟨f, hf, hwf, hrid⟩ := hx
  rw [slot_of_some hf]
  cases op with
  | insert v =>
    obtain ⟨f', hf', hputs⟩ := RmFile.insertRecordAt_puts hwf hrid (hfits f hf)
    have hmodify : tabs.modify x.1 (·.insertRecordAt x.2 v) = _ := modify_of_ok hf hf'
    simp only [Tables.write, hmodify]
    exact sets_update hf hputs
  | delete old =>
    obtain ⟨f', hf', hputs⟩ := RmFile.deleteRecord_puts hwf hrid
    have hmodify : tabs.modify x.1 (·.deleteRecord x.2) = _ := modify_of_ok hf hf'
    simp only [Tables.write, hmodify]
    exact sets_update hf hputs
  | update old new =>
    obtain ⟨f', hf', hputs⟩ := RmFile.updateRecord_puts hwf hrid (hfits.2 f hf)
    have hmodify : tabs.modify x.1 (·.updateRecord x.2 new) = _ := modify_of_ok hf hf'
    simp only [Tables.write, hmodify]
    exact sets_update hf hputs

/-- No operation was refused on a slot that is clear for a transaction without a refused
operation. -/
theorem Inv.refused_nil {op : SlotOp Bytes} (h : Inv s) (hnone : recordsOf t s.refused = [])
    (hclear : s.Clear t x op) : opsOn x s.refused = [] := by
  refine List.eq_nil_iff_forall_not_mem.2 fun e he => ?_
  obtain ⟨hmem, hrun⟩ := h.writeSets.opsOn_subset he
  have heq := hclear.2.2 e.1 hrun (opsBy_ne_nil_of_mem hmem)
  have hne := opsBy_ne_nil_of_mem he
  rw [heq] at hne
  exact hne (opsBy_of_recordsOf hnone x)

section Logged

variable {body : LogBody} {op : SlotOp Bytes}

theorem opAt_nextRecord (hop : body.op? = some (x, op)) (y : Loc) :
    (s.nextRecord t body).opAt y = if x = y then some op else none := by
  simp [LogRecord.opAt, nextRecord, hop]

theorem opsOn_snoc_nextRecord {logs : List LogRecord} (hop : body.op? = some (x, op)) (y : Loc) :
    opsOn y (logs ++ [s.nextRecord t body]) = opsOn y logs ++ if x = y then [(t, op)] else [] := by
  rw [opsOn_snoc, opAt_nextRecord hop]
  split <;> rfl

theorem opsBy_snoc_nextRecord {logs : List LogRecord} (hop : body.op? = some (x, op)) (t' : TxnId)
    (y : Loc) : opsBy t' (opsOn y (logs ++ [s.nextRecord t body])) =
      opsBy t' (opsOn y logs) ++ if x = y ∧ t = t' then [op] else [] := by
  rw [opsOn_snoc_nextRecord hop, opsBy_append]
  congr 1
  by_cases hxy : x = y <;> by_cases ht : t = t' <;> simp [hxy, ht, opsBy]

theorem ne_of_op (hop : body.op? = some (x, op)) {b : LogBody} (hb : b.op? = none) : body ≠ b := by
  rintro rfl
  rw [hb] at hop
  cases hop

/-- An operation of a running transaction is logged, on a slot that is clear for it. -/
theorem Inv.log {tabs : Tables} {writes refused : List LogRecord} (h : Inv s) (ht : t ∈ s.running)
    (hop : body.op? = some (x, op)) (hx : s.tabs.ValidLoc x) (hfits : op.Fits s.tabs x)
    (hnone : recordsOf t s.refused = []) (hclear : s.Clear t x op) (hframe : Frame s.tabs tabs)
    (hother : ∀ y, s.tabs.ValidLoc y → y ≠ x → tabs.slot y = s.tabs.slot y)
    (hvalue : finalValue (tabs.slot x).val ((opsOn x refused).map Prod.snd) = op.after)
    (hrefused : ∀ y, y ≠ x → opsOn y refused = opsOn y s.refused)
    (hsets : WriteSets { s with
      logs := s.logs ++ [s.nextRecord t body], tabs := tabs, writes := writes, refused := refused,
      touched := insert x s.touched }) :
    Inv { s with
      logs := s.logs ++ [s.nextRecord t body], tabs := tabs, writes := writes, refused := refused,
      touched := insert x s.touched } := by
  refine h.append (h.linked_nextRecord ht (ne_of_op hop rfl)) hframe ?_ ?_ ?_ ?_
    (h.running_append (ne_of_op hop rfl) (ne_of_op hop rfl)) ?_ ?_ hsets
  · intro y op' hop'
    rw [nextRecord, hop] at hop'
    cases hop'
    exact ⟨hx, hfits⟩
  · intro y op' hop'
    rw [opAt_nextRecord hop] at hop'
    split at hop'
    · rename_i hxy
      subst hxy
      cases hop'
      refine ⟨hx, hclear.1, ?_, hclear.2.2⟩
      rw [loggedVal_of_nil (h.refused_nil hnone hclear)]
      exact hclear.2.1
    · cases hop'
  · intro y hy _
    have habort : (s.nextRecord t body).body ≠ .abort := ne_of_op hop rfl
    rw [valueAfter, if_neg habort, opAt_nextRecord hop]
    by_cases hxy : x = y
    · subst hxy
      simp only [if_true]
      exact hvalue
    · simp only [hxy, if_false]
      rw [hother y hy (Ne.symm hxy), hrefused y (Ne.symm hxy)]
      rfl
  · intro y hy hnot
    refine hother y hy fun hyx => hnot ?_
    rw [hyx]
    exact Set.mem_insert x _
  · rintro t' (ht' | rfl)
    · exact .inr ht'
    · exact .inr ht
  · intro y
    rw [opAt_nextRecord hop]
    by_cases hxy : y = x
    · simp [hxy]
    · simp [hxy, Ne.symm hxy]

theorem Inv.write (h : Inv s) (ht : t ∈ s.running) (hnone : recordsOf t s.refused = [])
    (hop : body.op? = some (x, op)) (hx : s.tabs.ValidLoc x) (hfits : op.Fits s.tabs x)
    (hclear : s.Clear t x op) :
    Inv { s with
      logs := s.logs ++ [s.nextRecord t body], tabs := s.tabs.write x op,
      writes := s.writes ++ [s.nextRecord t body], touched := insert x s.touched } := by
  have hsets := write_sets hx hfits
  have hnil := h.refused_nil hnone hclear
  refine h.log ht hop hx hfits hnone hclear hsets.frame (fun y hy hyx => ?_) ?_ (fun _ _ => rfl) ?_
  · rw [hsets.slot y hy, if_neg hyx]
  · rw [hnil, hsets.slot x hx, if_pos rfl]
    exact val_redo hclear.2.1
  · obtain ⟨hlogged, hnoted, hrefused, hends⟩ := h.writeSets
    refine ⟨fun r hr => ?_, fun t' ht' y hy => ?_, fun y e he => ?_, fun t' ht' y hne => ?_⟩
    · rcases hr with hr | hr
      · rcases List.mem_append.1 hr with hr | hr
        · exact ⟨List.mem_append_left _ (hlogged r (.inl hr)).1, (hlogged r (.inl hr)).2⟩
        · rw [List.mem_singleton.1 hr]
          exact ⟨List.mem_append_right _ List.mem_cons_self, ht, by simp [nextRecord, hop]⟩
      · exact ⟨List.mem_append_left _ (hlogged r (.inr hr)).1, (hlogged r (.inr hr)).2⟩
    · change opsBy t' (opsOn y (s.writes ++ [s.nextRecord t body])) =
        opsBy t' (opsOn y (s.logs ++ [s.nextRecord t body]))
      rw [opsBy_snoc_nextRecord hop, opsBy_snoc_nextRecord hop, hnoted t' ht' y hy]
    · have hyx : x ≠ y := by
        rintro rfl
        change e ∈ opsOn x s.refused at he
        rw [hnil] at he
        cases he
      obtain ⟨honly, hleft, hbefore, hlog, hnote⟩ := hrefused y e he
      change opsOn y s.refused = [e] ∧ y ∉ s.leftovers ∧
        e.2.before = ((s.tabs.write x op).slot y).val ∧
        opsBy e.1 (opsOn y (s.logs ++ [s.nextRecord t body])) = [e.2] ∧
        (opsBy e.1 (opsOn y (s.writes ++ [s.nextRecord t body])) = [] ∨
          opsBy e.1 (opsOn y (s.writes ++ [s.nextRecord t body])) = [e.2])
      have hyv : s.tabs.ValidLoc y :=
        h.validLoc (List.ne_nil_of_mem (h.writeSets.opsOn_subset he).1)
      rw [opsBy_snoc_nextRecord hop, opsBy_snoc_nextRecord hop, hsets.slot y hyv,
        if_neg (Ne.symm hyx)]
      simpa [hyx] using ⟨honly, hleft, hbefore, hlog, hnote⟩
    · change recordsOf t' (s.writes ++ [s.nextRecord t body]) ≠ []
      by_cases htt : t = t'
      · rw [recordsOf_snoc, if_pos (show (s.nextRecord t body).logTid = t' from htt)]
        simp
      · change opsBy t' (opsOn y (s.logs ++ [s.nextRecord t body])) ≠ [] at hne
        rw [opsBy_snoc_nextRecord hop, if_neg (fun hn => htt hn.2), List.append_nil] at hne
        exact recordsOf_append_ne_nil (hends t' ht' y hne)

theorem Inv.refuse (h : Inv s) (ht : t ∈ s.running) (hnone : recordsOf t s.refused = [])
    (hop : body.op? = some (x, op)) (hx : s.tabs.ValidLoc x) (hfits : op.Fits s.tabs x)
    (hfirst : opsBy t (opsOn x s.writes) = []) (hclear : s.Clear t x op)
    (hends' : op.after = none → recordsOf t s.writes ≠ []) :
    Inv { s with
      logs := s.logs ++ [s.nextRecord t body],
      writes := if op.after = none then s.writes else s.writes ++ [s.nextRecord t body],
      refused := s.refused ++ [s.nextRecord t body], touched := insert x s.touched } := by
  have hnil := h.refused_nil hnone hclear
  obtain ⟨hlogged, hnoted, hrefused, hends⟩ := h.writeSets
  have hlog : opsBy t (opsOn x s.logs) = [] := by
    rw [← hnoted t ht x (opsBy_of_recordsOf hnone x), hfirst]
  have hwrites (t' : TxnId) (y : Loc) (hne : ¬ (x = y ∧ t = t')) :
      opsBy t' (opsOn y (if op.after = none then s.writes else s.writes ++ [s.nextRecord t body])) =
        opsBy t' (opsOn y s.writes) := by
    split
    · rfl
    · rw [opsBy_snoc_nextRecord hop, if_neg hne, List.append_nil]
  refine h.log ht hop hx hfits hnone hclear (Frame.refl _) (fun _ _ _ => rfl) ?_
    (fun y hyx => ?_) ?_
  · rw [opsOn_snoc_nextRecord hop, hnil, if_pos rfl]
    rfl
  · rw [opsOn_snoc_nextRecord hop, if_neg (Ne.symm hyx), List.append_nil]
  · refine ⟨fun r hr => ?_, fun t' ht' y hy => ?_, fun y e he => ?_, fun t' ht' y hne => ?_⟩
    · have hr' : (r ∈ s.writes ∨ r ∈ s.refused) ∨ r = s.nextRecord t body := by
        rcases hr with hr | hr
        · split at hr
          · exact .inl (.inl hr)
          · exact (List.mem_append.1 hr).imp .inl List.mem_singleton.1
        · exact (List.mem_append.1 hr).imp .inr List.mem_singleton.1
      rcases hr' with hr' | rfl
      · exact ⟨List.mem_append_left _ (hlogged r hr').1, (hlogged r hr').2⟩
      · exact ⟨List.mem_append_right _ List.mem_cons_self, ht, by simp [nextRecord, hop]⟩
    · change opsBy t' (opsOn y (s.refused ++ [s.nextRecord t body])) = [] at hy
      change opsBy t' (opsOn y (if op.after = none then s.writes else s.writes ++
        [s.nextRecord t body])) = opsBy t' (opsOn y (s.logs ++ [s.nextRecord t body]))
      rw [opsBy_snoc_nextRecord hop, List.append_eq_nil_iff] at hy
      have hne : ¬ (x = y ∧ t = t') := fun hn => by simp [hn] at hy
      rw [hwrites t' y hne, opsBy_snoc_nextRecord hop, if_neg hne, List.append_nil]
      exact hnoted t' ht' y hy.1
    · change e ∈ opsOn y (s.refused ++ [s.nextRecord t body]) at he
      change opsOn y (s.refused ++ [s.nextRecord t body]) = [e] ∧ y ∉ s.leftovers ∧
        e.2.before = (s.tabs.slot y).val ∧
        opsBy e.1 (opsOn y (s.logs ++ [s.nextRecord t body])) = [e.2] ∧
        (opsBy e.1 (opsOn y (if op.after = none then s.writes else s.writes ++
          [s.nextRecord t body])) = [] ∨ opsBy e.1 (opsOn y (if op.after = none then s.writes
            else s.writes ++ [s.nextRecord t body])) = [e.2])
      rw [opsOn_snoc_nextRecord hop] at he ⊢
      by_cases hxy : x = y
      · subst hxy
        rw [hnil, if_pos rfl, List.nil_append, List.mem_singleton] at he
        subst he
        rw [hnil, if_pos rfl, opsBy_snoc_nextRecord hop, if_pos ⟨rfl, rfl⟩, hlog]
        refine ⟨rfl, hclear.1, hclear.2.1, rfl, ?_⟩
        split
        · exact .inl hfirst
        · right
          rw [opsBy_snoc_nextRecord hop, if_pos ⟨rfl, rfl⟩, hfirst]
          rfl
      · rw [if_neg hxy, List.append_nil] at he ⊢
        have hne : ¬ (x = y ∧ t = e.1) := fun hn => hxy hn.1
        rw [hwrites e.1 y hne, opsBy_snoc_nextRecord hop, if_neg hne, List.append_nil]
        exact hrefused y e he
    · change recordsOf t' (if op.after = none then s.writes else s.writes ++
        [s.nextRecord t body]) ≠ []
      change opsBy t' (opsOn y (s.logs ++ [s.nextRecord t body])) ≠ [] at hne
      by_cases htt : t = t'
      · subst htt
        split
        · rename_i hafter
          exact hends' hafter
        · rw [recordsOf_snoc, if_pos (show (s.nextRecord t body).logTid = t from rfl)]
          simp
      · rw [opsBy_snoc_nextRecord hop, if_neg (fun hn => htt hn.2), List.append_nil] at hne
        split
        · exact hends t' ht' y hne
        · exact recordsOf_append_ne_nil (hends t' ht' y hne)

end Logged

/-- A transaction without operations leaves no record and no trace. -/
theorem Inv.leave {tabs : Tables} {refused : List LogRecord} (h : Inv s)
    (hnone : ∀ x, opsBy t (opsOn x s.logs) = []) (htabs : tabs = s.tabs)
    (hrefused : refused = s.refused)
    (hsets : WriteSets { s with
      tabs := tabs, running := s.running.filter (· ≠ t), writes := others t s.writes
      refused := refused }) :
    Inv { s with
      tabs := tabs, running := s.running.filter (· ≠ t), writes := others t s.writes,
      refused := refused } := by
  subst htabs hrefused
  refine { h with running := fun t' ht' => h.running t' (List.mem_of_mem_filter ht'),
                  writeSets := hsets, writers := fun x t' hx hne => ?_ }
  refine (h.writers x t' hx hne).imp_right fun hrun => List.mem_filter.2 ⟨hrun, ?_⟩
  have hne' : t' ≠ t := by
    rintro rfl
    exact hne (hnone x)
  simpa using hne'

theorem endRecord_ops (t : TxnId) {body : LogBody} (hbody : body.op? = none) (x : Loc) :
    opsOn x (s.endRecord t body) = [] := by
  rw [endRecord]
  split
  · rfl
  · simp [opsOn, opAt_of_op_none (r := s.nextRecord t body) hbody]

theorem Inv.commit (h : Inv s) (ht : t ∈ s.running) (hnone : recordsOf t s.refused = []) :
    Inv { s with
      logs := s.logs ++ s.endRecord t .commit, running := s.running.filter (· ≠ t),
      writes := others t s.writes } := by
  have hsets := h.writeSets.leave (t := t) s.tabs
    ⟨_, rfl, endRecord_ops (s := s) t (show LogBody.commit.op? = none from rfl)⟩
    fun _ _ _ _ => rfl
  rw [others_of_recordsOf hnone] at hsets
  rw [endRecord] at hsets ⊢
  split at hsets
  · rename_i hw
    rw [if_pos hw, List.append_nil]
    rw [List.append_nil] at hsets
    refine h.leave (fun x => ?_) rfl rfl hsets
    by_contra hne
    exact h.writeSets.ends t ht x hne hw
  · rename_i hw
    rw [if_neg hw]
    exact h.append_quiet (h.linked_nextRecord ht (by decide)) rfl (by simp [nextRecord]) rfl
      (h.running_end (r := s.nextRecord t .commit)) (writers_end (.inl rfl)) hsets

/-- What `abort` leaves in a slot is what the log says of it after the ABORT record. -/
theorem Inv.abort_value (h : Inv s) (ht : t ∈ s.running) (hx : s.tabs.ValidLoc x)
    (hleft : x ∉ s.leftovers) :
    finalValue ((s.tabs.slot x).undoAll (opsBy t (opsOn x s.writes))).val
        ((opsOn x (others t s.refused)).map Prod.snd) =
      initialValue (s.loggedVal x) (opsBy t (opsOn x s.logs)) := by
  have hv := h.values x hx hleft
  by_cases hmine : opsBy t (opsOn x s.refused) = []
  · rw [h.writeSets.noted t ht x hmine]
    have hothers : opsOn x (others t s.refused) = opsOn x s.refused := by
      rw [opsOn_others]
      refine List.filter_eq_self.2 fun e he => ?_
      have hne : e.1 ≠ t := by
        rintro rfl
        exact opsBy_ne_nil_of_mem he hmine
      simpa using hne
    rw [hothers]
    rcases hv.applies (h.running t ht).1 with hnil | ⟨c, hc⟩
    · rw [hnil]
      rfl
    · by_cases hops : opsBy t (opsOn x s.logs) = []
      · rw [hops]
        rfl
      · -- nobody else has an operation here that is not ended, refused or not
        have hnone : opsOn x s.refused = [] := by
          refine List.eq_nil_iff_forall_not_mem.2 fun e he => ?_
          obtain ⟨hmem, hrun⟩ := h.writeSets.opsOn_subset he
          have heq := hv.unfinished_unique (h.running e.1 hrun).1 (h.running t ht).1
            (opsBy_ne_nil_of_mem hmem) hops
          have hne := opsBy_ne_nil_of_mem he
          rw [heq] at hne
          exact hne hmine
        rw [loggedVal_of_nil hnone] at hc ⊢
        rw [hnone, initialValue_eq hc]
        exact val_undoAll_of_applied hc rfl
  · obtain ⟨op, hop⟩ := List.exists_mem_of_ne_nil _ hmine
    obtain ⟨e, hmem, rfl⟩ := List.mem_map.1 hop
    obtain ⟨he, het⟩ := List.mem_filter.1 hmem
    have het : e.1 = t := by simpa using het
    subst het
    obtain ⟨honly, -, hbefore, hlogged, hnoted⟩ := h.writeSets.refused x e he
    have hgone : opsOn x (others e.1 s.refused) = [] := by
      rw [opsOn_others, honly]
      simp
    rw [hgone, hlogged]
    change _ = e.2.before
    rcases hnoted with hnoted | hnoted <;> rw [hnoted, hbefore]
    · rfl
    · have happlies : Applies (s.tabs.slot x).val [e.2] e.2.after := ⟨hbefore, rfl⟩
      exact val_undoAll happlies rfl

theorem Inv.abort (h : Inv s) (ht : t ∈ s.running) :
    Inv { s with
      logs := s.logs ++ s.endRecord t .abort, running := s.running.filter (· ≠ t),
      tabs := undoLogs (recordsOf t s.writes) s.tabs, writes := others t s.writes,
      refused := others t s.refused } := by
  have hfits : ∀ r ∈ recordsOf t s.writes, r.Fits s.tabs := fun r hr =>
    h.fits r (h.writeSets.logged r (.inl (List.mem_of_mem_filter hr))).1
  obtain ⟨hframe, hslot⟩ := undoLogs_spec hfits
  have hkeep (x : Loc) (hx : s.tabs.ValidLoc x) (hnil : opsBy t (opsOn x s.writes) = []) :
      (undoLogs (recordsOf t s.writes) s.tabs).slot x = s.tabs.slot x := by
    rw [hslot x hx, ← opsBy_opsOn, hnil]
    rfl
  have hmem {x : Loc} (hne : opsBy t (opsOn x s.writes) ≠ []) : opsOn x s.logs ≠ [] := by
    obtain ⟨r, hr, op, hop⟩ := exists_of_opsOn_ne_nil (opsOn_ne_nil_of_opsBy hne)
    exact opsOn_ne_nil (h.writeSets.logged r (.inl hr)).1 hop
  have hsets := h.writeSets.leave (t := t) (undoLogs (recordsOf t s.writes) s.tabs)
    ⟨_, rfl, endRecord_ops (s := s) t (show LogBody.abort.op? = none from rfl)⟩ fun x e he hne => by
      obtain ⟨hlog, hrun⟩ := h.writeSets.opsOn_subset he
      have hxv := h.validLoc (List.ne_nil_of_mem hlog)
      rw [hkeep x hxv ?_]
      by_contra hops
      obtain ⟨honly, hleft, -⟩ := h.writeSets.refused x e he
      have hmine : opsBy t (opsOn x s.refused) = [] := by
        rw [honly]
        simp [opsBy, hne]
      rw [h.writeSets.noted t ht x hmine] at hops
      exact hne ((h.values x hxv hleft).unfinished_unique (h.running e.1 hrun).1 (h.running t ht).1
        (opsBy_ne_nil_of_mem hlog) hops)
  rw [endRecord] at hsets ⊢
  split at hsets
  · rename_i hw
    rw [if_pos hw, List.append_nil]
    rw [List.append_nil] at hsets
    have hnone (x : Loc) : opsBy t (opsOn x s.logs) = [] := by
      by_contra hne
      exact h.writeSets.ends t ht x hne hw
    refine h.leave hnone (by rw [hw]; rfl) (others_of_recordsOf ?_) hsets
    refine List.filter_eq_nil_iff.2 fun r hr htid => ?_
    obtain ⟨hlog, -, hop⟩ := h.writeSets.logged r (.inr hr)
    obtain ⟨⟨x, op⟩, hop⟩ := Option.ne_none_iff_exists'.1 hop
    have hmem : (r.logTid, op) ∈ opsOn x s.logs :=
      List.mem_filterMap.2 ⟨r, hlog, by simp [LogRecord.opAt, hop]⟩
    have hne := opsBy_ne_nil_of_mem hmem
    rw [show r.logTid = t by simpa using htid] at hne
    exact hne (hnone x)
  · rename_i hw
    rw [if_neg hw]
    refine h.append (h.linked_nextRecord ht (by decide)) hframe (fits_of_op_none rfl) ?_ ?_ ?_
      (h.running_end (r := s.nextRecord t .abort)) (writers_end (.inr rfl)) ?_ hsets
    · intro x op hop
      cases hop
    · intro x hx hleft
      have habort : (s.nextRecord t .abort).body = .abort := rfl
      rw [valueAfter, if_pos habort, hslot x hx, ← opsBy_opsOn]
      exact h.abort_value ht hx hleft
    · intro x hx hnot
      refine hkeep x hx ?_
      by_contra hne
      exact hnot (h.touched x (hmem hne))
    · intro x
      simp [LogRecord.opAt, nextRecord, LogBody.op?]

/-! ## Crashes -/

theorem committedIn_mono {logs logs' : List LogRecord} (hp : logs <+: logs')
    (h : committedIn logs t) : committedIn logs' t := by
  obtain ⟨rest, rfl⟩ := hp
  simp only [committedIn, List.any_append, Bool.or_eq_true] at h ⊢
  exact .inl h

theorem opsBy_mono {logs logs' : List LogRecord} (h : opsBy t (opsOn x logs) ≠ []) :
    opsBy t (opsOn x (logs ++ logs')) ≠ [] := by
  rw [opsOn_append, opsBy_append]
  exact List.append_ne_nil_of_left_ne_nil h _

/-- The operations of a transaction that ended within a prefix are in that prefix. -/
theorem opsBy_of_ended {logs logs' : List LogRecord} (h : Linked (logs ++ logs'))
    (ht : endedIn logs t) : opsBy t (opsOn x logs') = [] := by
  rw [opsBy_opsOn, h.recordsOf_of_ended ht]
  rfl

/-- What recovery finds after a crash, for the kept part of the log. -/
theorem Inv.recovered (h : Inv s) {kept : ℕ} {disk tabs : Tables} (hframe : Frame s.tabs disk)
    (hrec : recover (s.logs.take kept) disk = some tabs) : Frame s.tabs tabs ∧
      ∀ x, s.tabs.ValidLoc x → (disk.slot x).val = none ∨ opsOn x (s.logs.take kept) ≠ [] →
        (tabs.slot x).val = committedValue (s.logs.take kept) x := by
  have hfits : ∀ r ∈ s.logs.take kept, r.Fits disk := fun r hr =>
    (h.fits r (List.mem_of_mem_take hr)).frame hframe
  obtain ⟨tabs', hrec', hframe', hslot⟩ := recover_committed (h.linked.take kept) hfits
  cases hrec.symm.trans hrec'
  refine ⟨hframe.trans hframe', fun x hx hempty => ?_⟩
  obtain ⟨v, hv⟩ := h.slots kept x
  obtain ⟨c, hc⟩ := hv.history
  exact hslot x c ((hframe.valid x).2 hx) hc hempty

theorem Inv.crash {kept : ℕ} {disk tabs : Tables} (h : Inv s) (hkept : s.flushed ≤ kept)
    (hlen : kept ≤ s.logs.length) (hframe : Frame s.tabs disk)
    (hempty : ∀ x, disk.ValidLoc x → x ∉ s.touched → (disk.slot x).used = false)
    (hrec : recover (s.logs.take kept) disk = some tabs) :
    Inv { s with
      logs := s.logs.take kept, flushed := kept, tabs := tabs
      running := [], writes := [], refused := []
      leftovers := s.leftovers ∪ s.unfinishedAt kept } := by
  obtain ⟨hframe', hslot⟩ := h.recovered hframe hrec
  have hsplit : s.logs.take kept ++ s.logs.drop kept = s.logs := List.take_append_drop kept s.logs
  have hlinked : Linked (s.logs.take kept ++ s.logs.drop kept) := hsplit.symm ▸ h.linked
  have hpre {x : Loc} (hne : opsOn x (s.logs.take kept) ≠ []) : opsOn x s.logs ≠ [] := by
    rw [← hsplit, opsOn_append]
    exact List.append_ne_nil_of_left_ne_nil hne _
  -- the writers of a slot that is no leftover have ended in the kept log
  have hended {x : Loc} (hleft : x ∉ s.unfinishedAt kept) {t : TxnId}
      (ht : opsBy t (opsOn x s.logs) ≠ []) : endedIn (s.logs.take kept) t := by
    by_contra hnot
    exact hleft ⟨t, ht, by simpa using hnot⟩
  have hended' {x : Loc} (hleft : x ∉ s.unfinishedAt kept) {t : TxnId}
      (ht : opsBy t (opsOn x (s.logs.take kept)) ≠ []) : endedIn (s.logs.take kept) t := by
    refine hended hleft ?_
    rw [← hsplit]
    exact opsBy_mono ht
  have hmentioned {x : Loc} (hx : x ∈ s.touched) (hleft : x ∉ s.leftovers)
      (hleft' : x ∉ s.unfinishedAt kept) : opsOn x (s.logs.take kept) ≠ [] := by
    intro hnil
    obtain ⟨e, he⟩ := List.exists_mem_of_ne_nil _ (h.mentioned x hx hleft)
    have hne := opsBy_ne_nil_of_mem he
    have hend := hended hleft' hne
    rw [← hsplit, opsOn_append, hnil, List.nil_append] at hne
    exact hne (opsBy_of_ended hlinked hend)
  have hval {x : Loc} (hx : tabs.ValidLoc x)
    (hcase : x ∉ s.touched ∨ opsOn x (s.logs.take kept) ≠ []) :
      (tabs.slot x).val = committedValue (s.logs.take kept) x := by
    have hx' := (hframe'.valid x).1 hx
    refine hslot x hx' (hcase.imp_left fun hnot => ?_)
    exact val_of_not_used (hempty x ((hframe.valid x).2 hx') hnot)
  refine ⟨h.linked.take kept, ?_, ?_, by simp, .of_nil rfl rfl rfl, ?_, ?_, ?_, ?_, ?_, ?_, ?_, ?_⟩
  · exact fun r hr => (h.fits r (List.mem_of_mem_take hr)).frame hframe'
  · exact (List.length_take_of_le hlen).ge
  · intro n x
    change ∃ v, SlotInv ((s.logs.take kept).take n) x v
    rw [List.take_take]
    exact h.slots _ x
  · intro x hx hleft
    obtain ⟨hleft, hleft'⟩ := not_or.1 hleft
    obtain ⟨v, hv⟩ := h.slots kept x
    have hcase : x ∉ s.touched ∨ opsOn x (s.logs.take kept) ≠ [] := by
      by_cases ht : x ∈ s.touched
      · exact .inr (hmentioned ht hleft hleft')
      · exact .inl ht
    rw [loggedVal_of_nil rfl]
    change SlotInv (s.logs.take kept) x (tabs.slot x).val
    rw [hval hx hcase, ← hv.eq_committedValue fun t => hended' hleft']
    exact hv
  · intro x t hleft ht
    exact .inl (hended' (not_or.1 hleft).2 ht)
  · intro x hx hnot
    have hnil : opsOn x (s.logs.take kept) = [] := by
      by_contra hne
      exact hnot (h.touched x (hpre hne))
    have hnone := hval hx (.inl hnot)
    rw [committedValue, hnil] at hnone
    exact used_of_val hnone
  · exact fun x hne => h.touched x (hpre hne)
  · intro x hx hleft
    obtain ⟨hleft, hleft'⟩ := not_or.1 hleft
    exact hmentioned hx hleft hleft'
  · rintro x (hx | ⟨t, ht, -⟩)
    · exact h.leftovers hx
    · exact h.touched x (opsOn_ne_nil_of_opsBy ht)
  · intro t ht
    change committedIn ((s.logs.take kept).take kept) t
    rw [List.take_take, Nat.min_self]
    exact committedIn_mono (List.take_prefix_take_left hkept) (h.returned t ht)

/-! ## Histories -/

theorem Inv.newPage {tabs : Tables} (h : Inv s) (hgrows : s.tabs.Grows tabs) :
    Inv { s with tabs := tabs } := by
  have hfits {r : LogRecord} (hr : r.Fits s.tabs) : r.Fits tabs := by
    intro x op hop
    obtain ⟨hx, hop⟩ := hr x op hop
    refine ⟨(hgrows.valid x hx).1, ?_⟩
    cases op with
    | insert v => exact (hgrows.fits x v).2 hop
    | delete old => exact (hgrows.fits x old).2 hop
    | update old new => exact ⟨(hgrows.fits x old).2 hop.1, (hgrows.fits x new).2 hop.2⟩
  -- the log says nothing about the slots of a page that was not there
  have hnew {x : Loc} (hx : ¬ s.tabs.ValidLoc x) : opsOn x s.logs = [] := by
    by_contra hne
    exact hx (h.validLoc hne)
  have hsame {x : Loc} {e : TxnId × SlotOp Bytes} (he : e ∈ opsOn x s.refused) :
      tabs.slot x = s.tabs.slot x :=
    (hgrows.valid x (h.validLoc (List.ne_nil_of_mem (h.writeSets.opsOn_subset he).1))).2
  obtain ⟨hlogged, hnoted, hrefused, hends⟩ := h.writeSets
  refine { h with
    fits := fun r hr => hfits (h.fits r hr), writeSets := ⟨hlogged, hnoted, ?_, hends⟩,
                  values := ?_, untouched := ?_ }
  · intro x e he
    obtain ⟨honly, hleft, hbefore, hrest⟩ := hrefused x e he
    exact ⟨honly, hleft, (hsame he).symm ▸ hbefore, hrest⟩
  · intro x hx hleft
    by_cases hold : s.tabs.ValidLoc x
    · change SlotInv s.logs x (finalValue (tabs.slot x).val _)
      rw [(hgrows.valid x hold).2]
      exact h.values x hold hleft
    · rw [loggedVal_of_nil (s := { s with tabs := tabs }) (h.writeSets.refused_nil (hnew hold))]
      change SlotInv s.logs x (tabs.slot x).val
      rw [val_of_not_used (hgrows.fresh x hx hold)]
      exact ⟨[], none, none, hnew hold, List.nodup_nil, by simp, rfl, fun _ => rfl, by simp⟩
  · intro x hx hnot
    by_cases hold : s.tabs.ValidLoc x
    · change (tabs.slot x).used = false
      rw [(hgrows.valid x hold).2]
      exact h.untouched x hold hnot
    · exact hgrows.fresh x hx hold

theorem Inv.step {op : ServerOp} (h : Inv s) (hstep : Meeting AvoidsLeftovers Step s op s') :
    Inv s' := by
  obtain ⟨havoid, hstep⟩ := hstep
  cases hstep with
  | @begin t hnil =>
    have hended : endedIn s.logs t = false := endedIn_of_recordsOf_nil hnil
    have hsets := h.writeSets.snoc_quiet (r := s.nextRecord t .begin) rfl
      (fun _ ht => List.mem_cons_of_mem t ht) fun t' ht' => by
        rcases List.mem_cons.1 ht' with rfl | ht'
        · exact .inr hnil
        · exact .inl ht'
    refine h.append_quiet (.snoc h.linked rfl rfl ⟨fun _ => hnil, fun _ => rfl⟩ hended) rfl
      (by simp [nextRecord]) rfl ?_ ?_ hsets
    · intro t' ht'
      rcases List.mem_cons.1 ht' with rfl | ht'
      · refine ⟨(endedIn_snoc_of_body (by simp [nextRecord]) (by simp [nextRecord])).trans hended,
          ?_⟩
        rw [recordsOf_snoc]
        simp [nextRecord]
      · exact h.running_append (by simp [nextRecord]) (by simp [nextRecord]) t' ht'
    · rintro t' (ht' | rfl)
      · exact .inr (List.mem_cons_of_mem _ ht')
      · exact .inr List.mem_cons_self
  | write ht hnone hop hx hfits _ _ => exact h.write ht hnone hop hx hfits (havoid _ _ hop)
  | refused ht hnone hop _ hx hfits hfirst =>
    obtain ⟨hclear, hends⟩ := havoid _ _ hop
    exact h.refuse ht hnone hop hx hfits hfirst hclear hends
  | @index t body ht _ hbody =>
    have hnone : body.op? = none ∧ body ≠ .begin ∧ body ≠ .commit ∧ body ≠ .abort := by
      obtain ⟨_, _, _, rfl | rfl⟩ := hbody <;> simp [LogBody.op?]
    refine h.append_quiet (h.linked_nextRecord ht hnone.2.1) hnone.1 hnone.2.2.2 rfl
      (h.running_append hnone.2.2.1 hnone.2.2.2) ?_
      (h.writeSets.snoc_quiet hnone.1 (fun _ => id) fun _ => .inl)
    rintro t' (ht' | rfl)
    · exact .inr ht'
    · exact .inr ht
  | commit ht hnone => exact h.commit ht hnone
  | abort ht => exact h.abort ht
  | @flush n hn hlen =>
    obtain ⟨hlogged, hnoted, hrefused, hends⟩ := h.writeSets
    refine { h with flushed := hlen, writeSets := ⟨hlogged, hnoted, hrefused, hends⟩,
                    returned := fun t ht => ?_ }
    exact committedIn_mono (List.take_prefix_take_left hn) (h.returned t ht)
  | @commitReturns t hcommitted =>
    obtain ⟨hlogged, hnoted, hrefused, hends⟩ := h.writeSets
    refine { h with writeSets := ⟨hlogged, hnoted, hrefused, hends⟩, returned := fun t' ht' => ?_ }
    rcases List.mem_cons.1 ht' with rfl | ht'
    · exact hcommitted
    · exact h.returned t' ht'
  | newPage hgrows => exact h.newPage hgrows
  | crash hkept hlen hframe hempty hrec => exact h.crash hkept hlen hframe hempty hrec

/-- What is flushed stays in the log. -/
theorem Inv.flushed_prefix {op : ServerOp} (h : Inv s) (hstep : Step s op s') :
    s.logs.take s.flushed <+: s'.logs.take s'.flushed := by
  have happend (l : List LogRecord) : s.logs.take s.flushed <+: (s.logs ++ l).take s.flushed := by
    rw [List.take_append_of_le_length h.flushed]
  cases hstep with
  | begin => exact happend _
  | write => exact happend _
  | refused => exact happend _
  | index => exact happend _
  | commit => exact happend _
  | abort => exact happend _
  | flush hn => exact List.take_prefix_take_left hn
  | commitReturns => exact List.prefix_rfl
  | newPage => exact List.prefix_rfl
  | @crash kept disk tabs hkept =>
    change _ <+: (s.logs.take kept).take kept
    rw [List.take_take, Nat.min_self]
    exact List.take_prefix_take_left hkept

theorem Inv.run {ops : List ServerOp} (h : Inv s)
    (hrun : Run (Meeting AvoidsLeftovers Step) s ops s') :
    Inv s' ∧ s.logs.take s.flushed <+: s'.logs.take s'.flushed := by
  induction hrun with
  | nil s => exact ⟨h, List.prefix_rfl⟩
  | cons hstep _ ih =>
    obtain ⟨hs', hp⟩ := ih (h.step hstep)
    exact ⟨hs', (h.flushed_prefix hstep.2).trans hp⟩

/-- After a restart the slots that the log mentions hold their committed values. -/
theorem Inv.restart {kept : ℕ} {disk : Tables} (h : Inv s) (hcrash : Step s (.crash kept disk) s')
    (hne : opsOn x s'.logs ≠ []) : (s'.tabs.slot x).val = committedValue s'.logs x := by
  cases hcrash with
  | crash hkept hlen hframe hempty hrec =>
    obtain ⟨-, hslot⟩ := h.recovered hframe hrec
    obtain ⟨r, hr, op, hop⟩ := exists_of_opsOn_ne_nil hne
    exact hslot x (h.fits r (List.mem_of_mem_take hr) x op hop).1 (.inr hne)

/-- The last operation of a committed transaction on a slot decides its committed value. -/
theorem committedValue_of_last {logs : List LogRecord} {op : SlotOp Bytes}
    {l l' : List (TxnId × SlotOp Bytes)} (hops : opsOn x logs = l ++ (t, op) :: l')
    (ht : committedIn logs t) (hlast : committedOps (committedIn logs) l' = []) :
    committedValue logs x = op.after := by
  have hsplit : l ++ (t, op) :: l' = l ++ ([op].map fun op => (t, op)) ++ l' := by simp
  rw [committedValue, hops, hsplit, committedOps_append, committedOps_append, committedOps_map,
    if_pos ht, hlast, List.append_nil, finalValue, List.foldl_append]
  rfl

/-- An element that is not in the second part is in the first. -/
theorem split_of_append_eq {α : Type*} {l₁ l₂ l l' : List α} {a : α} (h : l₁ ++ l₂ = l ++ a :: l')
    (ha : a ∉ l₂) : ∃ l'', l₁ = l ++ a :: l'' := by
  rcases List.append_eq_append_iff.1 h with ⟨m, rfl, hm⟩ | ⟨m, rfl, hm⟩
  · exact absurd (hm ▸ List.mem_append_right m List.mem_cons_self) ha
  · cases m with
    | nil =>
      rw [List.nil_append] at hm
      exact absurd (hm ▸ List.mem_cons_self) ha
    | cons b m =>
      obtain ⟨rfl, -⟩ := List.cons.inj hm
      exact ⟨m, rfl⟩

end Server

/-- Tables of one-byte records, with one page each and no record in it. -/
def blankTables : Tables := fun _ =>
  some { hdr := ⟨1, 2, 3622, -1, 453⟩, pages := fun _ => {}, fd2pageno := 2 }

namespace Server

theorem blank_unused (x : Loc) : (blankTables.slot x).used = false := by
  simp [Tables.slot, blankTables, RmFile.slotAt, Bitmap.isSet]

theorem validLoc_first {tabs : Tables} (h : Frame blankTables tabs) : tabs.ValidLoc ("t", ⟨1, 0⟩) :=
  (h.valid _).2 ⟨_, rfl, ⟨by decide, by decide, by decide⟩,
    ⟨by decide, by decide⟩, by decide, by decide⟩

theorem fitsLoc_first {tabs : Tables} (h : Frame blankTables tabs) (b : UInt8) :
    tabs.FitsLoc ("t", ⟨1, 0⟩) [b] :=
  (h.fits _ _).2 fun f hf => by cases hf; rfl

theorem write_first {tabs : Tables} (h : Frame blankTables tabs) (a b : UInt8) :
    SlotOp.Fits tabs ("t", ⟨1, 0⟩) (.update [a] [b]) ∧
      Frame blankTables (tabs.write ("t", ⟨1, 0⟩) (.update [a] [b])) := by
  have hfits : SlotOp.Fits tabs ("t", ⟨1, 0⟩) (.update [a] [b]) :=
    ⟨fitsLoc_first h a, fitsLoc_first h b⟩
  exact ⟨hfits, h.trans (write_sets (validLoc_first h) hfits).frame⟩

/-- A transaction inserts a record and commits, a second one updates it and does not end, and after
a restart a third one updates it and commits. -/
def lostLog : List LogRecord :=
  [⟨0, 0, -1, .begin⟩, ⟨1, 0, 0, .insert "t" ⟨1, 0⟩ [1]⟩, ⟨2, 0, 1, .commit⟩,
    ⟨3, 1, -1, .begin⟩, ⟨4, 1, 3, .update "t" ⟨1, 0⟩ [1] [2]⟩,
    ⟨5, 2, -1, .begin⟩, ⟨6, 2, 5, .update "t" ⟨1, 0⟩ [1] [3]⟩, ⟨7, 2, 6, .commit⟩]

section Histories

variable {s : Server} {x : Loc} {t : TxnId}

/-- A step of the history that logs an operation on a slot, with the slot clear for it. -/
theorem step_write {body : LogBody} {op : SlotOp Bytes} (ht : t ∈ s.running)
    (hrefused : s.refused = [])
    (hop : body.op? = some (x, op)) (hx : s.tabs.ValidLoc x) (hfits : op.Fits s.tabs x)
    (hclear : s.Clear t x op) (hwrites : s.writes = []) :
    Meeting AvoidsLeftovers Step s (.write t body) { s with
      logs := s.logs ++ [s.nextRecord t body], tabs := s.tabs.write x op,
      writes := s.writes ++ [s.nextRecord t body], touched := insert x s.touched } := by
  refine ⟨fun y op' hop' => ?_, .write ht (by rw [hrefused]; rfl) hop hx hfits ?_ ?_⟩
  · rw [hop] at hop'
    cases hop'
    exact hclear
  · intro hnone
    rw [← hclear.2.1, hnone]
  · rw [hwrites]
    intro r hr
    cases hr

/-- A slot that the log has no operation on is clear for what it holds. -/
theorem clear_of_opsOn_nil {op : SlotOp Bytes} (hleft : x ∉ s.leftovers)
    (hbefore : op.before = (s.tabs.slot x).val)
    (hnil : ∀ t' ∈ s.running, t' ≠ t → opsBy t' (opsOn x s.logs) = []) :
    s.Clear t x op := by
  refine ⟨hleft, hbefore, fun t' ht' hne => ?_⟩
  by_contra htt
  exact hne (hnil t' ht' htt)

end Histories

/-- A history up to the first crash, with everything flushed. -/
theorem run_unfinished : ∃ ops tabs touched,
    Run (Meeting AvoidsLeftovers Step) { tabs := blankTables } ops
      { logs := lostLog.take 5, flushed := 5, tabs := tabs, running := [1],
        writes := [⟨4, 1, 3, .update "t" ⟨1, 0⟩ [1] [2]⟩], touched := touched } ∧
      Frame blankTables tabs := by
  let x : Loc := ("t", ⟨1, 0⟩)
  let tabs₁ := blankTables.write x (.insert [1])
  let s (n : ℕ) (tabs : Tables) (running : List TxnId) (writes : List LogRecord)
    (touched : Set Loc) : Server :=
    { logs := lostLog.take n, tabs := tabs, running := running, writes := writes
      touched := touched }
  have hfits : SlotOp.Fits blankTables x (.insert [1]) := fitsLoc_first (Frame.refl _) 1
  have hframe : Frame blankTables tabs₁ := (write_sets (validLoc_first (Frame.refl _)) hfits).frame
  have hval : (tabs₁.slot x).val = some [1] := by decide +kernel
  obtain ⟨hfits', hframe'⟩ := write_first hframe 1 2
  let step := Meeting AvoidsLeftovers Step
  have h₀ : step (s 0 blankTables [] [] ∅) (.begin 0) (s 1 blankTables [0] [] ∅) :=
    ⟨trivial, .begin rfl⟩
  have h₁ : step (s 1 blankTables [0] [] ∅) (.write 0 (.insert "t" ⟨1, 0⟩ [1]))
      (s 2 tabs₁ [0] [⟨1, 0, 0, .insert "t" ⟨1, 0⟩ [1]⟩] (insert x ∅)) :=
    step_write List.mem_cons_self rfl rfl (validLoc_first (Frame.refl _)) hfits
      (clear_of_opsOn_nil id (val_of_not_used (blank_unused x)).symm fun _ _ _ => rfl) rfl
  rw [insert_empty_eq] at h₁
  have h₂ : step (s 2 tabs₁ [0] [⟨1, 0, 0, .insert "t" ⟨1, 0⟩ [1]⟩] {x}) (.commit 0)
    (s 3 tabs₁ [] [] {x}) :=
    ⟨trivial, .commit List.mem_cons_self rfl⟩
  have h₃ : step (s 3 tabs₁ [] [] {x}) (.begin 1) (s 4 tabs₁ [1] [] {x}) := ⟨trivial, .begin rfl⟩
  have h₄ : step (s 4 tabs₁ [1] [] {x}) (.write 1 (.update "t" ⟨1, 0⟩ [1] [2]))
      (s 5 (tabs₁.write x (.update [1] [2])) [1] [⟨4, 1, 3, .update "t" ⟨1, 0⟩ [1] [2]⟩]
        (insert x {x})) :=
    step_write List.mem_cons_self rfl rfl (validLoc_first hframe) hfits'
      (clear_of_opsOn_nil id hval.symm fun t ht hne => absurd (List.mem_singleton.1 ht) hne) rfl
  have h₅ : step (s 5 (tabs₁.write x (.update [1] [2])) [1] [⟨4, 1, 3, .update "t" ⟨1, 0⟩ [1] [2]⟩]
      (insert x {x})) (.flush 5) _ := ⟨trivial, .flush (by decide) (by decide)⟩
  exact ⟨_, _, _, .cons h₀ <| .cons h₁ <| .cons h₂ <| .cons h₃ <| .cons h₄ <| .cons h₅ <| .nil _,
    hframe'⟩

/-- After the first crash a transaction inserts a record into another slot and commits; one more
inserts a record, is refused the lock of the record that it deletes, and rolls back. -/
def keptLog : List LogRecord :=
  lostLog.take 5 ++
    [⟨5, 2, -1, .begin⟩, ⟨6, 2, 5, .insert "t" ⟨1, 1⟩ [4]⟩, ⟨7, 2, 6, .commit⟩,
      ⟨8, 3, -1, .begin⟩, ⟨9, 3, 8, .insert "t" ⟨1, 2⟩ [5]⟩, ⟨10, 3, 9, .delete "t" ⟨1, 1⟩ [4]⟩,
      ⟨11, 3, 10, .abort⟩]

theorem validLoc_slot {tabs : Tables} (h : Frame blankTables tabs) {slotNo : ℤ} (hle : 0 ≤ slotNo)
    (hlt : slotNo < 3622) : tabs.ValidLoc ("t", ⟨1, slotNo⟩) :=
  (h.valid _).2 ⟨_, rfl, ⟨by decide, by decide, by decide⟩,
    ⟨le_rfl, by change (1 : ℤ) < 2; decide⟩, hle, hlt⟩

theorem fitsLoc_byte {tabs : Tables} (h : Frame blankTables tabs) (x : Loc) (b : UInt8) :
    tabs.FitsLoc x [b] :=
  (h.fits _ _).2 fun f hf => by cases hf; rfl

/-- The restart after the first crash finds two slots empty. -/
theorem exists_recovered_lost : ∃ tabs, recover (lostLog.take 5) blankTables = some tabs ∧
    Frame blankTables tabs ∧ (tabs.slot ("t", ⟨1, 1⟩)).val = none ∧
    (tabs.slot ("t", ⟨1, 2⟩)).val = none := by
  obtain ⟨ops, tabs, touched, hrun, hframe⟩ := run_unfinished
  have hinit : Initial { tabs := blankTables } :=
    ⟨rfl, rfl, rfl, rfl, rfl, rfl, rfl, rfl, fun x _ => blank_unused x⟩
  obtain ⟨hinv, -⟩ := hinit.inv.run hrun
  obtain ⟨tabs₁, hrec, hframe₁, -⟩ := recover_committed hinv.linked
    fun r hr => (hinv.fits r hr).frame hframe.symm
  have h : (recover (lostLog.take 5) blankTables).map (fun tabs =>
      ((tabs.slot ("t", ⟨1, 1⟩)).val, (tabs.slot ("t", ⟨1, 2⟩)).val)) = some (none, none) := by
    decide +kernel
  rw [hrec] at h
  obtain ⟨hy, hz⟩ := Prod.mk.inj (Option.some.inj h)
  exact ⟨tabs₁, hrec, hframe₁, hy, hz⟩

/-- Two crashes and all that happens between them, with every step meeting the condition. -/
theorem run_refused : ∃ ops s ops' s₁ disk s₂,
    Run (Meeting AvoidsLeftovers Step) { tabs := blankTables } ops s ∧
    Run (Meeting AvoidsLeftovers Step) s ops' s₁ ∧
    Meeting AvoidsLeftovers Step s₁ (.crash 12 disk) s₂ ∧ 2 ∈ s.returned ∧
    s.logs = keptLog.take 8 ∧ s₂.logs = keptLog := by
  obtain ⟨ops, tabs, touched, hrun, hframe⟩ := run_unfinished
  let y : Loc := ("t", ⟨1, 1⟩)
  let z : Loc := ("t", ⟨1, 2⟩)
  obtain ⟨tabs₁, hrec, hframe₁, hy, hz⟩ : ∃ tabs₁, recover (lostLog.take 5) blankTables =
      some tabs₁ ∧ Frame blankTables tabs₁ ∧ (tabs₁.slot y).val = none ∧
      (tabs₁.slot z).val = none := exists_recovered_lost
  let s₁ : Server :=
    { logs := lostLog.take 5, flushed := 5, tabs := tabs, running := [1],
      writes := [⟨4, 1, 3, .update "t" ⟨1, 0⟩ [1] [2]⟩], touched := touched }
  let step := Meeting AvoidsLeftovers Step
  have hcrash : step s₁ (.crash 5 blankTables) _ :=
    ⟨trivial, .crash le_rfl le_rfl hframe.symm (fun x _ _ => blank_unused x) hrec⟩
  -- the transaction that the crash left unfinished has not written these slots
  have hleft {x : Loc} (hx : x = y ∨ x = z) : x ∉ (∅ : Set Loc) ∪ unfinishedAt s₁ 5 := by
    rintro (hx' | ⟨t, ht, -⟩)
    · exact hx'
    · refine ht ?_
      rcases hx with rfl | rfl <;> rfl
  generalize (∅ : Set Loc) ∪ unfinishedAt s₁ 5 = leftovers at hcrash hleft
  let s (n flushed : ℕ) (tabs : Tables) (running : List TxnId) (writes refused : List LogRecord)
      (returned : List TxnId) (touched : Set Loc) : Server :=
    ⟨keptLog.take n, flushed, tabs, running, writes, refused, returned, touched, leftovers⟩
  have hfits (b : UInt8) (x : Loc) {tabs : Tables} (h : Frame blankTables tabs) :
      SlotOp.Fits tabs x (.insert [b]) := fitsLoc_byte h x b
  have hyv {tabs : Tables} (h : Frame blankTables tabs) : tabs.ValidLoc y :=
    validLoc_slot h (by decide) (by decide)
  have hzv {tabs : Tables} (h : Frame blankTables tabs) : tabs.ValidLoc z :=
    validLoc_slot h (by decide) (by decide)
  have hsets₂ := write_sets (hyv hframe₁) (hfits 4 y hframe₁)
  let tabs₂ := tabs₁.write y (.insert [4])
  have hframe₂ : Frame blankTables tabs₂ := hframe₁.trans hsets₂.frame
  have hy₂ : (tabs₂.slot y).val = some [4] := by
    rw [hsets₂.slot y (hyv hframe₁), if_pos rfl]
    rfl
  have hz₂ : (tabs₂.slot z).val = none := by
    rw [hsets₂.slot z (hzv hframe₁), if_neg (by decide)]
    exact hz
  have hsets₃ := write_sets (hzv hframe₂) (hfits 5 z hframe₂)
  let tabs₃ := tabs₂.write z (.insert [5])
  have hframe₃ : Frame blankTables tabs₃ := hframe₂.trans hsets₃.frame
  have hy₃ : (tabs₃.slot y).val = some [4] := by
    rw [hsets₃.slot y (hyv hframe₂), if_neg (by decide)]
    exact hy₂
  let w₂ : LogRecord := ⟨6, 2, 5, .insert "t" ⟨1, 1⟩ [4]⟩
  let w₃ : LogRecord := ⟨9, 3, 8, .insert "t" ⟨1, 2⟩ [5]⟩
  let d₃ : LogRecord := ⟨10, 3, 9, .delete "t" ⟨1, 1⟩ [4]⟩
  let touched₂ := insert y touched
  let touched₃ := insert z touched₂
  have h₁ : step (s 5 5 tabs₁ [] [] [] [] touched) (.begin 2) (s 6 5 tabs₁ [2] [] [] [] touched) :=
    ⟨trivial, .begin rfl⟩
  have h₂ : step (s 6 5 tabs₁ [2] [] [] [] touched) (.write 2 w₂.body)
      (s 7 5 tabs₂ [2] [w₂] [] [] touched₂) :=
    step_write List.mem_cons_self rfl rfl (hyv hframe₁) (hfits 4 y hframe₁)
      (clear_of_opsOn_nil (hleft (.inl rfl)) hy.symm fun t ht hne =>
        absurd (List.mem_singleton.1 ht) hne) rfl
  have h₃ : step (s 7 5 tabs₂ [2] [w₂] [] [] touched₂) (.commit 2)
    (s 8 5 tabs₂ [] [] [] [] touched₂) :=
    ⟨trivial, .commit List.mem_cons_self rfl⟩
  have h₄ : step (s 8 5 tabs₂ [] [] [] [] touched₂) (.flush 8) (s 8 8 tabs₂ [] [] [] [] touched₂) :=
    ⟨trivial, .flush (by change 5 ≤ 8; decide) (by change 8 ≤ (keptLog.take 8).length; decide)⟩
  have h₅ : step (s 8 8 tabs₂ [] [] [] [] touched₂) (.commitReturns 2)
    (s 8 8 tabs₂ [] [] [] [2] touched₂) :=
    ⟨trivial, .commitReturns rfl⟩
  have h₆ : step (s 8 8 tabs₂ [] [] [] [2] touched₂) (.begin 3)
    (s 9 8 tabs₂ [3] [] [] [2] touched₂) :=
    ⟨trivial, .begin rfl⟩
  have h₇ : step (s 9 8 tabs₂ [3] [] [] [2] touched₂) (.write 3 w₃.body)
      (s 10 8 tabs₃ [3] [w₃] [] [2] touched₃) :=
    step_write List.mem_cons_self rfl rfl (hzv hframe₂) (hfits 5 z hframe₂)
      (clear_of_opsOn_nil (hleft (.inr rfl)) hz₂.symm fun t ht hne =>
        absurd (List.mem_singleton.1 ht) hne) rfl
  have h₈ : step (s 10 8 tabs₃ [3] [w₃] [] [2] touched₃) (.refused 3 d₃.body)
      (s 11 8 tabs₃ [3] [w₃] [d₃] [2] (insert y touched₃)) := by
    have hdelete : d₃.body.op? = some (y, .delete [4]) := rfl
    refine ⟨fun x op hop => ?_, .refused List.mem_cons_self rfl hdelete (by simp [SlotOp.before])
      (hyv hframe₃) (fitsLoc_byte hframe₃ y 4) rfl⟩
    cases hop
    exact ⟨clear_of_opsOn_nil (hleft (.inl rfl)) hy₃.symm
      fun t ht hne => absurd (List.mem_singleton.1 ht) hne, fun _ hnil => by cases hnil⟩
  have h₉ : step (s 11 8 tabs₃ [3] [w₃] [d₃] [2] (insert y touched₃)) (.abort 3)
      (s 12 8 (undoLogs [w₃] tabs₃) [] [] [] [2] (insert y touched₃)) :=
    ⟨trivial, .abort List.mem_cons_self⟩
  have hframe₄ : Frame blankTables (undoLogs [w₃] tabs₃) := by
    refine hframe₃.trans (undoLogs_spec fun r hr x op hop => ?_).1
    rw [List.mem_singleton.1 hr] at hop
    cases hop
    exact ⟨hzv hframe₃, hfits 5 z hframe₃⟩
  obtain ⟨tabs₅, hrec₅⟩ : ∃ tabs, recover keptLog blankTables = some tabs :=
    Option.isSome_iff_exists.1 (by decide +kernel)
  have hcrash' : step (s 12 8 (undoLogs [w₃] tabs₃) [] [] [] [2] (insert y touched₃))
      (.crash 12 blankTables) _ :=
    ⟨trivial, .crash (by change 8 ≤ 12; decide) le_rfl hframe₄.symm
      (fun x _ _ => blank_unused x) hrec₅⟩
  exact ⟨_, _, _, _, _, _,
    hrun.append (.cons hcrash <| .cons h₁ <| .cons h₂ <| .cons h₃ <| .cons h₄ <|
      .cons h₅ <| .nil _),
    .cons h₆ <| .cons h₇ <| .cons h₈ <| .cons h₉ <| .nil _, hcrash', List.mem_cons_self, rfl, rfl⟩

/-- A history up to the second crash: the commit of the third transaction has returned. -/
theorem run_overwritten : ∃ ops s, Run Step { tabs := blankTables } ops s ∧
    s.logs = lostLog ∧ s.flushed = 8 ∧ 2 ∈ s.returned ∧ Frame blankTables s.tabs := by
  obtain ⟨ops, tabs, touched, hrun, hframe⟩ := run_unfinished
  let x : Loc := ("t", ⟨1, 0⟩)
  have hinit : Initial { tabs := blankTables } :=
    ⟨rfl, rfl, rfl, rfl, rfl, rfl, rfl, rfl, fun x _ => blank_unused x⟩
  obtain ⟨hinv, -⟩ := hinit.inv.run hrun
  -- none of the pages that were written reaches the disk
  obtain ⟨tabs₁, hrec, hframe₁, -⟩ := recover_committed hinv.linked
    fun r hr => (hinv.fits r hr).frame hframe.symm
  have hval : (tabs₁.slot x).val = some [1] := by
    have h : (recover (lostLog.take 5) blankTables).map (fun tabs => (tabs.slot x).val) =
        some (some [1]) := by decide +kernel
    rw [hrec] at h
    exact Option.some.inj h
  obtain ⟨hfits, hframe₂⟩ := write_first hframe₁ 1 3
  let s₁ : Server :=
    { logs := lostLog.take 5, flushed := 5, tabs := tabs, running := [1],
      writes := [⟨4, 1, 3, .update "t" ⟨1, 0⟩ [1] [2]⟩], touched := touched }
  have hcrash : Step s₁ (.crash 5 blankTables) _ :=
    .crash le_rfl le_rfl hframe.symm (fun x _ _ => blank_unused x) hrec
  generalize _ ∪ unfinishedAt _ _ = leftovers at hcrash
  let s (n : ℕ) (tabs : Tables) (running : List TxnId) (writes : List LogRecord)
    (touched : Set Loc) : Server :=
    { logs := lostLog.take n, flushed := 5, tabs := tabs, running := running, writes := writes,
      touched := touched, leftovers := leftovers }
  have h₁ : Step (s 5 tabs₁ [] [] touched) (.begin 2) (s 6 tabs₁ [2] [] touched) := .begin rfl
  have h₂ : Step (s 6 tabs₁ [2] [] touched) (.write 2 (.update "t" ⟨1, 0⟩ [1] [3]))
      (s 7 (tabs₁.write x (.update [1] [3])) [2] [⟨6, 2, 5, .update "t" ⟨1, 0⟩ [1] [3]⟩]
        (insert x touched)) :=
    .write List.mem_cons_self rfl rfl (validLoc_first hframe₁) hfits (by simp [SlotOp.before])
      fun r hr => by cases hr
  have h₃ : Step (s 7 (tabs₁.write x (.update [1] [3])) [2] [⟨6, 2, 5, .update "t" ⟨1, 0⟩ [1] [3]⟩]
      (insert x touched)) (.commit 2)
        (s 8 (tabs₁.write x (.update [1] [3])) [] [] (insert x touched)) :=
    .commit List.mem_cons_self rfl
  have h₄ : Step (s 8 (tabs₁.write x (.update [1] [3])) [] [] (insert x touched)) (.flush 8) _ :=
    .flush (by change 5 ≤ 8; decide) le_rfl
  have h₅ := Step.commitReturns (t := 2)
    (s := { s 8 (tabs₁.write x (.update [1] [3])) [] [] (insert x touched) with flushed := 8 }) rfl
  have hrun' := (hrun.mono fun _ _ _ h => h.2).append
    (.cons hcrash <| .cons h₁ <| .cons h₂ <| .cons h₃ <| .cons h₄ <| .cons h₅ <| .nil _)
  exact ⟨_, _, hrun', rfl, rfl, List.mem_cons_self, hframe₂⟩

end Server

end Rmdb
