import Rmdb.Recovery.LogSlots

/-!
# The passes of recovery over a well-linked log

In a log that is complete from its start, the LSN of a record is its place, `prev_lsn` leads to the
previous record of the same transaction, and a transaction writes nothing after its COMMIT or ABORT.
Then `analyze` finds the last record of every transaction, and `rollback` undoes the records of
each, from the last to the first.
-/

namespace Rmdb

/-- The records of one transaction. -/
def recordsOf (t : TxnId) (logs : List LogRecord) : List LogRecord :=
  logs.filter fun r => r.logTid = t

/-- The LSN of the last record of a transaction. -/
def lastLsn (logs : List LogRecord) (t : TxnId) : ℤ :=
  ((recordsOf t logs).getLast?.map LogRecord.lsn).getD INVALID_LSN

def committedIn (logs : List LogRecord) (t : TxnId) : Bool :=
  logs.any fun r => r.logTid = t ∧ r.body = .commit

def abortedIn (logs : List LogRecord) (t : TxnId) : Bool :=
  logs.any fun r => r.logTid = t ∧ r.body = .abort

/-- The transaction has a COMMIT or an ABORT record. -/
def endedIn (logs : List LogRecord) (t : TxnId) : Bool := committedIn logs t || abortedIn logs t

/-- Each transaction's records are a BEGIN, then others linked by `prev_lsn`, and nothing after a
COMMIT or ABORT. -/
inductive Linked : List LogRecord → Prop
  | nil : Linked []
  | snoc {logs : List LogRecord} {r : LogRecord} : Linked logs → r.lsn = logs.length →
      r.prevLsn = lastLsn logs r.logTid → (r.body = .begin ↔ recordsOf r.logTid logs = []) →
      endedIn logs r.logTid = false → Linked (logs ++ [r])

section Snoc

variable {logs logs' : List LogRecord} {r : LogRecord} {t : TxnId}

theorem recordsOf_snoc : recordsOf t (logs ++ [r]) =
    recordsOf t logs ++ if r.logTid = t then [r] else [] := by
  rw [recordsOf, List.filter_append, ← recordsOf]
  by_cases h : r.logTid = t <;> simp [h]

theorem lastLsn_snoc :
    lastLsn (logs ++ [r]) t = if r.logTid = t then r.lsn else lastLsn logs t := by
  rw [lastLsn, recordsOf_snoc]
  by_cases h : r.logTid = t <;> simp [h, lastLsn]

theorem committedIn_snoc : committedIn (logs ++ [r]) t =
    (committedIn logs t || decide (r.logTid = t ∧ r.body = .commit)) := by
  simp [committedIn]

theorem abortedIn_snoc : abortedIn (logs ++ [r]) t =
    (abortedIn logs t || decide (r.logTid = t ∧ r.body = .abort)) := by
  simp [abortedIn]

theorem committedIn_snoc_of_ne (h : r.logTid ≠ t) :
    committedIn (logs ++ [r]) t = committedIn logs t := by
  simp [committedIn_snoc, h]

theorem endedIn_snoc_of_ne (h : r.logTid ≠ t) : endedIn (logs ++ [r]) t = endedIn logs t := by
  simp [endedIn, committedIn_snoc, abortedIn_snoc, h]

theorem endedIn_snoc_of_body (hc : r.body ≠ .commit) (ha : r.body ≠ .abort) :
    endedIn (logs ++ [r]) t = endedIn logs t := by
  simp [endedIn, committedIn_snoc, abortedIn_snoc, hc, ha]

theorem endedIn_mono (h : endedIn logs t) : endedIn (logs ++ logs') t := by
  simp only [endedIn, committedIn, abortedIn, List.any_append, Bool.or_eq_true] at h ⊢
  tauto

theorem lastLog_snoc_of_lt {now : ℤ} (h : now < logs.length) :
    lastLog (logs ++ [r]) now = lastLog logs now := by
  unfold lastLog
  by_cases h0 : 0 ≤ now
  · have hlt : now < (logs ++ [r]).length := by
      rw [List.length_append]
      omega
    rw [if_pos ⟨h0, hlt⟩, if_pos ⟨h0, h⟩, List.getElem?_append_left (by omega)]
  · rw [if_neg (fun hn => h0 hn.1), if_neg (fun hn => h0 hn.1)]

theorem lastLog_snoc_self : lastLog (logs ++ [r]) logs.length = some r := by
  have hlt : (logs.length : ℤ) < (logs ++ [r]).length := by
    rw [List.length_append, List.length_singleton]
    omega
  rw [lastLog, if_pos ⟨Int.natCast_nonneg _, hlt⟩]
  simp

end Snoc

/-- What the inner loop of `rollback` does in one round. -/
theorem rollbackFrom_succ (logs : List LogRecord) (redoPhase : Bool) (fuel : ℕ) (now : ℤ)
    (tabs : Tables) : rollbackFrom logs redoPhase (fuel + 1) now tabs =
      if now = INVALID_LSN then tabs
      else match lastLog logs now with
        | none => tabs
        | some log =>
          if redoPhase = false ∧ (log.body = .commit ∨ log.body = .abort) then tabs
          else rollbackFrom logs redoPhase fuel log.prevLsn (undoLog tabs log) := by
  rw [rollbackFrom]
  split
  · rfl
  · cases lastLog logs now with
    | none => rfl
    | some log =>
      cases hb : log.body <;> cases redoPhase <;> simp [hb, undoLog]

namespace Linked

variable {logs : List LogRecord} {t : TxnId}

theorem of_snoc {r : LogRecord} (h : Linked (logs ++ [r])) : Linked logs ∧ r.lsn = logs.length ∧
    r.prevLsn = lastLsn logs r.logTid ∧ (r.body = .begin ↔ recordsOf r.logTid logs = []) ∧
    endedIn logs r.logTid = false := by
  generalize hall : logs ++ [r] = all at h
  cases h with
  | nil => simp at hall
  | snoc h' hlsn hprev hbegin hended =>
    obtain ⟨rfl, hr⟩ := List.append_inj' hall rfl
    cases hr
    exact ⟨h', hlsn, hprev, hbegin, hended⟩

theorem take (h : Linked logs) (n : ℕ) : Linked (logs.take n) := by
  induction h with
  | nil =>
    rw [List.take_nil]
    exact .nil
  | @snoc logs r hl hlsn hprev hbegin hended ih =>
    by_cases hn : n ≤ logs.length
    · rw [List.take_append_of_le_length hn]
      exact ih
    · rw [List.take_of_length_le (by rw [List.length_append, List.length_singleton]; omega)]
      exact .snoc hl hlsn hprev hbegin hended

theorem lastLsn_eq_invalid (h : recordsOf t logs = []) : lastLsn logs t = INVALID_LSN := by
  simp [lastLsn, h]

theorem lastLsn_lt (h : Linked logs) (t : TxnId) : lastLsn logs t < logs.length := by
  induction h with
  | nil =>
    rw [lastLsn_eq_invalid rfl]
    decide
  | snoc _ hlsn _ _ _ ih =>
    rw [lastLsn_snoc, List.length_append, List.length_singleton]
    split <;> omega

/-- Links lead backwards. -/
theorem prevLsn_lt (h : Linked logs) {now : ℤ} {log : LogRecord}
    (hlog : lastLog logs now = some log) : log.prevLsn < now := by
  induction h with
  | nil => simp [lastLog] at hlog
  | @snoc logs r hl hlsn hprev _ _ ih =>
    by_cases hnow : now < logs.length
    · rw [lastLog_snoc_of_lt hnow] at hlog
      exact ih hlog
    · have heq : now = logs.length := by
        unfold lastLog at hlog
        split at hlog
        · rename_i hin
          rw [List.length_append, List.length_singleton] at hin
          omega
        · cases hlog
      rw [heq, lastLog_snoc_self] at hlog
      cases hlog
      rw [hprev, heq]
      exact hl.lastLsn_lt _

theorem rollbackFrom_snoc (h : Linked logs) (r : LogRecord) (redoPhase : Bool) (fuel : ℕ) {now : ℤ}
    (hnow : now < logs.length) (tabs : Tables) :
    rollbackFrom (logs ++ [r]) redoPhase fuel now tabs =
    rollbackFrom logs redoPhase fuel now tabs := by
  induction fuel generalizing now tabs with
  | zero => rfl
  | succ fuel ih =>
    rw [rollbackFrom_succ, rollbackFrom_succ, lastLog_snoc_of_lt hnow]
    cases hlog : lastLog logs now with
    | none => rfl
    | some log =>
      have hprev : log.prevLsn < logs.length := (h.prevLsn_lt hlog).trans hnow
      simp only [ih hprev]

/-- From the last record of a transaction `rollback` undoes all of them, unless it stops at a COMMIT
or ABORT at once. -/
theorem rollbackFrom_eq (h : Linked logs) (redoPhase : Bool) (t : TxnId) {fuel : ℕ}
    (hfuel : (recordsOf t logs).length < fuel) (tabs : Tables) :
    rollbackFrom logs redoPhase fuel (lastLsn logs t) tabs =
      if redoPhase = false ∧ endedIn logs t then tabs else undoLogs (recordsOf t logs) tabs := by
  induction h generalizing fuel tabs with
  | nil =>
    obtain ⟨fuel, rfl⟩ : ∃ k, fuel = k + 1 := ⟨fuel - 1, by omega⟩
    rw [rollbackFrom_succ, if_pos (lastLsn_eq_invalid rfl)]
    simp [recordsOf, undoLogs]
  | @snoc logs r hl hlsn hprev _ hended ih =>
    by_cases ht : r.logTid = t
    · subst ht
      rw [recordsOf_snoc, if_pos rfl, List.length_append, List.length_singleton] at hfuel
      obtain ⟨fuel, rfl⟩ : ∃ k, fuel = k + 1 := ⟨fuel - 1, by omega⟩
      have hne : (logs.length : ℤ) ≠ INVALID_LSN := by
        rw [INVALID_LSN]
        omega
      rw [lastLsn_snoc, if_pos rfl, hlsn, rollbackFrom_succ, if_neg hne, lastLog_snoc_self,
        recordsOf_snoc, if_pos rfl]
      by_cases hstop : redoPhase = false ∧ (r.body = .commit ∨ r.body = .abort)
      · have hend : endedIn (logs ++ [r]) r.logTid := by
          rcases hstop.2 with hb | hb <;> simp [endedIn, committedIn_snoc, abortedIn_snoc, hb]
        rw [if_pos ⟨hstop.1, hend⟩]
        simp only [if_pos hstop]
      · have hend : ¬ (redoPhase = false ∧ endedIn (logs ++ [r]) r.logTid) := by
          rintro ⟨hphase, hend⟩
          have hbody := not_or.1 fun hb => hstop ⟨hphase, hb⟩
          rw [endedIn_snoc_of_body hbody.1 hbody.2, hended] at hend
          cases hend
        simp only [if_neg hstop]
        rw [if_neg hend, hprev, hl.rollbackFrom_snoc r redoPhase fuel (hl.lastLsn_lt _),
          ih (by omega), hended]
        simp [undoLogs]
    · have hlast : lastLsn (logs ++ [r]) t = lastLsn logs t := by rw [lastLsn_snoc, if_neg ht]
      rw [recordsOf_snoc, if_neg ht, List.append_nil] at hfuel ⊢
      rw [hlast, hl.rollbackFrom_snoc r redoPhase fuel (hl.lastLsn_lt t), ih hfuel,
        endedIn_snoc_of_ne ht]

/-- `logs_[att_[t]]` is the last record of `t`. -/
theorem lastLog_lastLsn (h : Linked logs) (t : TxnId) :
    lastLog logs (lastLsn logs t) = (recordsOf t logs).getLast? := by
  induction h with
  | nil => rfl
  | @snoc logs r hl hlsn _ _ _ ih =>
    rw [lastLsn_snoc, recordsOf_snoc]
    by_cases ht : r.logTid = t
    · rw [if_pos ht, if_pos ht, hlsn, lastLog_snoc_self, List.getLast?_concat]
    · rw [if_neg ht, if_neg ht, lastLog_snoc_of_lt (hl.lastLsn_lt t), ih, List.append_nil]

theorem getLast_commit (h : Linked logs) (t : TxnId) :
    (recordsOf t logs).getLast?.any (·.body = .commit) = committedIn logs t := by
  induction h with
  | nil => rfl
  | @snoc logs r hl _ _ _ hended ih =>
    rw [recordsOf_snoc, committedIn_snoc]
    by_cases ht : r.logTid = t
    · subst ht
      have hnot : committedIn logs r.logTid = false := (Bool.or_eq_false_iff.1 hended).1
      simp [hnot]
    · simp [ht, ih]

theorem getLast_abort (h : Linked logs) (t : TxnId) :
    (recordsOf t logs).getLast?.any (·.body = .abort) = abortedIn logs t := by
  induction h with
  | nil => rfl
  | @snoc logs r hl _ _ _ hended ih =>
    rw [recordsOf_snoc, abortedIn_snoc]
    by_cases ht : r.logTid = t
    · subst ht
      have hnot : abortedIn logs r.logTid = false := (Bool.or_eq_false_iff.1 hended).2
      simp [hnot]
    · simp [ht, ih]

end Linked

/-! ## `analyze` -/

section Att

variable {att : List (TxnId × ℤ)} {e : TxnId × ℤ} {t : TxnId} {l : ℤ}

theorem mem_attSet (h : att.Pairwise fun a b => a.1 < b.1) :
    e ∈ attSet t l att ↔ e = (t, l) ∨ e.1 ≠ t ∧ e ∈ att := by
  induction att with
  | nil => simp [attSet]
  | cons a att ih =>
    obtain ⟨ha, hatt⟩ := List.pairwise_cons.1 h
    have hne {b : TxnId × ℤ} (hb : b ∈ att) : a.1 ≠ b.1 := (ha b hb).ne
    simp only [attSet]
    split
    · rename_i hlt
      have hall : ∀ b ∈ a :: att, b.1 ≠ t := by
        intro b hb
        rcases List.mem_cons.1 hb with rfl | hb
        · exact hlt.ne'
        · exact (hlt.trans (ha b hb)).ne'
      rw [List.mem_cons]
      exact or_congr_right ⟨fun he => ⟨hall e he, he⟩, fun he => he.2⟩
    · split
      · rename_i heq
        rw [List.mem_cons, List.mem_cons]
        refine or_congr_right ⟨fun he => ⟨heq ▸ (hne he).symm, .inr he⟩, ?_⟩
        rintro ⟨hne', rfl | he⟩
        · exact absurd heq.symm hne'
        · exact he
      · rename_i hlt heq
        rw [List.mem_cons, List.mem_cons, ih hatt]
        constructor
        · rintro (rfl | rfl | ⟨he, hmem⟩)
          · exact .inr ⟨Ne.symm heq, .inl rfl⟩
          · exact .inl rfl
          · exact .inr ⟨he, .inr hmem⟩
        · rintro (rfl | ⟨he, rfl | hmem⟩)
          · exact .inr (.inl rfl)
          · exact .inl rfl
          · exact .inr (.inr ⟨he, hmem⟩)

theorem pairwise_attSet (h : att.Pairwise fun a b => a.1 < b.1) :
    (attSet t l att).Pairwise fun a b => a.1 < b.1 := by
  induction att with
  | nil => exact List.pairwise_singleton _ _
  | cons a att ih =>
    obtain ⟨ha, hatt⟩ := List.pairwise_cons.1 h
    simp only [attSet]
    split
    · rename_i hlt
      refine List.pairwise_cons.2 ⟨fun b hb => ?_, h⟩
      rcases List.mem_cons.1 hb with rfl | hb
      · exact hlt
      · exact hlt.trans (ha b hb)
    · split
      · rename_i heq
        exact List.pairwise_cons.2 ⟨fun b hb => heq ▸ ha b hb, hatt⟩
      · rename_i hlt heq
        refine List.pairwise_cons.2 ⟨fun b hb => ?_, ih hatt⟩
        rcases (mem_attSet hatt).1 hb with rfl | ⟨-, hb⟩
        · exact lt_of_le_of_ne (not_lt.1 hlt) (Ne.symm heq)
        · exact ha b hb

end Att

namespace Linked

variable {logs : List LogRecord} {t : TxnId}

/-- `att_` holds the last LSN of every transaction of the log. -/
theorem foldlM_attStep (h : Linked logs) : ∃ att, logs.foldlM attStep [] = some att ∧
    att.Pairwise (fun a b => a.1 < b.1) ∧
    ∀ e, e ∈ att ↔ recordsOf e.1 logs ≠ [] ∧ e.2 = lastLsn logs e.1 := by
  induction h with
  | nil => exact ⟨[], rfl, List.Pairwise.nil, fun e => by simp [recordsOf]⟩
  | @snoc logs r hl hlsn _ hbegin _ ih =>
    obtain ⟨att, hatt, hsorted, hmem⟩ := ih
    have hstep : attStep att r = some (attSet r.logTid r.lsn att) := by
      refine if_pos ?_
      by_cases hb : recordsOf r.logTid logs = []
      · exact .inl (hbegin.2 hb)
      · exact .inr (List.mem_map.2 ⟨(r.logTid, lastLsn logs r.logTid), (hmem _).2 ⟨hb, rfl⟩, rfl⟩)
    refine ⟨attSet r.logTid r.lsn att, ?_, pairwise_attSet hsorted, fun e => ?_⟩
    · simp [List.foldlM_append, hatt, hstep]
    · rw [mem_attSet hsorted, hmem, recordsOf_snoc, lastLsn_snoc]
      by_cases he : r.logTid = e.1
      · simp [he, Prod.ext_iff]
      · simp [he, Ne.symm he, Prod.ext_iff]

/-- What `analyze` finds. -/
theorem analyze (h : Linked logs) : ∃ a, Rmdb.analyze logs = some a ∧ a.logs = logs ∧
    (∀ e, e ∈ a.att ↔ recordsOf e.1 logs ≠ [] ∧ e.2 = lastLsn logs e.1) ∧
    (∀ t, t ∈ a.committedTxns ↔ committedIn logs t) ∧ (∀ t, t ∈ a.abortedTxns ↔ abortedIn logs t) ∧
    a.att.Pairwise fun e e' => e.1 < e'.1 := by
  obtain ⟨att, hatt, hsorted, hmem⟩ := h.foldlM_attStep
  have hlast {p : LogRecord → Bool} (t : TxnId) :
      t ∈ (att.filter fun e => (lastLog logs e.2).any p).map Prod.fst ↔
        (recordsOf t logs).getLast?.any p := by
    simp only [List.mem_map, List.mem_filter, hmem]
    constructor
    · rintro ⟨e, ⟨⟨-, hl⟩, hp⟩, rfl⟩
      rwa [hl, h.lastLog_lastLsn] at hp
    · intro hp
      refine ⟨(t, lastLsn logs t), ⟨⟨?_, rfl⟩, ?_⟩, rfl⟩
      · intro hnil
        rw [hnil] at hp
        cases hp
      · rwa [h.lastLog_lastLsn]
  refine ⟨_, by simp only [Rmdb.analyze, hatt]; rfl, rfl, hmem, fun t => ?_, fun t => ?_,
    hsorted⟩
  · rw [hlast, h.getLast_commit]
  · rw [hlast, h.getLast_abort]

end Linked

/-! ## The three passes -/

/-- The operations of a log on the slot `x`, each with its transaction. -/
def opsOn (x : Loc) (logs : List LogRecord) : List (TxnId × SlotOp Bytes) :=
  logs.filterMap fun r => (r.opAt x).map fun op => (r.logTid, op)

theorem opsOn_append (x : Loc) (logs logs' : List LogRecord) :
    opsOn x (logs ++ logs') = opsOn x logs ++ opsOn x logs' := by
  rw [opsOn, List.filterMap_append, opsOn, opsOn]

theorem opsBy_opsOn (t : TxnId) (x : Loc) (logs : List LogRecord) :
    opsBy t (opsOn x logs) = (recordsOf t logs).filterMap (·.opAt x) := by
  induction logs with
  | nil => rfl
  | cons r logs ih =>
    have hsplit : opsOn x (r :: logs) = opsOn x [r] ++ opsOn x logs := opsOn_append x [r] logs
    rw [hsplit, opsBy_append, ih]
    by_cases ht : r.logTid = t
    · cases hop : r.opAt x <;> simp [opsOn, opsBy, recordsOf, hop, ht]
    · cases hop : r.opAt x <;> simp [opsOn, opsBy, recordsOf, hop, ht]

section Passes

open Tables

variable {logs : List LogRecord} {tabs : Tables}

/-- A pass of `rollback` over some transactions, seen from any slot. -/
theorem rollback_spec (h : Linked logs) (redoPhase : Bool) (hfits : ∀ r ∈ logs, r.Fits tabs)
    {att : List (TxnId × ℤ)} (hatt : ∀ e ∈ att, e.2 = lastLsn logs e.1) :
    Frame tabs
    (att.foldl (fun tabs e => rollbackFrom logs redoPhase (logs.length + 1) e.2 tabs) tabs) ∧
      ∀ y, tabs.ValidLoc y →
        (att.foldl (fun tabs e => rollbackFrom logs redoPhase (logs.length + 1) e.2 tabs) tabs).slot
        y = undoTxns (opsOn y logs)
            ((att.map Prod.fst).filter fun t => ¬ (redoPhase = false ∧ endedIn logs t))
            (tabs.slot y) := by
  induction att generalizing tabs with
  | nil => exact ⟨Frame.refl tabs, fun _ _ => rfl⟩
  | cons e att ih =>
    have hlen : (recordsOf e.1 logs).length < logs.length + 1 :=
      Nat.lt_succ_of_le (List.length_filter_le _ _)
    have hfrom := h.rollbackFrom_eq redoPhase e.1 hlen tabs
    rw [← hatt e List.mem_cons_self] at hfrom
    rw [List.foldl_cons, hfrom]
    have hatt' : ∀ e' ∈ att, e'.2 = lastLsn logs e'.1 := fun e' he' =>
      hatt e' (List.mem_cons_of_mem _ he')
    split
    · rename_i hskip
      obtain ⟨hframe, hslot⟩ := ih hfits hatt'
      refine ⟨hframe, fun y hy => ?_⟩
      rw [hslot y hy]
      simp [hskip]
    · rename_i hskip
      have hrec : ∀ r ∈ recordsOf e.1 logs, r.Fits tabs :=
        fun r hr => hfits r (List.mem_of_mem_filter hr)
      obtain ⟨hframe, hslot⟩ := undoLogs_spec hrec
      obtain ⟨hframe', hslot'⟩ := ih (fun r hr => (hfits r hr).frame hframe) hatt'
      refine ⟨hframe.trans hframe', fun y hy => ?_⟩
      rw [hslot' y ((hframe.valid y).2 hy), hslot y hy, ← opsBy_opsOn, List.map_cons,
        List.filter_cons, if_pos (decide_eq_true hskip)]
      rfl

/-- The loop of `redo`, seen from any slot. -/
theorem redoLogs_spec {a : Analysis} {committed : TxnId → Bool}
    (hcommitted : ∀ t, committed t ↔ t ∉ a.abortedTxns ∧ t ∈ a.committedTxns)
    (hfits : ∀ r ∈ logs, r.Fits tabs) : ∃ tabs', logs.foldlM (redoLog a) tabs = .ok tabs' ∧
      Frame tabs tabs' ∧ ∀ y, tabs.ValidLoc y →
        tabs'.slot y = (tabs.slot y).redoAll (committedOps committed (opsOn y logs)) := by
  induction logs generalizing tabs with
  | nil => exact ⟨tabs, rfl, Frame.refl tabs, fun _ _ => rfl⟩
  | cons r logs ih =>
    obtain ⟨tabs₁, hredo, hframe, hslot⟩ := redoLog_spec (hfits r List.mem_cons_self)
    obtain ⟨tabs₂, hredo', hframe', hslot'⟩ := ih fun r' hr' =>
      (hfits r' (List.mem_cons_of_mem _ hr')).frame hframe
    refine ⟨tabs₂, ?_, hframe.trans hframe', fun y hy => ?_⟩
    · rw [List.foldlM_cons, hredo]
      exact hredo'
    · have hsplit : opsOn y (r :: logs) = opsOn y [r] ++ opsOn y logs := opsOn_append y [r] logs
      rw [hslot' y ((hframe.valid y).2 hy), hslot y hy, hsplit, committedOps_append, Slot.redoAll,
        Slot.redoAll, Slot.redoAll, List.foldl_append]
      congr 2
      by_cases hc : committed r.logTid
      · have hc' := (hcommitted _).1 hc
        cases hop : r.opAt y <;> simp [opsOn, committedOps, hop, hc, hc'.1, hc'.2]
      · have hc' : r.logTid ∈ a.abortedTxns ∨ r.logTid ∉ a.committedTxns := by
          by_contra hn
          push Not at hn
          exact hc ((hcommitted _).2 hn)
        rw [if_pos hc']
        cases hop : r.opAt y <;> simp [opsOn, committedOps, hop, hc]

/-- Recovery, seen from any slot: all transactions are undone, the committed operations are redone,
and the transactions without an end are undone again. -/
theorem recover_spec (h : Linked logs) (hfits : ∀ r ∈ logs, r.Fits tabs) :
    ∃ tabs' ts, recover logs tabs = some tabs' ∧ Frame tabs tabs' ∧
      (∀ t, t ∈ ts ↔ recordsOf t logs ≠ []) ∧
      ∀ y, tabs.ValidLoc y → tabs'.slot y =
        undoTxns (opsOn y logs) (ts.filter fun t => ¬ endedIn logs t)
          ((undoTxns (opsOn y logs) ts (tabs.slot y)).redoAll
            (committedOps (fun t => committedIn logs t && !abortedIn logs t) (opsOn y logs))) := by
  obtain ⟨a, ha, rfl, hatt, hcommitted, haborted, -⟩ := h.analyze
  have hlast : ∀ e ∈ a.att.reverse, e.2 = lastLsn a.logs e.1 := fun e he =>
    ((hatt e).1 (List.mem_reverse.1 he)).2
  obtain ⟨hframe₁, hslot₁⟩ := rollback_spec h true hfits hlast
  have hredone (t : TxnId) : (committedIn a.logs t && !abortedIn a.logs t) ↔
      t ∉ a.abortedTxns ∧ t ∈ a.committedTxns := by
    simp [hcommitted, haborted, and_comm]
  obtain ⟨tabs₂, hredo, hframe₂, hslot₂⟩ := redoLogs_spec hredone fun r hr =>
    (hfits r hr).frame hframe₁
  obtain ⟨hframe₃, hslot₃⟩ := rollback_spec h false
    (fun r hr => (hfits r hr).frame (hframe₁.trans hframe₂)) hlast
  refine ⟨_, a.att.reverse.map Prod.fst, ?_, (hframe₁.trans hframe₂).trans hframe₃, fun t => ?_,
    fun y hy => ?_⟩
  · have hredo' : redo a tabs = .ok tabs₂ := hredo
    simp only [recover, ha, Option.bind_eq_bind, Option.bind_some, hredo']
    rfl
  · rw [List.map_reverse, List.mem_reverse, List.mem_map]
    constructor
    · rintro ⟨e, he, rfl⟩
      exact ((hatt e).1 he).1
    · intro ht
      exact ⟨(t, lastLsn a.logs t), (hatt _).2 ⟨ht, rfl⟩, rfl⟩
  · rw [hslot₃ y (((hframe₁.trans hframe₂).valid y).2 hy), hslot₂ y ((hframe₁.valid y).2 hy),
      hslot₁ y hy]
    simp

end Passes

end Rmdb
