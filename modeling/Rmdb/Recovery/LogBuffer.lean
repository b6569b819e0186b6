import Rmdb.Lib.Run
import Rmdb.Recovery.LogManager

/-!
# Several clients at the log buffer

`add_log_to_buffer` drops its latch to flush a full buffer, and appends without another look at the
buffer when it has the latch again.  Each section under the latch is one step here.  The buffer
holds what it has room for as long as no client fills it between the flush and the append of another
one. Otherwise `offset_` leaves the bound, or the `memcpy` leaves `buffer_` and writes over
`offset_` itself, which is the next field: nothing is said of what happens then.
-/

namespace Rmdb

/-- A call of `add_log_to_buffer`. -/
structure AppendCall where
  logTid : TxnId
  prevLsn : ℤ
  body : LogBody

/-- The end of `add_log_to_buffer`: the record gets the next LSN and goes to the buffer. -/
def LogManager.append (m : LogManager) (r : AppendCall) : LogManager :=
  { m with
    buffer := m.buffer ++ [⟨m.globalLsn, r.logTid, r.prevLsn, r.body⟩]
    globalLsn := m.globalLsn + 1 }

/-- Where a client is: outside, between the check and the flush, or between the flush and the
append. -/
inductive Appender
  | idle
  | unlocked (r : AppendCall)
  | flushed (r : AppendCall)

/-- The log manager and its clients.  `overrun` says that a `memcpy` has written behind the
`LOG_BUFFER_SIZE + 1` bytes of `buffer_`. -/
structure LogClients (C : Type) where
  log : LogManager
  client : C → Appender
  overrun : Bool := false

/-- The sections of `add_log_to_buffer` under the latch: from the call to the append or the release
of the latch, the flush, and from the second locking on. -/
inductive LogSection (C : Type)
  | check (c : C) (r : AppendCall)
  | flush (c : C)
  | relock (c : C)

namespace LogClients

variable {C : Type}

/-- After opening the log. -/
def start (disk : List LogRecord) : LogClients C :=
  { log := .reopen disk, client := fun _ => .idle }

variable [DecidableEq C]

/-- One section; after an overrun the program has no defined behaviour. -/
def next (s : LogClients C) (a : LogSection C) : Option (LogClients C) :=
  if s.overrun then none
  else
    match a with
    | .check c r =>
      match s.client c with
      | .idle =>
        if s.log.isFull r.body.totLen then
          some { s with client := Function.update s.client c (.unlocked r) }
        else some { s with log := s.log.append r }
      | _ => none
    | .flush c =>
      match s.client c with
      | .unlocked r => some { s with
          log := s.log.flushLogToDisk, client := Function.update s.client c (.flushed r) }
      | _ => none
    | .relock c =>
      match s.client c with
      | .flushed r =>
        if s.log.offset + r.body.totLen ≤ LOG_BUFFER_SIZE + 1 then
          some { s with log := s.log.append r, client := Function.update s.client c .idle }
        else some { s with overrun := true }
      | _ => none

/-- No record is longer than the buffer. -/
def Fits : LogSection C → Prop
  | .check _ r => r.body.totLen ≤ LOG_BUFFER_SIZE
  | _ => True

def Step (s : LogClients C) (a : LogSection C) (s' : LogClients C) : Prop :=
  Fits a ∧ s.next a = some s'

/-- The buffer holds no more bytes than it has. -/
def WithinBuffer (s : LogClients C) : Prop := s.overrun = false ∧ s.log.offset ≤ LOG_BUFFER_SIZE

/-- A client that has flushed the buffer still finds room in it. -/
def StillRoom (s : LogClients C) : LogSection C → Prop
  | .relock c => ∀ r, s.client c = .flushed r → s.log.isFull r.body.totLen = false
  | _ => True

omit [DecidableEq C] in
/-- A client that is not disturbed does what `add_log_to_buffer` does as a whole. -/
theorem addLogToBuffer_eq_append (m : LogManager) (r : AppendCall) :
    (m.addLogToBuffer r.logTid r.prevLsn r.body).1 =
      (if m.isFull r.body.totLen then m.flushLogToDisk else m).append r := rfl

theorem offset_append (m : LogManager) (r : AppendCall) :
    (m.append r).offset = m.offset + r.body.totLen := by
  simp [LogManager.append, LogManager.offset]

theorem isFull_eq_false_iff (m : LogManager) (n : ℕ) :
    m.isFull n = false ↔ m.offset + n ≤ LOG_BUFFER_SIZE := by
  rw [LogManager.isFull, decide_eq_false_iff_not, Nat.not_lt]

variable {s s' s₁ s₂ : LogClients C} {a : LogSection C}

theorem Step.unique (h₁ : Step s a s₁) (h₂ : Step s a s₂) : s₁ = s₂ :=
  Option.some.inj (h₁.2.symm.trans h₂.2)

/-- Only the append after a flush can leave the buffer. -/
theorem Step.withinBuffer_iff (h : Step s a s') (hs : s.WithinBuffer) :
    s'.WithinBuffer ↔ s.StillRoom a := by
  obtain ⟨-, h⟩ := h
  obtain ⟨hover, hs⟩ := hs
  unfold next at h
  rw [if_neg (by simp [hover])] at h
  cases a with
  | check c r =>
    refine iff_of_true ?_ trivial
    simp only at h
    split at h
    · split at h
      · cases h
        exact ⟨hover, hs⟩
      · rename_i hfull
        cases h
        refine ⟨hover, ?_⟩
        rw [offset_append]
        exact (isFull_eq_false_iff _ _).1 ((Bool.not_eq_true _).mp hfull)
    · cases h
  | flush c =>
    refine iff_of_true ?_ trivial
    simp only at h
    split at h
    · cases h
      exact ⟨hover, Nat.zero_le _⟩
    · cases h
  | relock c =>
    simp only at h
    split at h
    · rename_i r hr
      have hroom : s.StillRoom (.relock c) ↔ s.log.offset + r.body.totLen ≤ LOG_BUFFER_SIZE := by
        rw [← isFull_eq_false_iff]
        refine ⟨fun hroom => hroom r hr, fun hroom r' hr' => ?_⟩
        rw [hr] at hr'
        cases hr'
        exact hroom
      rw [hroom]
      split at h
      · cases h
        rw [WithinBuffer, offset_append]
        exact and_iff_right hover
      · rename_i hout
        cases h
        refine iff_of_false (fun hw => ?_) (by omega)
        cases hw.1
    · cases h

/-- In every run, no append leaves the buffer and the offset never exceeds its size iff every client
that has flushed the buffer still finds room for its record when it has the latch again. -/
theorem log_buffer_bounded_iff (disk : List LogRecord) (as : List (LogSection C)) (s : LogClients C)
    (hrun : Run Step (start disk) as s) :
    (∀ as₁ as₂ s₁, as = as₁ ++ as₂ → Run Step (start disk) as₁ s₁ →
        s₁.overrun = false ∧ s₁.log.offset ≤ LOG_BUFFER_SIZE) ↔
      Run (Meeting StillRoom Step) (start disk) as s := by
  refine Run.meeting_iff (I := fun _ => True) (P := WithinBuffer) (fun _ _ _ _ => Step.unique)
    (fun _ _ _ _ _ => trivial) (fun _ _ _ h _ => h.withinBuffer_iff) trivial ?_ hrun
  exact ⟨rfl, Nat.zero_le _⟩

/-! ## A buffer that fills up behind a client's back -/

/-- A BEGIN record, of 20 bytes. -/
def beginCall : AppendCall := ⟨0, -1, .begin⟩

theorem beginCall_fits : beginCall.body.totLen ≤ LOG_BUFFER_SIZE := by decide

theorem run_check_begin {c : C} (hc : s.client c = .idle) (hs : s.overrun = false) (n : ℕ)
    (hn : s.log.offset + n * 20 ≤ LOG_BUFFER_SIZE) :
    ∃ s', Run Step s (List.replicate n (.check c beginCall)) s' ∧ s'.client = s.client ∧
      s'.overrun = false ∧ s'.log.offset = s.log.offset + n * 20 := by
  induction n generalizing s with
  | zero => exact ⟨s, .nil s, rfl, hs, rfl⟩
  | succ n ih =>
    have hroom : s.log.isFull beginCall.body.totLen = false := by
      rw [isFull_eq_false_iff]
      show s.log.offset + 20 ≤ LOG_BUFFER_SIZE
      omega
    have hoffset : (s.log.append beginCall).offset = s.log.offset + 20 := offset_append _ _
    have hstep : Step s (.check c beginCall) { s with log := s.log.append beginCall } := by
      refine ⟨beginCall_fits, ?_⟩
      simp [next, hs, hc, hroom]
    obtain ⟨s', hrun, hclient, hs', hoffset'⟩ :=
      ih (s := { s with log := s.log.append beginCall }) hc hs (by simp only [hoffset]; omega)
    refine ⟨s', .cons hstep hrun, hclient, hs', ?_⟩
    rw [hoffset', hoffset]
    omega

/-- One client fills the buffer with BEGIN records, and the other one, which then calls with the
record `r`, flushes it. -/
theorem run_flushed (r : AppendCall) (hr : r.body.totLen ≤ LOG_BUFFER_SIZE)
    (hlen : 5 ≤ r.body.totLen) : ∃ s : LogClients Bool, Run Step (start [])
        (List.replicate 209715 (.check true beginCall) ++ [.check false r] ++ [.flush false]) s ∧
      s.client true = .idle ∧ s.client false = .flushed r ∧ s.overrun = false ∧
      s.log.offset = 0 := by
  have hsize : LOG_BUFFER_SIZE = 4194304 := rfl
  have hstart : (start [] : LogClients Bool).log.offset = 0 := rfl
  obtain ⟨s₁, hrun₁, hclient₁, hs₁, hoffset₁⟩ :=
    run_check_begin (s := start []) (c := true) rfl rfl 209715 (by rw [hstart, hsize]; omega)
  have hfull : s₁.log.isFull r.body.totLen = true := by
    have hlt : LOG_BUFFER_SIZE < s₁.log.offset + r.body.totLen := by omega
    exact decide_eq_true hlt
  have hidle : s₁.client false = .idle := congrFun hclient₁ false
  let s₂ : LogClients Bool := { s₁ with client := Function.update s₁.client false (.unlocked r) }
  let s₃ : LogClients Bool :=
    { s₂ with log := s₂.log.flushLogToDisk, client := Function.update s₂.client false (.flushed r) }
  have hcheck : Step s₁ (.check false r) s₂ := by
    refine ⟨hr, ?_⟩
    simp [next, hs₁, hidle, hfull, s₂]
  have hflush : Step s₂ (.flush false) s₃ := by
    refine ⟨trivial, ?_⟩
    simp [next, hs₁, s₂, s₃]
  refine ⟨s₃, (hrun₁.snoc hcheck).snoc hflush, congrFun hclient₁ true, ?_, hs₁, rfl⟩
  simp [s₃]

/-- One client flushes the buffer that the other one has filled, and still finds room behind the
record that the other one appends meanwhile. -/
theorem log_buffer_bounded_relock : ∃ as, ∃ s : LogClients Bool, Run Step (start []) as s ∧
    LogSection.flush false ∈ as ∧ LogSection.relock false ∈ as ∧
    ∀ as₁ as₂ (s₁ : LogClients Bool), as = as₁ ++ as₂ → Run Step (start []) as₁ s₁ →
      s₁.overrun = false ∧ s₁.log.offset ≤ LOG_BUFFER_SIZE := by
  have hsize : LOG_BUFFER_SIZE = 4194304 := rfl
  obtain ⟨s₁, hrun₁, hidle, hflushed, hs₁, hoffset₁⟩ :=
    run_flushed beginCall beginCall_fits (by decide)
  obtain ⟨s₂, hrun₂, hclient₂, hs₂, hoffset₂⟩ := run_check_begin hidle hs₁ 1 (by omega)
  rw [hoffset₁] at hoffset₂
  have hflushed₂ : s₂.client false = .flushed beginCall := hclient₂ ▸ hflushed
  have hrelock : Step s₂ (.relock false) { s₂ with
      log := s₂.log.append beginCall, client := Function.update s₂.client false .idle } := by
    refine ⟨trivial, ?_⟩
    have hroom : s₂.log.offset + beginCall.body.totLen ≤ LOG_BUFFER_SIZE + 1 := by
      rw [hoffset₂]
      decide
    simp [next, hs₂, hflushed₂, hroom]
  have hstill : s₂.StillRoom (.relock false) := by
    intro r hr
    rw [hflushed₂] at hr
    cases hr
    rw [isFull_eq_false_iff, hoffset₂]
    decide
  have hrun := (hrun₁.append hrun₂).snoc hrelock
  refine ⟨_, _, hrun, ?_, List.mem_append_right _ (List.mem_singleton_self _),
    (log_buffer_bounded_iff [] _ _ hrun).2 ?_⟩
  · exact List.mem_append_left _
      (List.mem_append_left _ (List.mem_append_right _ (List.mem_singleton_self _)))
  · refine ((hrun₁.append hrun₂).meeting fun a ha s => ?_).snoc ⟨hstill, hrelock⟩
    simp only [List.mem_append, List.mem_replicate, List.mem_singleton] at ha
    obtain ((⟨-, rfl⟩ | rfl) | rfl) | ⟨-, rfl⟩ := ha <;> trivial

/-- An INSERT record of 45 bytes, of a three-byte record of the table `t`. -/
def insertCall : AppendCall := ⟨0, -1, .insert "t" ⟨1, 0⟩ [1, 2, 3]⟩

/-- While one client flushes the buffer for its INSERT record of 45 bytes, the other one fills it
with BEGIN records up to the offset 4194260: the last byte of the INSERT record is the last one of
`buffer_`, and `offset_` is 4194305. -/
theorem not_log_buffer_bounded : ¬ ∀ (as : List (LogSection Bool)) (s : LogClients Bool),
    Run Step (start []) as s → s.overrun = false → s.log.offset ≤ LOG_BUFFER_SIZE := by
  intro hbound
  have hsize : LOG_BUFFER_SIZE = 4194304 := rfl
  obtain ⟨s₁, hrun₁, hidle, hflushed, hs₁, hoffset₁⟩ :=
    run_flushed insertCall (by decide) (by decide)
  obtain ⟨s₂, hrun₂, hclient₂, hs₂, hoffset₂⟩ := run_check_begin hidle hs₁ 209713 (by omega)
  rw [hoffset₁] at hoffset₂
  have hlen : insertCall.body.totLen = 45 := by decide
  have hflushed₂ : s₂.client false = .flushed insertCall := hclient₂ ▸ hflushed
  have hrelock : Step s₂ (.relock false) { s₂ with
      log := s₂.log.append insertCall, client := Function.update s₂.client false .idle } := by
    refine ⟨trivial, ?_⟩
    have hroom : s₂.log.offset + insertCall.body.totLen ≤ LOG_BUFFER_SIZE + 1 := by omega
    simp [next, hs₂, hflushed₂, hroom]
  have hoffset := hbound _ _ ((hrun₁.append hrun₂).snoc hrelock) hs₂
  rw [offset_append, hlen] at hoffset
  omega

end LogClients

end Rmdb
