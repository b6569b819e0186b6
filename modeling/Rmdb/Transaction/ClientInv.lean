import Rmdb.Transaction.Protocol

/-!
# What holds while clients work

The invariant of the server's steps.  `Tracks` ties the stage of one transaction to its records in
the log and to the effects that its pages hold; other transactions see a step only through a flush
of the log, so it is kept by everything that others do.

`commit` and `abort` log the end of a transaction only when its write set is not empty.  The
invariant has a parameter `mustEnd`: a transaction whose records it holds of does not end with an
empty write set, and so its end is on disk when it has ended.
-/

namespace Rmdb

/-- The row operations among some records. -/
def dataOps (recs : List LogRecord) : List LogBody :=
  (recs.map LogRecord.body).filter LogBody.isData

/-- A COMMIT or ABORT is among the records. -/
def HasEnd (recs : List LogRecord) : Prop := ∃ r ∈ recs, r.body = .commit ∨ r.body = .abort

section Records

variable {recs logs : List LogRecord} {r : LogRecord} {t : TxnId}

theorem dataOps_snoc : dataOps (recs ++ [r]) = dataOps recs ++ if r.body.isData then
    [r.body] else [] := by
  rw [dataOps, List.map_append, List.filter_append, dataOps]
  by_cases h : r.body.isData <;> simp [h]

theorem committedIn_iff : committedIn logs t ↔ ∃ r ∈ recordsOf t logs, r.body = .commit := by
  simp [committedIn, recordsOf, and_assoc]

theorem abortedIn_iff : abortedIn logs t ↔ ∃ r ∈ recordsOf t logs, r.body = .abort := by
  simp [abortedIn, recordsOf, and_assoc]

theorem endedIn_iff : endedIn logs t ↔ HasEnd (recordsOf t logs) := by
  rw [endedIn, Bool.or_eq_true, committedIn_iff, abortedIn_iff]
  constructor
  · rintro (⟨r, hr, hb⟩ | ⟨r, hr, hb⟩)
    · exact ⟨r, hr, .inl hb⟩
    · exact ⟨r, hr, .inr hb⟩
  · rintro ⟨r, hr, hb | hb⟩
    · exact .inl ⟨r, hr, hb⟩
    · exact .inr ⟨r, hr, hb⟩

theorem endedIn_eq_false (h : ¬ HasEnd (recordsOf t logs)) : endedIn logs t = false := by
  rw [← Bool.not_eq_true, endedIn_iff]
  exact h

theorem hasEnd_snoc : HasEnd (recs ++ [r]) ↔ HasEnd recs ∨ r.body = .commit ∨ r.body = .abort := by
  simp [HasEnd, or_and_right, exists_or]

theorem LogBody.ne_end_of_isData {b : LogBody} (h : b.isData) : b ≠ .commit ∧ b ≠ .abort := by
  cases b <;> simp_all [LogBody.isData]

theorem LogBody.ne_end_of_isIndex {b : LogBody} (h : b.isIndex) : b ≠ .commit ∧ b ≠ .abort := by
  cases b <;> simp_all [LogBody.isIndex]

end Records

/-- What the progress of a transaction says of its records `recs`, those of them on disk, and its
write set and count of operations. -/
def RowInv (mustEnd : List LogRecord → Prop) (recs disk : List LogRecord) (txn : Transaction) :
    Progress → Prop
  | .idle => (dataOps recs).length = txn.writeSet.length ∧ txn.changes = txn.writeSet.length ∧
      ¬ HasEnd recs ∧ txn.state = .growing
  | .changed op => op.isData ∧ (dataOps recs).length = txn.writeSet.length ∧
      txn.changes = txn.writeSet.length + 1 ∧ ¬ HasEnd recs ∧ txn.state = .growing
  | .logged op =>
    (dataOps recs).length = txn.writeSet.length + 1 ∧ (dataOps recs).getLast? = some op ∧
      txn.changes = txn.writeSet.length ∧ ¬ HasEnd recs ∧ txn.state = .growing
  | .applied _ => (dataOps recs).length = txn.writeSet.length + 1 ∧
      txn.changes = txn.writeSet.length + 1 ∧ ¬ HasEnd recs ∧ txn.state = .growing
  | .noted op => (dataOps recs).length = txn.writeSet.length ∧ (dataOps recs).getLast? = some op ∧
      txn.changes + 1 = txn.writeSet.length ∧ ¬ HasEnd recs ∧ txn.state = .growing
  | .undoing n had => txn.writeSet.length = n ∧ (had = true → recs ≠ []) ∧
      (mustEnd recs → had = true) ∧ ¬ HasEnd recs ∧ txn.state = .growing
  | .closing => ¬ mustEnd recs ∧ ¬ HasEnd recs ∧ txn.state = .growing
  | .ended body flushed => (body = .commit ∨ body = .abort) ∧ (∃ r ∈ recs, r.body = body) ∧
      (flushed = true → ∃ r ∈ disk, r.body = body) ∧ txn.state = .growing
  | .finished state => txn.state = state ∧ (state = .committed ∨ state = .aborted) ∧
      (state = .committed → mustEnd recs → ∃ r ∈ disk, r.body = .commit) ∧
      (state = .aborted → mustEnd recs → ∃ r ∈ disk, r.body = .abort)

/-- What the stage says of an effect `c` on a page: its record is in the log unless the operation
has only changed the page, it is on disk unless there was no flush since, and those that are undone
are gone. -/
structure EffectInv (recs disk : List LogRecord) (txn : Transaction) (q : Stage)
    (c : PageChange) : Prop where
  lt : c.number < txn.changes
  logged : (dataOps recs)[c.number]? = some c.op ∨
    q.row = .changed c.op ∧ c.number = (dataOps recs).length
  flushed : q.dirty = false → (dataOps disk)[c.number]? = some c.op
  undone : ∀ n had, q.row = .undoing n had → c.number < n

/-- The transaction `txn` is in the stage `q`: `recs` are its records in the log, `disk` those on
disk, and `pages` the effects of its operations. -/
structure Tracks (mustEnd : List LogRecord → Prop) (recs disk : List LogRecord)
    (pages : List PageChange) (txn : Transaction) (q : Stage) : Prop where
  prevLsn : txn.prevLsn = (recs.getLast?.map LogRecord.lsn).getD INVALID_LSN
  lsn : ∀ r ∈ recs, r.lsn ≠ INVALID_LSN
  onDisk : disk <+: recs
  begun : q.begun = true → recs ≠ []
  wrote : txn.writeSet ≠ [] → q.begun = true
  row : RowInv mustEnd recs disk txn q.row
  effects : ∀ c ∈ pages, EffectInv recs disk txn q c

theorem dataOps_prefix {disk recs : List LogRecord} (h : disk <+: recs) :
    dataOps disk <+: dataOps recs :=
  (h.map LogRecord.body).filter LogBody.isData

theorem getElem?_dataOps_mono {disk recs : List LogRecord} (h : disk <+: recs) {i : ℕ} {b : LogBody}
    (hi : (dataOps disk)[i]? = some b) : (dataOps recs)[i]? = some b := by
  obtain ⟨l, hl⟩ := dataOps_prefix h
  rw [← hl, List.getElem?_append_left (List.getElem?_eq_some_iff.1 hi).1, hi]

namespace Tracks

variable {mustEnd : List LogRecord → Prop} {recs disk disk' : List LogRecord}
  {pages : List PageChange} {txn : Transaction}
  {q q' : Stage}

theorem setTodo (h : Tracks mustEnd recs disk pages txn q) (todo : List Action) :
    Tracks mustEnd recs disk pages { txn with todo := todo } q := by
  refine ⟨h.prevLsn, h.lsn, h.onDisk, h.begun, h.wrote, ?_, fun c hc => ?_⟩
  · have hrow := h.row
    cases hq : q.row <;> rwa [hq] at hrow
  · obtain ⟨hlt, hlogged, hflushed, hundone⟩ := h.effects c hc
    exact ⟨hlt, hlogged, hflushed, hundone⟩

/-- A flush of the log by anyone. -/
theorem flush (h : Tracks mustEnd recs disk pages txn q) :
    Tracks mustEnd recs recs pages txn q := by
  refine ⟨h.prevLsn, h.lsn, List.prefix_rfl, h.begun, h.wrote, ?_, fun c hc => ?_⟩
  · have hrow := h.row
    have hmem {b : LogBody} : (∃ r ∈ disk, r.body = b) → ∃ r ∈ recs, r.body = b := by
      rintro ⟨r, hr, hb⟩
      exact ⟨r, h.onDisk.subset hr, hb⟩
    cases hq : q.row with
    | ended body flushed =>
      rw [hq] at hrow
      exact ⟨hrow.1, hrow.2.1, fun _ => hrow.2.1, hrow.2.2.2⟩
    | finished state =>
      rw [hq] at hrow
      exact ⟨hrow.1, hrow.2.1, fun hs hd => hmem (hrow.2.2.1 hs hd),
        fun hs hd => hmem (hrow.2.2.2 hs hd)⟩
    | _ => rwa [hq] at hrow
  · obtain ⟨hlt, hlogged, hflushed, hundone⟩ := h.effects c hc
    exact ⟨hlt, hlogged, fun hd => getElem?_dataOps_mono h.onDisk (hflushed hd), hundone⟩

theorem setTxnMode (h : Tracks mustEnd recs disk pages txn q) :
    Tracks mustEnd recs disk pages { txn with txnMode := true } q := by
  refine ⟨h.prevLsn, h.lsn, h.onDisk, h.begun, h.wrote, ?_, fun c hc => ?_⟩
  · have hrow := h.row
    cases hq : q.row <;> rwa [hq] at hrow
  · obtain ⟨hlt, hlogged, hflushed, hundone⟩ := h.effects c hc
    exact ⟨hlt, hlogged, hflushed, hundone⟩

theorem prevLsn_eq_invalid_iff (h : Tracks mustEnd recs disk pages txn q) :
    txn.prevLsn = INVALID_LSN ↔ recs = [] := by
  rw [h.prevLsn]
  constructor
  · intro hlsn
    by_contra hne
    have hlast := List.getLast?_eq_some_getLast hne
    rw [hlast] at hlsn
    exact h.lsn _ (List.getLast_mem hne) hlsn
  · rintro rfl
    rfl

/-- Nothing is logged after the end. -/
theorem not_hasEnd (h : Tracks mustEnd recs disk pages txn q) {body : LogBody}
    (hnext : q.next (.addLog body) = some q') : ¬ HasEnd recs := by
  have hrow := h.row
  obtain ⟨-, ⟨-, hq, -⟩ | ⟨-, hq, -⟩ | ⟨-, hq | ⟨op, hq⟩, -⟩ | ⟨-, hq, -⟩ | ⟨-, hq, -⟩⟩ :=
    Stage.next_addLog hnext <;> rw [hq] at hrow
  · exact hrow.2.2.1
  · exact hrow.2.2.2.1
  · exact hrow.2.2.1
  · exact hrow.2.2.1
  · exact hrow.2.2.1
  · exact hrow.2.2.2.1

/-- A record of the transaction is logged, with the disk somewhere between what it was and all. -/
theorem logs (h : Tracks mustEnd recs disk pages txn q) {r : LogRecord} (hlsn : r.lsn ≠ INVALID_LSN)
    (hdisk : disk <+: disk') (hdisk' : disk' <+: recs) (hbegun : q'.begun = q.begun)
    (hrow : RowInv mustEnd (recs ++ [r]) disk' { txn with prevLsn := r.lsn } q'.row)
    (hchanged : ∀ c ∈ pages, q.row = .changed c.op → r.body = c.op ∧ c.op.isData = true)
    (hdirty : ∀ c ∈ pages, q'.dirty = false → q.dirty = false)
    (hundone : ∀ c ∈ pages, ∀ n had, q'.row ≠ .undoing n had) :
    Tracks mustEnd (recs ++ [r]) disk' pages { txn with prevLsn := r.lsn } q' := by
  refine ⟨by simp, ?_, hdisk'.trans (List.prefix_append _ _), fun _ => by simp, ?_, hrow,
    fun c hc => ?_⟩
  · intro r' hr'
    rcases List.mem_append.1 hr' with hr' | hr'
    · exact h.lsn r' hr'
    · rw [List.mem_singleton.1 hr']
      exact hlsn
  · rw [hbegun]
    exact h.wrote
  · obtain ⟨hlt, hlogged, hflushed, -⟩ := h.effects c hc
    refine ⟨hlt, .inl ?_, fun hd => ?_, fun n had hq => absurd hq (hundone c hc n had)⟩
    · rcases hlogged with hlogged | ⟨hq, hnum⟩
      · exact getElem?_dataOps_mono (List.prefix_append _ _) hlogged
      · obtain ⟨hb, hd⟩ := hchanged c hc hq
        rw [dataOps_snoc, hb, if_pos hd, hnum, List.getElem?_append_right le_rfl]
        simp
    · exact getElem?_dataOps_mono hdisk (hflushed (hdirty c hc hd))

theorem addLog (h : Tracks mustEnd recs disk pages txn q) {r : LogRecord}
    (hlsn : r.lsn ≠ INVALID_LSN)
    (hdisk : disk <+: disk') (hdisk' : disk' <+: recs) (hnext : q.next (.addLog r.body) = some q') :
    Tracks mustEnd (recs ++ [r]) disk' pages { txn with prevLsn := r.lsn } q' := by
  have hrow := h.row
  obtain ⟨-, ⟨hd, hq, rfl⟩ | ⟨hd, hq, rfl⟩ | ⟨hi, hq, rfl⟩ | ⟨hb, hq, rfl⟩ | ⟨hb, hq, rfl⟩⟩ :=
    Stage.next_addLog hnext
  · rw [hq] at hrow
    obtain ⟨hlen, hchanges, hend, hstate⟩ := hrow
    refine h.logs hlsn hdisk hdisk' rfl ⟨?_, ?_, hchanges, ?_, hstate⟩ ?_ (fun _ _ => id) ?_
    · rw [dataOps_snoc, if_pos hd, List.length_append, hlen]
      rfl
    · rw [dataOps_snoc, if_pos hd, List.getLast?_concat]
    · rw [hasEnd_snoc]
      exact not_or.2 ⟨hend, not_or.2 (LogBody.ne_end_of_isData hd)⟩
    · simp [hq]
    · simp
  · rw [hq] at hrow
    obtain ⟨-, hlen, hchanges, hend, hstate⟩ := hrow
    refine h.logs hlsn hdisk hdisk' rfl ⟨?_, hchanges, ?_, hstate⟩ ?_ (fun _ _ => id) ?_
    · rw [dataOps_snoc, if_pos hd, List.length_append, hlen]
      rfl
    · rw [hasEnd_snoc]
      exact not_or.2 ⟨hend, not_or.2 (LogBody.ne_end_of_isData hd)⟩
    · intro c _ hc
      rw [hq, Progress.changed.injEq] at hc
      exact ⟨hc, hc ▸ hd⟩
    · simp
  · have hdata : r.body.isData = false := by
      cases hb : r.body <;> simp_all [LogBody.isIndex, LogBody.isData]
    have hops : dataOps (recs ++ [r]) = dataOps recs := by simp [dataOps_snoc, hdata]
    have hend : HasEnd (recs ++ [r]) ↔ HasEnd recs := by
      rw [hasEnd_snoc]
      exact or_iff_left (not_or.2 (LogBody.ne_end_of_isIndex hi))
    rcases hq with hq | ⟨op, hq⟩
    · rw [hq] at hrow
      refine h.logs hlsn hdisk hdisk' rfl ?_ ?_ (fun _ _ => id) ?_
      · rw [hq, RowInv, hops, hend]
        exact hrow
      · simp [hq]
      · simp [hq]
    · rw [hq] at hrow
      refine h.logs hlsn hdisk hdisk' rfl ?_ ?_ (fun _ _ => id) ?_
      · rw [hq, RowInv, hops, hend]
        exact hrow
      · simp [hq]
      · simp [hq]
  · rw [hq] at hrow
    refine h.logs hlsn hdisk hdisk' rfl ⟨.inl rfl, ⟨r, by simp, hb⟩, by simp, hrow.2.2.2⟩ ?_
      (fun _ _ => id) ?_
    · simp [hq]
    · simp
  · rw [hq] at hrow
    have hnone : ∀ c ∈ pages, False :=
      fun c hc => absurd ((h.effects c hc).undone _ _ hq) (Nat.not_lt_zero _)
    exact h.logs hlsn hdisk hdisk' rfl ⟨.inr rfl, ⟨r, by simp, hb⟩, by simp, hrow.2.2.2.2⟩
      (fun c hc => (hnone c hc).elim) (fun c hc => (hnone c hc).elim)
        (fun c hc => (hnone c hc).elim)

/-- The record that opens the log of a transaction. -/
theorem addBegin (h : Tracks mustEnd [] disk pages txn q) {r : LogRecord}
    (hlsn : r.lsn ≠ INVALID_LSN) (hb : r.body = .begin) (hq : q.row = .idle) :
    Tracks mustEnd [r] [] pages { txn with prevLsn := r.lsn } { q with begun := true } := by
  have hrow := h.row
  rw [hq] at hrow
  obtain ⟨hlen, hchanges, -, hstate⟩ := hrow
  have hops : dataOps [r] = [] := by simp [dataOps, hb, LogBody.isData]
  refine ⟨rfl, ?_, List.nil_prefix, fun _ => by simp, fun _ => rfl, ?_, fun c hc => ?_⟩
  · intro r' hr'
    rw [List.mem_singleton.1 hr']
    exact hlsn
  · rw [hq, RowInv, hops]
    exact ⟨hlen, hchanges, by simp [HasEnd, hb], hstate⟩
  · have hlt := (h.effects c hc).lt
    have hzero : txn.changes = 0 := by rw [hchanges, ← hlen]; rfl
    omega

theorem ensureBegin (h : Tracks mustEnd recs disk pages txn q) (hrecs : recs ≠ []) :
    Tracks mustEnd recs disk pages txn { q with begun := true } :=
  ⟨h.prevLsn, h.lsn, h.onDisk, fun _ => hrecs, fun _ => rfl, h.row, fun c hc =>
    ⟨(h.effects c hc).lt, (h.effects c hc).logged, (h.effects c hc).flushed,
      (h.effects c hc).undone⟩⟩

/-- The last of the row operations. -/
theorem getElem?_of_getLast? {l : List LogBody} {op : LogBody} {n : ℕ} (h : l.getLast? = some op)
    (hn : n + 1 = l.length) : l[n]? = some op := by
  rw [List.getLast?_eq_getElem?] at h
  rw [← h]
  congr 1
  omega

theorem change (h : Tracks mustEnd recs disk pages txn q) {op : LogBody} (t : TxnId)
    (hnext : q.next (.change op) = some q') :
    Tracks mustEnd recs disk (pages ++ [⟨t, txn.changes, op⟩])
    { txn with changes := txn.changes + 1 } q' := by
  have hold (hq : ∀ op', q.row ≠ .changed op') (hdirty : q'.dirty = true)
      (hundone : ∀ n had, q'.row ≠ .undoing n had) :
      ∀ c ∈ pages, EffectInv recs disk { txn with changes := txn.changes + 1 } q' c := by
    intro c hc
    obtain ⟨hlt, hlogged, -, -⟩ := h.effects c hc
    refine ⟨Nat.lt_succ_of_lt hlt, .inl ?_, fun hd => ?_, fun n had hn => absurd hn (hundone n had)⟩
    · exact hlogged.resolve_right fun hn => hq _ hn.1
    · rw [hdirty] at hd
      cases hd
  have hrow := h.row
  rcases Stage.next_change hnext with ⟨hq, hd, rfl⟩ | ⟨hq, rfl⟩ | ⟨hq, rfl⟩ <;> rw [hq] at hrow
  · obtain ⟨hlen, hchanges, hend, hstate⟩ := hrow
    refine ⟨h.prevLsn, h.lsn, h.onDisk, h.begun, h.wrote, ⟨hd, hlen, ?_, hend, hstate⟩,
      fun c hc => ?_⟩
    · show txn.changes + 1 = txn.writeSet.length + 1
      rw [hchanges]
    · rcases List.mem_append.1 hc with hc | hc
      · exact hold (by simp [hq]) rfl (by simp) c hc
      · rw [List.mem_singleton.1 hc]
        exact ⟨Nat.lt_succ_self _, .inr ⟨rfl, hchanges.trans hlen.symm⟩, by simp, by simp⟩
  · obtain ⟨hlen, hlast, hchanges, hend, hstate⟩ := hrow
    refine ⟨h.prevLsn, h.lsn, h.onDisk, h.begun, h.wrote, ⟨hlen, ?_, hend, hstate⟩, fun c hc => ?_⟩
    · show txn.changes + 1 = txn.writeSet.length + 1
      rw [hchanges]
    · rcases List.mem_append.1 hc with hc | hc
      · exact hold (by simp [hq]) rfl (by simp) c hc
      · rw [List.mem_singleton.1 hc]
        exact ⟨Nat.lt_succ_self _, .inl
          (getElem?_of_getLast? hlast (by rw [hchanges, hlen])), by simp,
          by simp⟩
  · obtain ⟨hlen, hlast, hchanges, hend, hstate⟩ := hrow
    refine ⟨h.prevLsn, h.lsn, h.onDisk, h.begun, h.wrote, ⟨hlen, hchanges, hend, hstate⟩,
      fun c hc => ?_⟩
    rcases List.mem_append.1 hc with hc | hc
    · exact hold (by simp [hq]) rfl (by simp) c hc
    · rw [List.mem_singleton.1 hc]
      exact ⟨Nat.lt_succ_self _, .inl
        (getElem?_of_getLast? hlast (by rw [hchanges, hlen])), by simp,
        by simp⟩

theorem appendWriteRecord (h : Tracks mustEnd recs disk pages txn q) {w : WriteRecord}
    (hnext : q.next (.appendWriteRecord w) = some q') :
    Tracks mustEnd recs disk pages { txn with writeSet := w :: txn.writeSet } q' := by
  have hrow := h.row
  obtain ⟨hbegun, ⟨⟨op, hq⟩, rfl⟩ | ⟨op, hq, rfl⟩⟩ := Stage.next_appendWriteRecord hnext <;>
    rw [hq] at hrow
  · obtain ⟨hlen, hchanges, hend, hstate⟩ := hrow
    refine ⟨h.prevLsn, h.lsn, h.onDisk, h.begun, fun _ => hbegun, ⟨hlen, hchanges, hend, hstate⟩,
      fun c hc => ?_⟩
    obtain ⟨hlt, hlogged, hflushed, -⟩ := h.effects c hc
    refine ⟨hlt, .inl (hlogged.resolve_right fun hn => ?_), hflushed, by simp⟩
    rw [hq] at hn
    cases hn.1
  · obtain ⟨hlen, hlast, hchanges, hend, hstate⟩ := hrow
    refine ⟨h.prevLsn, h.lsn, h.onDisk, h.begun, fun _ => hbegun, ⟨hlen, hlast, ?_, hend, hstate⟩,
      fun c hc => ?_⟩
    · show txn.changes + 1 = txn.writeSet.length + 1
      rw [hchanges]
    · obtain ⟨hlt, hlogged, hflushed, -⟩ := h.effects c hc
      refine ⟨hlt, .inl (hlogged.resolve_right fun hn => ?_), hflushed, by simp⟩
      rw [hq] at hn
      cases hn.1

theorem flushLog (h : Tracks mustEnd recs disk pages txn q) (hnext : q.next .flushLog = some q') :
    Tracks mustEnd recs recs pages txn q' := by
  have hrow := h.row
  rcases Stage.next_flushLog hnext with ⟨hq, rfl⟩ | ⟨body, flushed, hq, rfl⟩ <;> rw [hq] at hrow
  · refine ⟨h.prevLsn, h.lsn, List.prefix_rfl, h.begun, h.wrote, by rw [hq]; exact hrow,
      fun c hc => ?_⟩
    obtain ⟨hlt, hlogged, -, hundone⟩ := h.effects c hc
    have hin := hlogged.resolve_right fun hn => by
      rw [hq] at hn
      cases hn.1
    exact ⟨hlt, .inl hin, fun _ => hin, hundone⟩
  · refine ⟨h.prevLsn, h.lsn, List.prefix_rfl, h.begun, h.wrote,
      ⟨hrow.1, hrow.2.1, fun _ => hrow.2.1, hrow.2.2.2⟩, fun c hc => ?_⟩
    obtain ⟨hlt, hlogged, hflushed, -⟩ := h.effects c hc
    refine ⟨hlt, .inl (hlogged.resolve_right fun hn => ?_),
      fun hd => getElem?_dataOps_mono h.onDisk (hflushed hd), by simp⟩
    rw [hq] at hn
    cases hn.1

theorem undoWrite (h : Tracks mustEnd recs disk pages txn q) {pages' : List PageChange}
    (hpages : ∀ c ∈ pages', c ∈ pages ∧ c.number + 1 ≠ txn.writeSet.length)
    (hnext : q.next .undoWrite = some q') :
    Tracks mustEnd recs disk pages' { txn with writeSet := txn.writeSet.tail } q' := by
  have hrow := h.row
  obtain ⟨n, had, hq, rfl⟩ := Stage.next_undoWrite hnext
  rw [hq] at hrow
  obtain ⟨hlen, hrow⟩ := hrow
  refine ⟨h.prevLsn, h.lsn, h.onDisk, h.begun, ?_, ⟨?_, hrow⟩, fun c hc => ?_⟩
  · intro hw
    refine h.wrote fun hnil => hw ?_
    simp [hnil]
  · rw [List.length_tail, hlen]
    rfl
  · obtain ⟨hc, hne⟩ := hpages c hc
    obtain ⟨hlt, hlogged, hflushed, hundone⟩ := h.effects c hc
    refine ⟨hlt, .inl (hlogged.resolve_right fun hn => ?_), hflushed, ?_⟩
    · rw [hq] at hn
      cases hn.1
    · intro n' had' hn'
      have hlt' := hundone _ _ hq
      simp only [Progress.undoing.injEq] at hn'
      omega

theorem clearWriteSet (h : Tracks mustEnd recs disk pages txn q)
    (hnext : q.next .clearWriteSet = some q') :
    Tracks mustEnd recs disk pages { txn with writeSet := [] } q' := by
  have hrow := h.row
  obtain ⟨hq, rfl⟩ := Stage.next_clearWriteSet hnext
  refine ⟨h.prevLsn, h.lsn, h.onDisk, h.begun, by simp, ?_, fun c hc => ?_⟩
  · rcases hq with hq | ⟨body, hq⟩ <;> rw [hq] at hrow ⊢ <;> exact hrow
  · obtain ⟨hlt, hlogged, hflushed, hundone⟩ := h.effects c hc
    exact ⟨hlt, hlogged, hflushed, hundone⟩

theorem finish (h : Tracks mustEnd recs disk pages txn q) {state : TransactionState}
    (hnext : q.next (.finish state) = some q') :
    Tracks mustEnd recs disk pages { txn with state := state } q' := by
  have hrow := h.row
  have heff (hq : ∀ op, q.row ≠ .changed op) (hdirty : q'.dirty = q.dirty)
      (hrow' : q'.row = .finished state) :
      ∀ c ∈ pages, EffectInv recs disk { txn with state := state } q' c := by
    intro c hc
    obtain ⟨hlt, hlogged, hflushed, -⟩ := h.effects c hc
    refine ⟨hlt, .inl (hlogged.resolve_right fun hn => hq _ hn.1), ?_, by simp [hrow']⟩
    rw [hdirty]
    exact hflushed
  rcases Stage.next_finish hnext with ⟨hq, rfl, rfl⟩ | ⟨hq, rfl, rfl⟩ | ⟨hq, rfl, rfl⟩ | ⟨hq,
    rfl, rfl⟩ <;>
    rw [hq] at hrow
  · exact ⟨h.prevLsn, h.lsn, h.onDisk, h.begun, h.wrote,
      ⟨rfl, .inl rfl, fun _ hd => absurd hd hrow.1, by simp⟩, heff (by simp [hq]) rfl rfl⟩
  · refine ⟨h.prevLsn, h.lsn, h.onDisk, h.begun, h.wrote, ⟨rfl, .inr rfl, by simp, ?_⟩,
      fun c hc => ?_⟩
    · intro _ hd
      have hfalse := hrow.2.2.1 hd
      cases hfalse
    · exact absurd ((h.effects c hc).undone _ _ hq) (Nat.not_lt_zero _)
  · exact ⟨h.prevLsn, h.lsn, h.onDisk, h.begun, h.wrote,
      ⟨rfl, .inl rfl, fun _ _ => hrow.2.2.1 rfl, by simp⟩, heff (by simp [hq]) rfl rfl⟩
  · exact ⟨h.prevLsn, h.lsn, h.onDisk, h.begun, h.wrote,
      ⟨rfl, .inr rfl, by simp, fun _ _ => hrow.2.2.1 rfl⟩, heff (by simp [hq]) rfl rfl⟩

/-- `commit` starts. -/
theorem committing (h : Tracks mustEnd recs disk pages txn q) (hq : q.row = .idle)
    (hends : mustEnd recs → txn.writeSet ≠ []) :
    Tracks mustEnd recs disk pages txn (q.committing txn.writeSet) := by
  by_cases hw : txn.writeSet = []
  · rw [Stage.committing, if_pos hw]
    have hrow := h.row
    rw [hq] at hrow
    obtain ⟨-, -, hend, hstate⟩ := hrow
    refine ⟨h.prevLsn, h.lsn, h.onDisk, h.begun, h.wrote, ⟨fun hm => hends hm hw, hend, hstate⟩,
      fun c hc => ?_⟩
    obtain ⟨hlt, hlogged, hflushed, hundone⟩ := h.effects c hc
    refine ⟨hlt, .inl (hlogged.resolve_right fun hn => ?_), hflushed, by simp⟩
    rw [hq] at hn
    cases hn.1
  · rwa [Stage.committing, if_neg hw]

/-- `abort` starts, where a call may fail or between two statements. -/
theorem aborting (h : Tracks mustEnd recs disk pages txn q)
    (hq : q.row = .idle ∨ (∃ op, q.row = .noted op) ∨ ∃ op, q.row = .logged op)
    (hends : mustEnd recs → txn.writeSet ≠ []) :
    Tracks mustEnd recs disk pages txn (q.aborting txn.writeSet) := by
  have hrow := h.row
  have hfacts : txn.changes ≤ txn.writeSet.length ∧ (∀ op, q.row ≠ .changed op) ∧ ¬ HasEnd recs ∧
      txn.state = .growing := by
    rcases hq with hq | ⟨op, hq⟩ | ⟨op, hq⟩ <;> rw [hq] at hrow
    · obtain ⟨-, hchanges, hend, hstate⟩ := hrow
      exact ⟨hchanges.le, by simp [hq], hend, hstate⟩
    · obtain ⟨-, -, hchanges, hend, hstate⟩ := hrow
      exact ⟨by omega, by simp [hq], hend, hstate⟩
    · obtain ⟨-, -, hchanges, hend, hstate⟩ := hrow
      exact ⟨hchanges.le, by simp [hq], hend, hstate⟩
  obtain ⟨hchanges, hchanged, hend, hstate⟩ := hfacts
  refine ⟨h.prevLsn, h.lsn, h.onDisk, h.begun, h.wrote, ⟨rfl, ?_, ?_, hend, hstate⟩, fun c hc => ?_⟩
  · intro hhad
    exact h.begun (h.wrote (of_decide_eq_true hhad))
  · intro hm
    exact decide_eq_true (hends hm)
  · obtain ⟨hlt, hlogged, hflushed, -⟩ := h.effects c hc
    refine ⟨hlt, .inl (hlogged.resolve_right fun hn => hchanged _ hn.1), hflushed, ?_⟩
    intro n had hn
    simp only [Stage.aborting, Progress.undoing.injEq] at hn
    omega

/-- Between statements the stage is at rest. -/
theorem idle_of_nil (h : Tracks mustEnd recs disk pages txn q) (hconf : q.Conforms [])
    (hstate : txn.state = .growing) : q.row = .idle ∧ q.dirty = false := by
  obtain ⟨q', hq, hdirty, hrow⟩ := hconf
  cases hq
  refine ⟨hrow.resolve_right ?_, hdirty⟩
  rintro ⟨state, hfin⟩
  have hrow := h.row
  rw [hfin] at hrow
  obtain ⟨hst, hended, -⟩ := hrow
  rw [hst] at hstate
  subst hstate
  simp at hended

/-- What a client asks for conforms, from a stage that fits. -/
theorem start (h : Tracks mustEnd recs disk pages txn q) (hidle : q.row = .idle)
    (hdirty : q.dirty = false)
    (req : Request) (hends : req.ends = true → mustEnd recs → txn.writeSet ≠ []) :
    ∃ q', q'.Conforms (req.actions txn) ∧ Tracks mustEnd recs disk pages txn q' := by
  cases req with
  | begin =>
    refine ⟨q, ⟨{ q with begun := true }, ?_, hdirty, .inl hidle⟩, h⟩
    simp [Request.actions, Stage.next, hidle]
  | insert tabName tab rid rec => exact ⟨q, Stage.conforms_insertActions _ _ _ _ _ hidle, h⟩
  | delete tabName tab scanned rows =>
    exact ⟨q, .append (Stage.foldlM_locks hidle scanned)
      (Stage.conforms_deleteActions _ _ _ hidle rows), h⟩
  | update tabName tab scanned changes =>
    exact ⟨q, .append (Stage.foldlM_locks hidle scanned)
      (Stage.conforms_updateActions _ _ _ hidle changes), h⟩
  | commit => exact ⟨_, Stage.conforms_commitActions hidle hdirty _, h.committing hidle (hends rfl)⟩
  | abort => exact ⟨_, Stage.conforms_abortActions h.wrote, h.aborting (.inl hidle) (hends rfl)⟩

end Tracks

namespace Engine

/-- The invariant. -/
structure Inv (mustEnd : List LogRecord → Prop) (s : Engine) : Prop where
  linked : Linked s.log.all
  lsn : s.log.globalLsn = s.log.all.length
  fresh : ∀ t, s.nextTxnId ≤ t → s.txns t = none ∧ recordsOf t s.log.all = []
  pages : ∀ c ∈ s.pages, s.txns c.tid ≠ none
  txns : ∀ t txn, s.txns t = some txn → ∃ q : Stage, q.Conforms txn.todo ∧
    Tracks mustEnd (recordsOf t s.log.all) (recordsOf t s.log.disk)
      (s.pages.filter (·.tid = t)) txn q

variable {mustEnd : List LogRecord → Prop} {s s' : Engine} {t : TxnId} {txn txn' : Transaction}
  {q q' : Stage}
  {todo : List Action}

/-- A step of the transaction `t`: the others see no more of it than a flush of the log. -/
theorem Inv.update (h : Inv mustEnd s) (txn' : Transaction) (q' : Stage) (ht : s.txns t ≠ none)
    (hlinked : Linked s'.log.all) (hlsn : s'.log.globalLsn = s'.log.all.length)
    (hid : s'.nextTxnId = s.nextTxnId)
    (htxns : s'.txns = Function.update s.txns t (some txn'))
    (hrecs : ∀ t' ≠ t, recordsOf t' s'.log.all = recordsOf t' s.log.all)
    (hdisk : s'.log.disk = s.log.disk ∨ s'.log.disk = s.log.all)
    (hpages : ∀ t' ≠ t, s'.pages.filter (·.tid = t') = s.pages.filter (·.tid = t'))
    (hconf : q'.Conforms txn'.todo)
    (htracks : Tracks mustEnd (recordsOf t s'.log.all) (recordsOf t s'.log.disk)
      (s'.pages.filter (·.tid = t)) txn' q') : Inv mustEnd s' := by
  refine ⟨hlinked, hlsn, fun t' ht' => ?_, fun c hc => ?_, fun t' txn₁ ht' => ?_⟩
  · rw [hid] at ht'
    obtain ⟨hnone, hnil⟩ := h.fresh t' ht'
    have hne : t' ≠ t := by
      rintro rfl
      exact ht hnone
    rw [htxns, Function.update_of_ne hne, hrecs t' hne]
    exact ⟨hnone, hnil⟩
  · rw [htxns]
    by_cases hne : c.tid = t
    · simp [hne]
    · rw [Function.update_of_ne hne]
      have hmem : c ∈ s'.pages.filter (·.tid = c.tid) := List.mem_filter.2 ⟨hc, by simp⟩
      rw [hpages c.tid hne] at hmem
      exact h.pages c (List.mem_of_mem_filter hmem)
  · by_cases hne : t' = t
    · subst hne
      rw [htxns, Function.update_self] at ht'
      cases ht'
      exact ⟨q', hconf, htracks⟩
    · rw [htxns, Function.update_of_ne hne] at ht'
      obtain ⟨q₁, hconf₁, htracks₁⟩ := h.txns t' txn₁ ht'
      refine ⟨q₁, hconf₁, ?_⟩
      rw [hrecs t' hne, hpages t' hne]
      rcases hdisk with hdisk | hdisk
      · rwa [hdisk]
      · rw [hdisk]
        exact htracks₁.flush

/-- A step of `t` that leaves the log and the pages alone. -/
theorem Inv.setTxn (h : Inv mustEnd s) (ht : s.txns t ≠ none) (hconf : q'.Conforms txn'.todo)
    (htracks : Tracks mustEnd (recordsOf t s.log.all) (recordsOf t s.log.disk)
      (s.pages.filter (·.tid = t)) txn' q') : Inv mustEnd (s.setTxn t txn') :=
  h.update txn' q' ht h.linked h.lsn rfl rfl (fun _ _ => rfl) (.inl rfl)
    (fun _ _ => rfl) hconf htracks

/-- A record of `t` is logged. -/
theorem Inv.logRecord (h : Inv mustEnd s) (q' : Stage) (ht : s.txns t ≠ none) {body : LogBody}
    (hprev : txn.prevLsn = lastLsn s.log.all t) (hend : ¬ HasEnd (recordsOf t s.log.all))
    (hbegin : body = .begin ↔ recordsOf t s.log.all = []) (hconf : q'.Conforms txn.todo)
    (htracks : ∀ (r : LogRecord) (disk' : List LogRecord), r.lsn ≠ INVALID_LSN → r.body = body →
      recordsOf t s.log.disk <+: disk' → disk' <+: recordsOf t s.log.all →
      Tracks mustEnd (recordsOf t s.log.all ++ [r]) disk' (s.pages.filter (·.tid = t))
        { txn with prevLsn := r.lsn } q') : Inv mustEnd (s.logRecord t txn body) := by
  have hall := s.log.all_addLogToBuffer t txn.prevLsn body
  have hdisk := s.log.disk_addLogToBuffer t txn.prevLsn body
  have hrec : (s.logRecord t txn body).log = (s.log.addLogToBuffer t txn.prevLsn body).1 := rfl
  have hprefix : recordsOf t s.log.disk <+: recordsOf t s.log.all :=
    (List.prefix_append s.log.disk s.log.buffer).filter _
  refine h.update { txn with prevLsn := s.log.globalLsn } q' ht ?_ ?_ rfl ?_ ?_ ?_
    (fun _ _ => rfl) hconf ?_
  · rw [hrec, hall]
    refine .snoc h.linked h.lsn hprev hbegin (endedIn_eq_false hend)
  · rw [hrec, hall, s.log.globalLsn_addLogToBuffer, h.lsn]
    simp
  · simp [Engine.logRecord, Engine.setTxn]
  · intro t' hne
    rw [hrec, hall, recordsOf_snoc, if_neg (Ne.symm hne), List.append_nil]
  · rw [hrec]
    exact hdisk
  · rw [hrec, hall, recordsOf_snoc, if_pos rfl]
    refine htracks ⟨s.log.globalLsn, t, txn.prevLsn, body⟩ _ ?_ rfl ?_ ?_
    · show s.log.globalLsn ≠ INVALID_LSN
      rw [h.lsn, INVALID_LSN]
      omega
    · rcases hdisk with hdisk | hdisk <;> rw [hdisk]
      exact hprefix
    · rcases hdisk with hdisk | hdisk <;> rw [hdisk]
      exact hprefix

/-- One call of a statement. -/
theorem Inv.perform (h : Inv mustEnd s) {a : Action}
    (ht : s.txns t = some { txn with todo := a :: todo })
    (hq : q.next a = some q') (hconf : q'.Conforms todo)
    (htracks : Tracks mustEnd (recordsOf t s.log.all) (recordsOf t s.log.disk)
      (s.pages.filter (·.tid = t))
      { txn with todo := todo } q) : Inv mustEnd (s.perform t { txn with todo := todo } a) := by
  have hsome : s.txns t ≠ none := by simp [ht]
  cases a with
  | lock req =>
    obtain rfl := Stage.next_silent (.inr rfl) hq
    exact h.setTxn hsome hconf htracks
  | lockRecord op =>
    obtain rfl := Stage.next_silent (.inr rfl) hq
    exact h.setTxn hsome hconf htracks
  | check =>
    obtain rfl := Stage.next_silent (.inr rfl) hq
    exact h.setTxn hsome hconf htracks
  | setTxnMode =>
    obtain rfl := Stage.next_silent (.inl rfl) hq
    exact h.setTxn hsome hconf htracks.setTxnMode
  | ensureBegin =>
    obtain ⟨hidle, rfl⟩ := Stage.next_ensureBegin hq
    have hnone := htracks.prevLsn_eq_invalid_iff
    rw [Engine.perform]
    split
    · rename_i hprev
      have hnil := hnone.1 hprev
      have hbegin := htracks
      rw [hnil] at hbegin
      refine h.logRecord { q with begun := true } hsome htracks.prevLsn ?_ (by simp [hnil]) hconf ?_
      · rw [hnil]
        simp [HasEnd]
      · intro r disk' hlsn hb _ hdisk'
        rw [hnil] at hdisk' ⊢
        rw [List.prefix_nil.1 hdisk']
        exact hbegin.addBegin hlsn hb hidle
    · rename_i hprev
      exact h.setTxn hsome hconf (htracks.ensureBegin fun hnil => hprev (hnone.2 hnil))
  | addLog body =>
    have hne : body ≠ .begin := by
      rintro rfl
      obtain ⟨-, hcases⟩ := Stage.next_addLog hq
      simp [LogBody.isData, LogBody.isIndex] at hcases
    have hrecs : recordsOf t s.log.all ≠ [] := htracks.begun (Stage.next_addLog hq).1
    refine h.logRecord q' hsome htracks.prevLsn (htracks.not_hasEnd hq)
      (by simp [hne, hrecs]) hconf ?_
    rintro r disk' hlsn rfl hdisk hdisk'
    exact htracks.addLog hlsn hdisk hdisk' hq
  | change op =>
    refine h.update { txn with todo := todo, changes := txn.changes + 1 } q' hsome h.linked
      h.lsn rfl rfl (fun _ _ => rfl) (.inl rfl) ?_ hconf ?_
    · intro t' hne
      simp [Engine.perform, Engine.setTxn, List.filter_append, Ne.symm hne]
    · have hpages : (s.pages ++ [(⟨t, txn.changes, op⟩ : PageChange)]).filter (·.tid = t) =
          s.pages.filter (·.tid = t) ++ [⟨t, txn.changes, op⟩] := by
        rw [List.filter_append]
        simp
      exact hpages ▸ htracks.change t hq
  | appendWriteRecord w => exact h.setTxn hsome hconf (htracks.appendWriteRecord hq)
  | flushLog =>
    have hall : s.log.flushLogToDisk.all = s.log.all := s.log.all_flushLogToDisk
    refine h.update { txn with todo := todo } q' hsome (hall ▸ h.linked) (hall ▸ h.lsn) rfl rfl ?_
      (.inr rfl) (fun _ _ => rfl) hconf ?_
    · intro t' _
      exact congrArg (recordsOf t') hall
    · show Tracks mustEnd (recordsOf t s.log.flushLogToDisk.all) (recordsOf t s.log.all) _ _ q'
      rw [hall]
      exact htracks.flushLog hq
  | undoWrite =>
    refine h.update { txn with todo := todo, writeSet := txn.writeSet.tail } q' hsome h.linked
      h.lsn rfl rfl (fun _ _ => rfl) (.inl rfl) ?_ hconf ?_
    · intro t' hne
      simp only [Engine.perform, Engine.setTxn, List.filter_filter]
      refine List.filter_congr fun c _ => ?_
      by_cases hc : c.tid = t'
      · simp [hc, hne]
      · simp [hc]
    · refine htracks.undoWrite (fun c hc => ?_) hq
      simp only [Engine.perform, Engine.setTxn, List.mem_filter] at hc ⊢
      obtain ⟨⟨hmem, hkept⟩, htid⟩ := hc
      refine ⟨⟨hmem, htid⟩, fun hn => ?_⟩
      simp only [decide_eq_true_eq] at hkept htid
      exact hkept ⟨htid, hn⟩
  | clearWriteSet => exact h.setTxn hsome hconf (htracks.clearWriteSet hq)
  | flushPages =>
    obtain ⟨-, rfl⟩ := Stage.next_flushPages hq
    exact h.update { txn with todo := todo } q' hsome h.linked h.lsn rfl rfl
      (fun _ _ => rfl) (.inl rfl) (fun _ _ => rfl) hconf htracks
  | finish state => exact h.setTxn hsome hconf (htracks.finish hq)

/-- A transaction whose records `mustEnd` holds of does not commit, roll back or fail with an empty
write set. -/
def EndsAfterWrites (mustEnd : List LogRecord → Prop) (s : Engine) (op : EngineOp) : Prop :=
  ∀ t ∈ op.ends?, ∀ txn ∈ s.txns t, mustEnd (recordsOf t s.log.all) → txn.writeSet ≠ []

instance (mustEnd : List LogRecord → Prop) [DecidablePred mustEnd] (s : Engine) (op : EngineOp) :
    Decidable (s.EndsAfterWrites mustEnd op) :=
  inferInstanceAs (Decidable (∀ t ∈ op.ends?, ∀ txn ∈ s.txns t, _ → _))

theorem Inv.begin (h : Inv mustEnd s) :
    Inv mustEnd (Engine.setTxn { s with nextTxnId := s.nextTxnId + 1 } s.nextTxnId {}) := by
  obtain ⟨hnone, hnil⟩ := h.fresh s.nextTxnId le_rfl
  refine ⟨h.linked, h.lsn, fun t ht => ?_, fun c hc => ?_, fun t txn ht => ?_⟩
  · have hlt : s.nextTxnId < t := lt_of_lt_of_le (lt_add_one s.nextTxnId) ht
    obtain ⟨hnone', hnil'⟩ := h.fresh t hlt.le
    exact ⟨(Function.update_of_ne hlt.ne' _ _).trans hnone', hnil'⟩
  · by_cases hne : c.tid = s.nextTxnId
    · simp [Engine.setTxn, hne]
    · simp only [Engine.setTxn, Function.update_of_ne hne]
      exact h.pages c hc
  · by_cases hne : t = s.nextTxnId
    · subst hne
      simp only [Engine.setTxn, Function.update_self] at ht
      cases ht
      have hdisk : recordsOf s.nextTxnId s.log.disk = [] := by
        have hprefix : recordsOf s.nextTxnId s.log.disk <+: recordsOf s.nextTxnId s.log.all :=
          (List.prefix_append s.log.disk s.log.buffer).filter _
        rw [hnil] at hprefix
        exact List.prefix_nil.1 hprefix
      have hpages : s.pages.filter (·.tid = s.nextTxnId) = [] := by
        refine List.filter_eq_nil_iff.2 fun c hc hid => h.pages c hc ?_
        rw [of_decide_eq_true hid]
        exact hnone
      refine ⟨⟨false, false, .idle⟩, Stage.Rests.conforms_nil ⟨rfl, .inl rfl⟩, ?_⟩
      show Tracks mustEnd (recordsOf s.nextTxnId s.log.all) (recordsOf s.nextTxnId s.log.disk)
        (s.pages.filter (·.tid = s.nextTxnId)) {} _
      rw [hnil, hdisk, hpages]
      exact ⟨rfl, by simp, List.prefix_rfl, by simp, by simp,
        ⟨rfl, rfl, by simp [HasEnd], rfl⟩, by simp⟩
    · simp only [Engine.setTxn, Function.update_of_ne hne] at ht
      exact h.txns t txn ht

theorem Inv.restart (h : Inv mustEnd s) :
    Inv mustEnd { log := .reopen s.log.disk, nextTxnId := getNextTxnId s.log.disk } := by
  have hall : (LogManager.reopen s.log.disk).all = s.log.disk := List.append_nil _
  refine ⟨?_, ?_, fun t ht => ⟨rfl, ?_⟩, (fun c hc => by cases hc), (fun t txn ht => by cases ht)⟩
  · have htake := h.linked.take s.log.disk.length
    rwa [LogManager.all, List.take_left, ← hall] at htake
  · show (s.log.disk.length : ℤ) = ((LogManager.reopen s.log.disk).all.length : ℤ)
    rw [hall]
  · show recordsOf t (LogManager.reopen s.log.disk).all = []
    rw [hall]
    refine List.filter_eq_nil_iff.2 fun r hr hid => ?_
    have hlt := logTid_lt_getNextTxnId hr
    rw [of_decide_eq_true hid] at hlt
    exact absurd ht (not_le.2 hlt)

theorem Inv.step {op : EngineOp} (h : Inv mustEnd s) (hstep : s.step op = some s')
    (hends : s.EndsAfterWrites mustEnd op) : Inv mustEnd s' := by
  cases op with
  | begin =>
    cases hstep
    exact h.begin
  | start t req =>
    simp only [Engine.step] at hstep
    split at hstep
    · cases hstep
    · rename_i txn ht
      split at hstep
      · rename_i hready
        cases hstep
        obtain ⟨q, hconf, htracks⟩ := h.txns t txn ht
        rw [hready.1] at hconf
        obtain ⟨hidle, hdirty⟩ := htracks.idle_of_nil hconf hready.2
        obtain ⟨q', hconf', htracks'⟩ := htracks.start hidle hdirty req fun hreq =>
          hends t (by rw [EngineOp.ends?, if_pos hreq]; rfl) txn ht
        exact h.setTxn (by simp [ht]) hconf' (htracks'.setTodo _)
      · cases hstep
  | act t =>
    simp only [Engine.step] at hstep
    split at hstep
    · cases hstep
    · rename_i txn ht
      split at hstep
      · cases hstep
      · rename_i a todo htodo
        cases hstep
        obtain ⟨q, hconf, htracks⟩ := h.txns t txn ht
        rw [htodo] at hconf
        obtain ⟨q', hq, hconf'⟩ := hconf.cons
        have ht' : s.txns t = some { txn with todo := a :: todo } := by
          rw [ht, ← htodo]
        exact h.perform ht' hq hconf' (htracks.setTodo todo)
  | fail t =>
    simp only [Engine.step] at hstep
    split at hstep
    · cases hstep
    · rename_i txn ht
      split at hstep
      · cases hstep
      · rename_i a todo htodo
        split at hstep
        · rename_i hfail
          cases hstep
          obtain ⟨q, hconf, htracks⟩ := h.txns t txn ht
          rw [htodo] at hconf
          obtain ⟨q', hq, -⟩ := hconf.cons
          have hwhere := Stage.next_canFail hfail hq
          refine h.setTxn (by simp [ht]) (Stage.conforms_abortActions htracks.wrote)
            ((htracks.aborting ?_ (hends t rfl txn ht)).setTodo _)
          rcases hwhere with hidle | hnoted | ⟨op, hlogged, -⟩
          · exact .inl hidle
          · exact .inr (.inl hnoted)
          · exact .inr (.inr ⟨op, hlogged⟩)
        · cases hstep
  | writeBack page =>
    cases hstep
    exact ⟨h.linked, h.lsn, h.fresh, h.pages, h.txns⟩
  | restart =>
    cases hstep
    exact h.restart

theorem inv_init (mustEnd : List LogRecord → Prop) : Inv mustEnd {} :=
  ⟨.nil, rfl, fun _ _ => ⟨rfl, rfl⟩, (fun c hc => by cases hc), (fun t txn ht => by cases ht)⟩

/-- Nothing has to end. -/
abbrev NoEnd (_ : List LogRecord) : Prop := False

theorem endsAfterWrites_noEnd (s : Engine) (op : EngineOp) : s.EndsAfterWrites NoEnd op :=
  fun _ _ _ _ h => h.elim

/-- The invariant holds in every run. -/
theorem Inv.of_run {ops : List EngineOp} (h : Run Steps s ops s') (hs : Inv NoEnd s) :
    Inv NoEnd s' :=
  h.invariant (fun _ _ _ hstep hinv => hinv.step hstep (endsAfterWrites_noEnd _ _)) hs

end Engine

end Rmdb
