import Rmdb.Recovery.LinkedLog

/-!
# One recovery pass computes the committed state

Under strict two-phase locking the operations on one slot form a block for each transaction that
wrote it, and all blocks but the last are of ended transactions.  `SlotInv` says this of a growing
log, record by record.  From it, whatever the slots that the log mentions hold on disk, recovery
leaves in each of them what the committed transactions put there.
-/

namespace Rmdb

open Slot Tables

/-- The value that the committed transactions left in the slot `x`: their operations applied in log
order to an empty slot. -/
def committedValue (logs : List LogRecord) (x : Loc) : Option Bytes :=
  finalValue none (committedOps (committedIn logs) (opsOn x logs))

variable {logs : List LogRecord} {x : Loc} {v c : Option Bytes} {r : LogRecord} {t : TxnId}

theorem Linked.not_aborted (h : Linked logs) (ht : committedIn logs t) :
    abortedIn logs t = false := by
  induction h with
  | nil => rfl
  | @snoc logs r hl _ _ _ hended ih =>
    rw [committedIn_snoc] at ht
    rw [abortedIn_snoc]
    by_cases hr : r.logTid = t
    · subst hr
      obtain ⟨hc, ha⟩ := Bool.or_eq_false_iff.1 hended
      have hbody : r.body = .commit := by simpa [hc] using ht
      simp [ha, hbody]
    · simp only [hr, false_and, decide_false, Bool.or_false] at ht ⊢
      exact ih ht

/-- A transaction writes nothing after its end. -/
theorem Linked.recordsOf_of_ended {logs' : List LogRecord} (h : Linked (logs ++ logs'))
    (ht : endedIn logs t) : recordsOf t logs' = [] := by
  induction logs' using List.reverseRecOn with
  | nil => rfl
  | append_singleton logs' r ih =>
    rw [← List.append_assoc] at h
    obtain ⟨hl, -, -, -, hr⟩ := h.of_snoc
    have hne : r.logTid ≠ t := by
      rintro rfl
      rw [endedIn_mono ht] at hr
      cases hr
    rw [recordsOf_snoc, ih hl, if_neg hne]
    rfl

/-! ## What recovery needs to know of a slot -/

/-- The log's operations on `x` are blocks of transactions that left `c` committed, and a
transaction that has not ended wrote on top of that. -/
structure SlotHistory (logs : List LogRecord) (x : Loc) (c : Option Bytes) : Prop where
  blocks : ∃ bs, opsOn x logs = flatten bs ∧ (bs.map Prod.fst).Nodup ∧
    StrictHistory (committedIn logs) none bs c
  unfinished : ∀ t, endedIn logs t = false →
    opsBy t (opsOn x logs) = [] ∨ ∃ w, Applies c (opsBy t (opsOn x logs)) w

theorem SlotHistory.committedValue_eq (h : SlotHistory logs x c) : committedValue logs x = c := by
  obtain ⟨bs, hbs, -, hstrict⟩ := h.blocks
  rw [committedValue, hbs]
  exact finalValue_committed hstrict

theorem opsBy_ne_nil_of_mem {e : TxnId × SlotOp Bytes} (h : e ∈ opsOn x logs) :
    opsBy e.1 (opsOn x logs) ≠ [] := by
  have hmem : e.2 ∈ opsBy e.1 (opsOn x logs) :=
    List.mem_map.2 ⟨e, List.mem_filter.2 ⟨h, by simp⟩, rfl⟩
  exact List.ne_nil_of_mem hmem

theorem recordsOf_ne_nil_of_mem {e : TxnId × SlotOp Bytes} (h : e ∈ opsOn x logs) :
    recordsOf e.1 logs ≠ [] := by
  obtain ⟨r, hr, hop⟩ := List.mem_filterMap.1 h
  obtain ⟨op, -, rfl⟩ := Option.map_eq_some_iff.1 hop
  exact List.ne_nil_of_mem (List.mem_filter.2 ⟨hr, by simp⟩)

/-- The three passes leave the committed value in a slot that the log mentions or that is empty. -/
theorem SlotHistory.val_recover (h : SlotHistory logs x c) {s : Slot Bytes} {ts : List TxnId}
    (hts : ∀ t, t ∈ ts ↔ recordsOf t logs ≠ []) (hs : s.val = none ∨ opsOn x logs ≠ []) :
    (undoTxns (opsOn x logs) (ts.filter fun t => ¬ endedIn logs t)
      ((undoTxns (opsOn x logs) ts s).redoAll
        (committedOps (committedIn logs) (opsOn x logs)))).val =
      c := by
  obtain ⟨bs, hbs, hnodup, hstrict⟩ := h.blocks
  refine val_undoTxns (fun t ht => ?_) ?_
  · exact h.unfinished t (by simpa using (List.mem_filter.1 ht).2)
  by_cases hnil : committedOps (committedIn logs) (opsOn x logs) = []
  · -- nothing is redone: undoing all transactions has emptied the slot
    have hc : c = none := by
      rw [← h.committedValue_eq, committedValue, hnil]
      rfl
    rw [hnil, hc]
    refine val_undoTxns_of_none (fun t _ => ?_) ?_
    · by_cases hmem : t ∈ bs.map Prod.fst
      · obtain ⟨b, hb, rfl⟩ := List.mem_map.1 hmem
        right
        rw [hbs, opsBy_flatten_of_mem hnodup hb]
        exact hstrict.applies_none (hbs ▸ hnil) hb
      · left
        rw [hbs, opsBy_flatten_of_not_mem hmem]
    · refine hs.imp_right fun hne => ?_
      obtain ⟨e, he⟩ := List.exists_mem_of_ne_nil _ hne
      exact ⟨e.1, (hts _).2 (recordsOf_ne_nil_of_mem he), opsBy_ne_nil_of_mem he⟩
  · rw [hbs] at hnil ⊢
    exact val_redo_committed_of_ne_nil hstrict hnil

/-- Recovery on the tables: the slots that the log mentions, and those that are empty, get their
committed value. -/
theorem recover_committed {tabs : Tables} (h : Linked logs) (hfits : ∀ r ∈ logs, r.Fits tabs) :
    ∃ tabs', recover logs tabs = some tabs' ∧ Frame tabs tabs' ∧
      ∀ x c, tabs.ValidLoc x → SlotHistory logs x c →
        (tabs.slot x).val = none ∨ opsOn x logs ≠ [] →
        (tabs'.slot x).val = committedValue logs x := by
  obtain ⟨tabs', ts, hrec, hframe, hts, hslot⟩ := recover_spec h hfits
  refine ⟨tabs', hrec, hframe, fun x c hx hhist hempty => ?_⟩
  have hcommitted : (fun t => committedIn logs t && !abortedIn logs t) = committedIn logs := by
    funext t
    cases ht : committedIn logs t with
    | false => rfl
    | true => simp [h.not_aborted ht]
  rw [hslot x hx, hcommitted, hhist.committedValue_eq]
  exact hhist.val_recover hts hempty

/-! ## A growing log -/

/-- The blocks of ended transactions on `x` left `c` committed, and at most one transaction that has
not ended wrote `x` after them; `v` is what `x` holds. -/
structure SlotInv (logs : List LogRecord) (x : Loc) (v : Option Bytes) : Prop where
  blocks : ∃ (bs : List (TxnId × List (SlotOp Bytes))) (c : Option Bytes)
    (last : Option (TxnId × List (SlotOp Bytes))),
    opsOn x logs = flatten (bs ++ last.toList) ∧ ((bs ++ last.toList).map Prod.fst).Nodup ∧
    (∀ b ∈ bs, endedIn logs b.1) ∧ StrictHistory (committedIn logs) none bs c ∧
    (last = none → v = c) ∧
    ∀ b, last = some b → b.2 ≠ [] ∧ endedIn logs b.1 = false ∧ Applies c b.2 v

theorem SlotInv.history (h : SlotInv logs x v) : ∃ c, SlotHistory logs x c := by
  obtain ⟨bs, c, last, hops, hnodup, hended, hstrict, hnone, hsome⟩ := h.blocks
  refine ⟨c, ⟨_, hops, hnodup, ?_⟩, fun t ht => ?_⟩
  · cases last with
    | none => simpa using hstrict
    | some b =>
      obtain ⟨hne, hb, ha⟩ := hsome b rfl
      have hsnoc := hstrict.snoc (t := b.1) hne ha
      have hcommitted : committedIn logs b.1 = false := (Bool.or_eq_false_iff.1 hb).1
      rwa [hcommitted] at hsnoc
  · rw [hops]
    by_cases hmem : t ∈ (bs ++ last.toList).map Prod.fst
    · obtain ⟨b, hb, rfl⟩ := List.mem_map.1 hmem
      rw [opsBy_flatten_of_mem hnodup hb]
      rcases List.mem_append.1 hb with hb | hb
      · rw [hended b hb] at ht
        cases ht
      · exact .inr ⟨v, (hsome b (Option.mem_toList.1 hb)).2.2⟩
    · exact .inl (opsBy_flatten_of_not_mem hmem)

/-- What a transaction that has not ended did to a slot is on top of everything else. -/
theorem SlotInv.applies (h : SlotInv logs x v) (ht : endedIn logs t = false) :
    opsBy t (opsOn x logs) = [] ∨ ∃ c, Applies c (opsBy t (opsOn x logs)) v := by
  obtain ⟨bs, c, last, hops, hnodup, hended, -, -, hsome⟩ := h.blocks
  rw [hops]
  by_cases hmem : t ∈ (bs ++ last.toList).map Prod.fst
  · obtain ⟨b, hb, rfl⟩ := List.mem_map.1 hmem
    rw [opsBy_flatten_of_mem hnodup hb]
    rcases List.mem_append.1 hb with hb | hb
    · rw [hended b hb] at ht
      cases ht
    · exact .inr ⟨c, (hsome b (Option.mem_toList.1 hb)).2.2⟩
  · exact .inl (opsBy_flatten_of_not_mem hmem)

/-- At most one transaction that has not ended has operations on a slot. -/
theorem SlotInv.unfinished_unique {t' : TxnId} (h : SlotInv logs x v) (ht : endedIn logs t = false)
    (ht' : endedIn logs t' = false) (hne : opsBy t (opsOn x logs) ≠ [])
    (hne' : opsBy t' (opsOn x logs) ≠ []) : t = t' := by
  obtain ⟨bs, c, last, hops, hnodup, hended, -, -, -⟩ := h.blocks
  have hlast {t : TxnId} (ht : endedIn logs t = false) (hne : opsBy t (opsOn x logs) ≠ []) :
      ∃ b, last = some b ∧ b.1 = t := by
    have hmem : t ∈ (bs ++ last.toList).map Prod.fst := by
      by_contra hnot
      exact hne (hops ▸ opsBy_flatten_of_not_mem hnot)
    obtain ⟨b, hb, rfl⟩ := List.mem_map.1 hmem
    rcases List.mem_append.1 hb with hb | hb
    · rw [hended b hb] at ht
      cases ht
    · exact ⟨b, Option.mem_toList.1 hb, rfl⟩
  obtain ⟨b, hb, rfl⟩ := hlast ht hne
  obtain ⟨b', hb', rfl⟩ := hlast ht' hne'
  rw [hb] at hb'
  exact congrArg Prod.fst (Option.some.inj hb')

/-- Once all its writers have ended, a slot holds its committed value. -/
theorem SlotInv.eq_committedValue (h : SlotInv logs x v)
    (hended : ∀ t, opsBy t (opsOn x logs) ≠ [] → endedIn logs t) : v = committedValue logs x := by
  obtain ⟨bs, c, last, hops, hnodup, -, hstrict, hnone, hsome⟩ := h.blocks
  cases last with
  | none =>
    rw [hnone rfl, committedValue, hops, Option.toList_none, List.append_nil]
    exact (finalValue_committed hstrict).symm
  | some b =>
    obtain ⟨hne, hb, -⟩ := hsome b rfl
    have hmem : b ∈ bs ++ (some b).toList := by simp
    have hend := hended b.1 (by rwa [hops, opsBy_flatten_of_mem hnodup hmem])
    rw [hb] at hend
    cases hend

theorem opsOn_snoc (x : Loc) (logs : List LogRecord) (r : LogRecord) :
    opsOn x (logs ++ [r]) = opsOn x logs ++ (r.opAt x).toList.map fun op => (r.logTid, op) := by
  rw [opsOn_append]
  cases hop : r.opAt x <;> simp [opsOn, hop]

theorem opAt_of_end (h : r.body = .commit ∨ r.body = .abort) : r.opAt x = none := by
  rcases h with h | h <;> simp [LogRecord.opAt, h, LogBody.op?]

/-- What `x` holds once the record has been written: the operation's after-image, or what was there
before the transaction when it is rolled back. -/
def valueAfter (logs : List LogRecord) (r : LogRecord) (x : Loc) (v : Option Bytes) :
    Option Bytes :=
  if r.body = .abort then initialValue v (opsBy r.logTid (opsOn x logs))
  else match r.opAt x with
    | some op => op.after
    | none => v

namespace SlotInv

theorem nil (x : Loc) : SlotInv [] x none :=
  ⟨[], none, none, rfl, List.nodup_nil, by simp, rfl, fun _ => rfl, by simp⟩

/-- The ended blocks stay as they are when a transaction that has not ended writes a record. -/
theorem snoc_blocks {bs : List (TxnId × List (SlotOp Bytes))} (hr : endedIn logs r.logTid = false)
    (hended : ∀ b ∈ bs, endedIn logs b.1) (hstrict : StrictHistory (committedIn logs) none bs c) :
    (∀ b ∈ bs, endedIn (logs ++ [r]) b.1) ∧
      StrictHistory (committedIn (logs ++ [r])) none bs c := by
  refine ⟨fun b hb => endedIn_mono (hended b hb), hstrict.congr fun b hb => ?_⟩
  refine committedIn_snoc_of_ne fun heq => ?_
  rw [heq, hended b hb] at hr
  cases hr

/-- A record that is not about `x`, of a transaction that did not write `x` or does not end here. -/
theorem snoc_other (h : SlotInv logs x v) (hr : endedIn logs r.logTid = false)
    (hop : r.opAt x = none)
    (hend : (r.body ≠ .commit ∧ r.body ≠ .abort) ∨ opsBy r.logTid (opsOn x logs) = []) :
    SlotInv (logs ++ [r]) x v := by
  obtain ⟨bs, c, last, hops, hnodup, hended, hstrict, hnone, hsome⟩ := h.blocks
  obtain ⟨hended', hstrict'⟩ := snoc_blocks hr hended hstrict
  refine ⟨bs, c, last, ?_, hnodup, hended', hstrict', hnone, fun b hb => ?_⟩
  · rw [opsOn_snoc, hop, hops]
    simp
  · obtain ⟨hne, hbend, ha⟩ := hsome b hb
    refine ⟨hne, ?_, ha⟩
    by_cases heq : r.logTid = b.1
    · rcases hend with ⟨hc, ha⟩ | hnil
      · rw [endedIn_snoc_of_body hc ha, hbend]
      · have hmem : b ∈ bs ++ last.toList := by simp [hb]
        rw [heq, hops, opsBy_flatten_of_mem hnodup hmem] at hnil
        exact absurd hnil hne
    · rw [endedIn_snoc_of_ne heq, hbend]

/-- The end of the transaction that last wrote `x`. -/
theorem snoc_end (h : SlotInv logs x v) (hr : endedIn logs r.logTid = false)
    (hend : r.body = .commit ∨ r.body = .abort) (hne : opsBy r.logTid (opsOn x logs) ≠ []) :
    SlotInv (logs ++ [r]) x
      (if r.body = .commit then v else initialValue v (opsBy r.logTid (opsOn x logs))) := by
  obtain ⟨bs, c, last, hops, hnodup, hended, hstrict, hnone, hsome⟩ := h.blocks
  obtain ⟨hended', hstrict'⟩ := snoc_blocks hr hended hstrict
  -- the transaction has not ended, so its block is the last one
  have hmem : r.logTid ∈ (bs ++ last.toList).map Prod.fst := by
    by_contra hnot
    exact hne (hops ▸ opsBy_flatten_of_not_mem hnot)
  obtain ⟨b, hb, hbr⟩ := List.mem_map.1 hmem
  rcases List.mem_append.1 hb with hb' | hb'
  · rw [← hbr, hended b hb'] at hr
    cases hr
  · have hlast := Option.mem_toList.1 hb'
    obtain rfl : last = some b := hlast
    obtain ⟨hbne, -, ha⟩ := hsome b rfl
    have hbops : opsBy r.logTid (opsOn x logs) = b.2 := by
      rw [hops, ← hbr]
      exact opsBy_flatten_of_mem hnodup hb
    have hcommitted : committedIn (logs ++ [r]) b.1 = decide (r.body = .commit) := by
      rw [committedIn_snoc, hbr, (Bool.or_eq_false_iff.1 hr).1]
      simp
    have hsnoc := hstrict'.snoc (t := b.1) hbne ha
    rw [hcommitted] at hsnoc
    refine ⟨bs ++ [b], _, none, ?_, ?_, fun b' hb' => ?_, hsnoc, fun _ => ?_, by simp⟩
    · rw [opsOn_snoc, opAt_of_end hend, hops]
      simp
    · simpa using hnodup
    · rcases List.mem_append.1 hb' with hb' | hb'
      · exact hended' b' hb'
      · rw [List.mem_singleton.1 hb', hbr]
        rcases hend with hb | hb <;> simp [endedIn, committedIn_snoc, abortedIn_snoc, hb]
    · rw [hbops, initialValue_eq ha]
      simp

/-- A write to `x`, under the lock. -/
theorem snoc_op {op : SlotOp Bytes} (h : SlotInv logs x v) (hr : endedIn logs r.logTid = false)
    (hop : r.opAt x = some op) (hbefore : op.before = v)
    (hlock : ∀ t, opsBy t (opsOn x logs) ≠ [] → t = r.logTid ∨ endedIn logs t) :
    SlotInv (logs ++ [r]) x op.after := by
  have hbody : r.body ≠ .commit ∧ r.body ≠ .abort := by
    constructor <;> intro hb <;> simp [LogRecord.opAt, hb, LogBody.op?] at hop
  obtain ⟨bs, c, last, hops, hnodup, hended, hstrict, hnone, hsome⟩ := h.blocks
  obtain ⟨hended', hstrict'⟩ := snoc_blocks hr hended hstrict
  have hrend : endedIn (logs ++ [r]) r.logTid = false := by
    rw [endedIn_snoc_of_body hbody.1 hbody.2, hr]
  have hnot : r.logTid ∉ bs.map Prod.fst := by
    intro hmem
    obtain ⟨b, hb, hbr⟩ := List.mem_map.1 hmem
    rw [← hbr, hended b hb] at hr
    cases hr
  cases last with
  | none =>
    refine ⟨bs, c, some (r.logTid, [op]), ?_, ?_, hended', hstrict', by simp, ?_⟩
    · rw [opsOn_snoc, hop, hops]
      simp [flatten]
    · simp only [Option.toList_none, List.append_nil] at hnodup
      simp only [Option.toList_some, List.map_append, List.map_cons, List.map_nil]
      exact List.nodup_append.2 ⟨hnodup, List.nodup_singleton _, by grind⟩
    · rintro b ⟨⟩
      exact ⟨by simp, hrend, hbefore.trans (hnone rfl), rfl⟩
  | some b =>
    obtain ⟨hbne, hbend, ha⟩ := hsome b rfl
    have hmem : b ∈ bs ++ (some b).toList := by simp
    have hbr : b.1 = r.logTid := by
      have hops' : opsBy b.1 (opsOn x logs) ≠ [] := by
        rw [hops, opsBy_flatten_of_mem hnodup hmem]
        exact hbne
      rcases hlock b.1 hops' with heq | hb
      · exact heq
      · rw [hbend] at hb
        cases hb
    refine ⟨bs, c, some (b.1, b.2 ++ [op]), ?_, ?_, hended', hstrict', by simp, ?_⟩
    · rw [opsOn_snoc, hop, hops]
      simp [flatten, hbr]
    · simpa using hnodup
    · rintro b' ⟨⟩
      refine ⟨by simp, ?_, ha.snoc hbefore rfl⟩
      rw [hbr]
      exact hrend

/-- Any record of a transaction that has not ended, written under the locks. -/
theorem snoc (h : SlotInv logs x v) (hr : endedIn logs r.logTid = false)
    (hwrite : ∀ op, r.opAt x = some op → op.before = v ∧
      ∀ t, opsBy t (opsOn x logs) ≠ [] → t = r.logTid ∨ endedIn logs t) :
    SlotInv (logs ++ [r]) x (valueAfter logs r x v) := by
  unfold valueAfter
  by_cases hend : r.body = .commit ∨ r.body = .abort
  · by_cases hnil : opsBy r.logTid (opsOn x logs) = []
    · have hkeep := h.snoc_other hr (opAt_of_end hend) (.inr hnil)
      rw [hnil, opAt_of_end hend]
      simpa [initialValue] using hkeep
    · have hsnoc := h.snoc_end hr hend hnil
      rcases hend with hb | hb
      · rw [opAt_of_end (.inl hb)]
        simpa [hb] using hsnoc
      · simpa [hb] using hsnoc
  · obtain ⟨hc, ha⟩ := not_or.1 hend
    rw [if_neg ha]
    cases hop : r.opAt x with
    | none => exact h.snoc_other hr hop (.inl ⟨hc, ha⟩)
    | some op =>
      obtain ⟨hbefore, hlock⟩ := hwrite op hop
      exact h.snoc_op hr hop hbefore hlock

end SlotInv

/-! ## Complete logs -/

/-- The values that the slots hold while a log is written from an empty database on: every
before-image is the value the slot had at that point, and no transaction writes a slot written by
another one that has not ended. -/
inductive LogValues : List LogRecord → (Loc → Option Bytes) → Prop
  | nil : LogValues [] fun _ => none
  | snoc {logs : List LogRecord} {cur : Loc → Option Bytes} {r : LogRecord} : LogValues logs cur →
      (∀ x op, r.opAt x = some op → op.before = cur x ∧
        ∀ t, opsBy t (opsOn x logs) ≠ [] → t = r.logTid ∨ endedIn logs t) →
      LogValues (logs ++ [r]) fun x => valueAfter logs r x (cur x)

theorem LogValues.slotInv {cur : Loc → Option Bytes} (h : LogValues logs cur) (hl : Linked logs)
    (x : Loc) : SlotInv logs x (cur x) := by
  induction h with
  | nil => exact SlotInv.nil x
  | @snoc logs cur r hvalues hwrite ih =>
    obtain ⟨hl', -, -, -, hended⟩ := hl.of_snoc
    exact (ih hl').snoc hended (hwrite x)

/-- Recovery after a complete log: every slot holds its committed value. -/
theorem recover_values {logs : List LogRecord} {cur : Loc → Option Bytes} {tabs : Tables}
    (hlinked : Linked logs) (hvalues : LogValues logs cur) (hfits : ∀ r ∈ logs, r.Fits tabs)
    (hempty : ∀ x, tabs.ValidLoc x → opsOn x logs = [] → (tabs.slot x).used = false) :
    ∃ tabs', recover logs tabs = some tabs' ∧ Frame tabs tabs' ∧
      ∀ x, tabs.ValidLoc x → (tabs'.slot x).val = committedValue logs x := by
  obtain ⟨tabs', hrec, hframe, hslot⟩ := recover_committed hlinked hfits
  refine ⟨tabs', hrec, hframe, fun x hx => ?_⟩
  obtain ⟨c, hhist⟩ := (hvalues.slotInv hlinked x).history
  refine hslot x c hx hhist ?_
  by_cases hops : opsOn x logs = []
  · exact .inl (val_of_not_used (hempty x hx hops))
  · exact .inr hops

end Rmdb
