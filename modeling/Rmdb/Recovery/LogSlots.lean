import Rmdb.Record.Slots
import Rmdb.Recovery.RecoveryManager

/-!
# Recovery, seen from one slot

What recovery does to a slot of a table depends only on the log records about this slot: the passes
of `rollback` undo the operations of one transaction after the other, and the loop of `redo` replays
those of the committed ones.
-/

namespace Rmdb

/-- A slot of a table. -/
abbrev Loc := String × Rid

namespace Tables

open RmFile

variable {tabs tabs' : Tables} {x y : Loc} {f : RmFile}

/-- The slot `x` exists. -/
def ValidLoc (tabs : Tables) (x : Loc) : Prop :=
  ∃ f, tabs x.1 = some f ∧ f.hdr.WellFormed ∧ f.ValidRid x.2

/-- The slot `x`, of an open table. -/
def slot (tabs : Tables) (x : Loc) : Slot Bytes :=
  match tabs x.1 with
  | none => ⟨false, []⟩
  | some f => f.slotAt x.2

/-- The bytes fit the records of the table. -/
def FitsLoc (tabs : Tables) (x : Loc) (buf : Bytes) : Prop :=
  ∀ f, tabs x.1 = some f → buf.length = f.hdr.recordSize

/-- `tabs'` is `tabs` with the slot `x` set to `s`. -/
structure Sets (tabs : Tables) (x : Loc) (s : Slot Bytes) (tabs' : Tables) : Prop where
  valid : ∀ y, tabs'.ValidLoc y ↔ tabs.ValidLoc y
  fits : ∀ y buf, tabs'.FitsLoc y buf ↔ tabs.FitsLoc y buf
  slot : ∀ y, tabs.ValidLoc y → tabs'.slot y = if y = x then s else tabs.slot y

theorem sets_update {s : Slot Bytes} {f' : RmFile} (hf : tabs x.1 = some f) (h : Puts f x.2 s f') :
    Sets tabs x s (Function.update tabs x.1 (some f')) := by
  obtain ⟨hshape, hself, hother⟩ := h
  refine ⟨fun y => ?_, fun y buf => ?_, fun y hy => ?_⟩
  · by_cases hy : y.1 = x.1
    · simp only [ValidLoc, hy, Function.update_self, hf]
      constructor
      · rintro ⟨_, ⟨⟩, hwf, hrid⟩
        refine ⟨f, rfl, ?_, hshape.validRid.1 hrid⟩
        rw [hshape] at hwf
        exact ⟨hwf.perPage_pos, hwf.bitmapSize, hwf.fits⟩
      · rintro ⟨_, ⟨⟩, hwf, hrid⟩
        exact ⟨f', rfl, hshape.wellFormed hwf, hshape.validRid.2 hrid⟩
    · simp only [ValidLoc, Function.update_of_ne hy]
  · by_cases hy : y.1 = x.1
    · simp [FitsLoc, hy, hf, hshape.recordSize]
    · simp only [FitsLoc, Function.update_of_ne hy]
  · obtain ⟨g, hg, -, hrid⟩ := hy
    by_cases hy : y.1 = x.1
    · have hfg : g = f := by
        rw [hy, hf] at hg
        exact (Option.some.inj hg).symm
      subst hfg
      by_cases hxy : y = x
      · subst hxy
        simp [slot, hself]
      · have hne : y.2 ≠ x.2 := fun h => hxy (Prod.ext hy h)
        simp only [slot, hy, hf, Function.update_self, if_neg hxy]
        exact hother y.2 hrid hne
    · have hxy : y ≠ x := fun h => hy (h ▸ rfl)
      simp only [slot, Function.update_of_ne hy, if_neg hxy]

/-- The tables keep their shape. -/
structure Frame (tabs tabs' : Tables) : Prop where
  valid : ∀ y, tabs'.ValidLoc y ↔ tabs.ValidLoc y
  fits : ∀ y buf, tabs'.FitsLoc y buf ↔ tabs.FitsLoc y buf

theorem Frame.refl (tabs : Tables) : Frame tabs tabs :=
  ⟨fun _ => Iff.rfl, fun _ _ => Iff.rfl⟩

theorem Frame.symm (h : Frame tabs tabs') : Frame tabs' tabs :=
  ⟨fun y => (h.valid y).symm, fun y buf => (h.fits y buf).symm⟩

theorem Frame.trans {tabs'' : Tables} (h : Frame tabs tabs') (h' : Frame tabs' tabs'') :
    Frame tabs tabs'' :=
  ⟨fun y => (h'.valid y).trans (h.valid y), fun y buf => (h'.fits y buf).trans (h.fits y buf)⟩

theorem Sets.frame {s : Slot Bytes} (h : Sets tabs x s tabs') : Frame tabs tabs' :=
  ⟨h.valid, h.fits⟩

theorem modify_of_ok {op : RmFile → Except RmError RmFile} {f' : RmFile} (hf : tabs x.1 = some f)
    (hop : op f = .ok f') : tabs.modify x.1 op = Function.update tabs x.1 (some f') := by
  simp only [modify, hf, hop]

theorem redoModify_of_ok {op : RmFile → Except RmError RmFile} {f' : RmFile}
    (hf : tabs x.1 = some f)
    (hop : op f = .ok f') : redoModify tabs x.1 op = .ok (Function.update tabs x.1 (some f')) := by
  simp only [redoModify, hf, hop]
  rfl

theorem slot_of_some (hf : tabs x.1 = some f) : tabs.slot x = f.slotAt x.2 := by
  simp only [slot, hf]

end Tables

/-! ## Single records -/

/-- The operation on a slot that a record is about. -/
def LogBody.op? : LogBody → Option (Loc × SlotOp Bytes)
  | .insert tabName rid insertValue => some ((tabName, rid), .insert insertValue)
  | .delete tabName rid deleteValue => some ((tabName, rid), .delete deleteValue)
  | .update tabName rid updateValue nowValue => some ((tabName, rid), .update updateValue nowValue)
  | _ => none

/-- The operation of a record on the slot `x`. -/
def LogRecord.opAt (x : Loc) (log : LogRecord) : Option (SlotOp Bytes) :=
  log.body.op?.bind fun e => if e.1 = x then some e.2 else none

/-- The images in an operation fit the table. -/
def SlotOp.Fits (tabs : Tables) (x : Loc) : SlotOp Bytes → Prop
  | .insert v => tabs.FitsLoc x v
  | .delete old => tabs.FitsLoc x old
  | .update old new => tabs.FitsLoc x old ∧ tabs.FitsLoc x new

/-- The slot that a record is about exists, and its images fit. -/
def LogRecord.Fits (tabs : Tables) (log : LogRecord) : Prop :=
  ∀ x op, log.body.op? = some (x, op) → tabs.ValidLoc x ∧ op.Fits tabs x

/-- What `rollback` does with one record. -/
def undoLog (tabs : Tables) (log : LogRecord) : Tables :=
  match log.body with
  | .insert tabName rid _ => tabs.modify tabName (·.deleteRecord rid)
  | .update tabName rid updateValue _ => tabs.modify tabName (·.updateRecord rid updateValue)
  | .delete tabName rid deleteValue => tabs.modify tabName (·.insertRecordAt rid deleteValue)
  | _ => tabs

section Records

open Tables RmFile

variable {tabs tabs' : Tables} {log : LogRecord} {logs : List LogRecord} {x y : Loc}

theorem LogRecord.Fits.frame (h : log.Fits tabs) (hframe : Frame tabs tabs') : log.Fits tabs' := by
  intro x op hop
  obtain ⟨hvalid, hfits⟩ := h x op hop
  refine ⟨(hframe.valid x).2 hvalid, ?_⟩
  cases op with
  | insert v => exact (hframe.fits x v).2 hfits
  | delete old => exact (hframe.fits x old).2 hfits
  | update old new => exact ⟨(hframe.fits x old).2 hfits.1, (hframe.fits x new).2 hfits.2⟩

theorem undoLog_of_none (h : log.body.op? = none) : undoLog tabs log = tabs := by
  unfold undoLog
  cases hb : log.body <;> simp_all [LogBody.op?]

theorem undoLog_sets {op : SlotOp Bytes} (h : log.Fits tabs) (hop : log.body.op? = some (x, op)) :
    Sets tabs x ((tabs.slot x).undo op) (undoLog tabs log) := by
  obtain ⟨⟨f, hf, hwf, hrid⟩, hfits⟩ := h x op hop
  rw [slot_of_some hf]
  unfold undoLog
  cases hb : log.body with
  | insert tabName rid v =>
    rw [hb] at hop
    cases hop
    obtain ⟨f', hf', hputs⟩ := deleteRecord_puts hwf hrid
    have hmodify : tabs.modify tabName (·.deleteRecord rid) = _ := modify_of_ok hf hf'
    simp only [hmodify]
    exact sets_update hf hputs
  | update tabName rid old new =>
    rw [hb] at hop
    cases hop
    obtain ⟨f', hf', hputs⟩ := updateRecord_puts hwf hrid (hfits.1 f hf)
    have hmodify : tabs.modify tabName (·.updateRecord rid old) = _ := modify_of_ok hf hf'
    simp only [hmodify]
    exact sets_update hf hputs
  | delete tabName rid old =>
    rw [hb] at hop
    cases hop
    obtain ⟨f', hf', hputs⟩ := insertRecordAt_puts hwf hrid (hfits f hf)
    have hmodify : tabs.modify tabName (·.insertRecordAt rid old) = _ := modify_of_ok hf hf'
    simp only [hmodify]
    exact sets_update hf hputs
  | _ =>
    rw [hb] at hop
    cases hop

/-- Undoing a record, seen from any slot. -/
theorem undoLog_spec (h : log.Fits tabs) : Frame tabs (undoLog tabs log) ∧
    ∀ y, tabs.ValidLoc y →
      (undoLog tabs log).slot y = (tabs.slot y).undoAll (log.opAt y).toList := by
  cases hop : log.body.op? with
  | none =>
    rw [undoLog_of_none hop]
    refine ⟨Frame.refl tabs, fun y _ => ?_⟩
    simp [LogRecord.opAt, hop, Slot.undoAll]
  | some e =>
    have hsets := undoLog_sets h hop
    refine ⟨hsets.frame, fun y hy => ?_⟩
    rw [hsets.slot y hy]
    by_cases hyx : y = e.1
    · subst hyx
      simp [LogRecord.opAt, hop, Slot.undoAll]
    · simp [LogRecord.opAt, hop, Slot.undoAll, hyx, Ne.symm hyx]

/-- Undoing records from the last to the first. -/
def undoLogs (logs : List LogRecord) (tabs : Tables) : Tables :=
  logs.foldr (fun log tabs => undoLog tabs log) tabs

theorem undoLogs_spec (h : ∀ log ∈ logs, log.Fits tabs) : Frame tabs (undoLogs logs tabs) ∧
    ∀ y, tabs.ValidLoc y →
      (undoLogs logs tabs).slot y = (tabs.slot y).undoAll (logs.filterMap (·.opAt y)) := by
  induction logs with
  | nil => exact ⟨Frame.refl tabs, fun _ _ => rfl⟩
  | cons log logs ih =>
    obtain ⟨hframe, hslot⟩ := ih fun log' hlog' => h log' (List.mem_cons_of_mem _ hlog')
    obtain ⟨hframe', hslot'⟩ := undoLog_spec ((h log List.mem_cons_self).frame hframe)
    refine ⟨hframe.trans hframe', fun y hy => ?_⟩
    have hstep : undoLogs (log :: logs) tabs = undoLog (undoLogs logs tabs) log := rfl
    rw [hstep, hslot' y ((hframe.valid y).2 hy), hslot y hy]
    cases hop : log.opAt y <;> simp [hop, Slot.undoAll]

/-- Redoing a record of a committed transaction, seen from any slot. -/
theorem redoLog_spec {a : Analysis} (h : log.Fits tabs) : ∃ tabs', redoLog a tabs log = .ok tabs' ∧
    Frame tabs tabs' ∧ ∀ y, tabs.ValidLoc y → tabs'.slot y = (tabs.slot y).redoAll
      (if log.logTid ∈ a.abortedTxns ∨ log.logTid ∉ a.committedTxns then []
        else (log.opAt y).toList) := by
  unfold redoLog
  split
  · exact ⟨tabs, rfl, Frame.refl tabs, fun y _ => rfl⟩
  · cases hop : log.body.op? with
    | none =>
      refine ⟨tabs, ?_, Frame.refl tabs, fun y _ => ?_⟩
      · cases hb : log.body <;> simp_all [LogBody.op?] <;> rfl
      · simp [LogRecord.opAt, hop, Slot.redoAll]
    | some e =>
      obtain ⟨x, op⟩ := e
      suffices hsets : ∃ tabs', _ = Except.ok tabs' ∧ Sets tabs x ((tabs.slot x).redo op) tabs' by
        obtain ⟨tabs', heq, hsets⟩ := hsets
        refine ⟨tabs', heq, hsets.frame, fun y hy => ?_⟩
        rw [hsets.slot y hy]
        by_cases hyx : y = x
        · subst hyx
          simp [LogRecord.opAt, hop, Slot.redoAll]
        · simp [LogRecord.opAt, hop, Slot.redoAll, hyx, Ne.symm hyx]
      obtain ⟨⟨f, hf, hwf, hrid⟩, hfits⟩ := h x op hop
      rw [slot_of_some hf]
      cases hb : log.body with
      | insert tabName rid v =>
        rw [hb] at hop
        cases hop
        obtain ⟨f', hf', hputs⟩ := insertRecordAt_puts hwf hrid (hfits f hf)
        refine ⟨_, ?_, sets_update hf hputs⟩
        simp only at hf hf'
        simp only [hf, hf']
        rfl
      | update tabName rid old new =>
        rw [hb] at hop
        cases hop
        obtain ⟨f', hf', hputs⟩ := updateRecord_puts hwf hrid (hfits.2 f hf)
        exact ⟨_, redoModify_of_ok hf hf', sets_update hf hputs⟩
      | delete tabName rid old =>
        rw [hb] at hop
        cases hop
        obtain ⟨f', hf', hputs⟩ := deleteRecord_puts hwf hrid
        exact ⟨_, redoModify_of_ok hf hf', sets_update hf hputs⟩
      | _ =>
        rw [hb] at hop
        cases hop

end Records

end Rmdb
