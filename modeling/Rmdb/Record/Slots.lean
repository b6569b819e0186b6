import Rmdb.Lib.UndoRedo
import Rmdb.Record.HeapMap

/-!
# The slots of a table file

A slot seen as its bit and its bytes.  The operations on a record id change one slot and keep the
geometry of the file, whatever the free chain looks like; `RmFile.records` is the map of records
that the slots make up.
-/

namespace Rmdb

namespace RmFile

variable {f f' : RmFile} {rid rid' : Rid} {buf : Bytes}

/-- The bit and the bytes of a slot. -/
def slotAt (f : RmFile) (rid : Rid) : Slot Bytes :=
  ⟨Bitmap.isSet (f.pages rid.pageNo).body rid.slotNo.toNat,
    f.hdr.slotBytes (f.pages rid.pageNo).body rid.slotNo.toNat⟩

/-- The geometry of a file, which no operation on a record id changes. -/
def SameShape (f f' : RmFile) : Prop :=
  f'.hdr = { f.hdr with firstFreePageNo := f'.hdr.firstFreePageNo }

theorem SameShape.validRid (h : SameShape f f') : f'.ValidRid rid ↔ f.ValidRid rid := by
  rw [ValidRid, ValidRid, DataPage, DataPage, h]

theorem SameShape.wellFormed (h : SameShape f f') (hf : f.hdr.WellFormed) : f'.hdr.WellFormed := by
  rw [h]
  exact ⟨hf.perPage_pos, hf.bitmapSize, hf.fits⟩

theorem SameShape.recordSize (h : SameShape f f') : f'.hdr.recordSize = f.hdr.recordSize := by
  rw [h]

theorem EditsSlot.slotAt_of_ne (h : EditsSlot f f' rid) (hf : f.hdr.WellFormed)
    (hrid : f.ValidRid rid) (hrid' : f.ValidRid rid') (hne : rid' ≠ rid) :
    f'.slotAt rid' = f.slotAt rid' := by
  have hbytes (body : ℕ → UInt8) (slot : ℕ) : f'.hdr.slotBytes body slot =
      f.hdr.slotBytes body slot := by
    rw [h.hdr]
    rfl
  rw [slotAt, slotAt, hbytes]
  by_cases hp : rid'.pageNo = rid.pageNo
  · have hslot : rid'.slotNo.toNat ≠ rid.slotNo.toNat :=
      fun hs => hne (rid_eq hrid.2.1 hrid'.2.1 hp hs)
    have hlt := slot_lt hrid'
    have hbitmap := hf.bitmapSize
    rw [hp, h.bits _ (by omega) hslot, h.slots _ hslot]
  · rw [h.pages _ hp]

/-- An operation on `rid` that turns its slot into `s`. -/
def Puts (f : RmFile) (rid : Rid) (s : Slot Bytes) (f' : RmFile) : Prop :=
  SameShape f f' ∧ f'.slotAt rid = s ∧ ∀ rid', f.ValidRid rid' → rid' ≠ rid →
    f'.slotAt rid' = f.slotAt rid'

theorem deleteRecord_puts (hf : f.hdr.WellFormed) (hrid : f.ValidRid rid) :
    ∃ f', f.deleteRecord rid = .ok f' ∧ Puts f rid { f.slotAt rid with used := false } f' := by
  have hcleared (next first : ℤ) :
      Puts f rid { f.slotAt rid with used := false } (cleared f rid next first) := by
    have he : EditsSlot f (cleared f rid next first) rid := editsSlot_cleared hf hrid
    refine ⟨he.hdr, ?_, fun rid' hrid' hne => he.slotAt_of_ne hf hrid hrid' hne⟩
    have hpage : (cleared f rid next first).pages rid.pageNo = _ := relinked_pages_self
    rw [slotAt, hpage]
    simp only [Bitmap.isSet_reset, decide_true, Bool.not_true, Bool.false_and]
    exact congrArg (Slot.mk false) (hf.slotBytes_reset (slot_lt hrid))
  refine ⟨_, deleteRecord_eq hrid.1, ?_⟩
  split
  · exact hcleared _ _
  · exact hcleared _ _

theorem insertRecordAt_puts (hf : f.hdr.WellFormed) (hrid : f.ValidRid rid)
    (hbuf : buf.length = f.hdr.recordSize) :
    ∃ f', f.insertRecordAt rid buf = .ok f' ∧ Puts f rid ⟨true, buf⟩ f' := by
  have he : EditsSlot f (filled f rid buf f.hdr.firstFreePageNo) rid := editsSlot_filled hf hrid
  refine ⟨_, insertRecordAt_eq hrid.1, he.hdr, ?_, fun rid' hrid' hne =>
    he.slotAt_of_ne hf hrid hrid' hne⟩
  have hpage : (filled f rid buf f.hdr.firstFreePageNo).pages rid.pageNo = _ := relinked_pages_self
  rw [slotAt, hpage]
  simp only [Bitmap.isSet_set, decide_true, Bool.true_or]
  refine congrArg (Slot.mk true) ?_
  exact (hf.slotBytes_set (slot_lt hrid)).trans (RmFileHdr.slotBytes_memcpy_self hbuf)

theorem updateRecord_puts (hf : f.hdr.WellFormed) (hrid : f.ValidRid rid)
    (hbuf : buf.length = f.hdr.recordSize) :
    ∃ f', f.updateRecord rid buf = .ok f' ∧ Puts f rid { f.slotAt rid with bytes := buf } f' := by
  have he : EditsSlot f (overwritten f rid buf) rid := editsSlot_overwritten rid buf
  refine ⟨_, updateRecord_eq hrid.1, he.hdr, ?_, fun rid' hrid' hne =>
    he.slotAt_of_ne hf hrid hrid' hne⟩
  have hpage : (overwritten f rid buf).pages rid.pageNo = _ := relinked_pages_self
  rw [slotAt, hpage]
  simp only [RmFileHdr.isSet_memcpy (hf.bucket_lt (slot_lt hrid))]
  exact congrArg (Slot.mk _) (RmFileHdr.slotBytes_memcpy_self hbuf)

/-! ## The records of a file -/

instance (f : RmFile) (rid : Rid) : Decidable (f.ValidRid rid) :=
  inferInstanceAs (Decidable ((1 ≤ rid.pageNo ∧ rid.pageNo < f.hdr.numPages) ∧
    0 ≤ rid.slotNo ∧ rid.slotNo < f.hdr.numRecordsPerPage))

/-- The records in the slots that are in use. -/
def records (f : RmFile) (rid : Rid) : Option Bytes :=
  if f.ValidRid rid then (f.slotAt rid).val else none

theorem validRid_of_records (h : f.records rid = some buf) : f.ValidRid rid := by
  unfold records at h
  split at h
  · assumption
  · cases h

theorem records_of_validRid (h : f.ValidRid rid) : f.records rid = (f.slotAt rid).val := if_pos h

theorem length_of_records (h : f.records rid = some buf) : buf.length = f.hdr.recordSize := by
  rw [records_of_validRid (validRid_of_records h), Slot.val] at h
  split at h
  · cases h
    simp [slotAt, RmFileHdr.slotBytes, readBytes]
  · cases h

theorem getRecord_of_records (h : f.records rid = some buf) : f.getRecord rid = .ok buf := by
  have hvalid := validRid_of_records h
  rw [records_of_validRid hvalid, Slot.val] at h
  split at h
  · rw [getRecord, fetchPageHandle_eq hvalid.1]
    exact congrArg Except.ok (Option.some.inj h)
  · cases h

theorem Puts.records {s : Slot Bytes} (h : Puts f rid s f') (hrid : f.ValidRid rid) :
    f'.records = Function.update f.records rid s.val := by
  obtain ⟨hshape, hself, hother⟩ := h
  funext rid'
  by_cases hne : rid' = rid
  · subst hne
    rw [Function.update_self, records_of_validRid (hshape.validRid.2 hrid), hself]
  · rw [Function.update_of_ne hne]
    unfold RmFile.records
    by_cases hvalid : f.ValidRid rid'
    · rw [if_pos hvalid, if_pos (hshape.validRid.2 hvalid), hother rid' hvalid hne]
    · rw [if_neg hvalid, if_neg fun h => hvalid (hshape.validRid.1 h)]

end RmFile

theorem HeapInv.eq_records {f : RmFile} {m : Rid → Option Bytes} (h : HeapInv f m) :
    m = f.records := by
  funext rid
  cases hm : m rid with
  | some buf =>
    obtain ⟨hvalid, hset⟩ := h.isSet_of_live (by rw [hm]; rfl)
    rw [RmFile.records_of_validRid hvalid, Slot.val_of_used hset]
    exact congrArg some (h.data rid buf hm).symm
  | none =>
    unfold RmFile.records
    split
    · rename_i hvalid
      refine (Slot.val_of_not_used ?_).symm
      by_contra hset
      have hlive := (h.live rid).2 ⟨hvalid, eq_true_of_ne_false hset⟩
      rw [hm] at hlive
      cases hlive
    · rfl

/-! ## Files that grow -/

/-- `f'` has the record layout of `f` and at least its pages. -/
structure RmFile.Extends (f f' : RmFile) : Prop where
  recordSize : f'.hdr.recordSize = f.hdr.recordSize
  perPage : f'.hdr.numRecordsPerPage = f.hdr.numRecordsPerPage
  numPages : f.hdr.numPages ≤ f'.hdr.numPages

namespace RmFile.Extends

variable {f f' f'' : RmFile} {rid : Rid} {buf : Bytes} {p : ℤ}

theorem refl (f : RmFile) : f.Extends f := ⟨rfl, rfl, le_rfl⟩

theorem trans (h : f.Extends f') (h' : f'.Extends f'') : f.Extends f'' :=
  ⟨h'.recordSize.trans h.recordSize, h'.perPage.trans h.perPage, h.numPages.trans h'.numPages⟩

theorem validRid (h : f.Extends f') (hrid : f.ValidRid rid) : f'.ValidRid rid := by
  obtain ⟨⟨hone, hlt⟩, hnonneg, hslot⟩ := hrid
  refine ⟨⟨hone, hlt.trans_le h.numPages⟩, hnonneg, ?_⟩
  rw [h.perPage]
  exact hslot

theorem of_sameShape (h : SameShape f f') : f.Extends f' := by
  refine ⟨?_, ?_, ?_⟩ <;> rw [h]

theorem createPageHandle (h : f.createPageHandle = .ok (f', p)) : f.Extends f' := by
  unfold RmFile.createPageHandle at h
  split at h
  · cases h
    exact ⟨rfl, rfl, Int.le_add_one le_rfl⟩
  · unfold fetchPageHandle at h
    split at h
    · cases h
    · cases h
      exact refl f

theorem insertInto : f.Extends (f.insertInto p buf).1 := by
  unfold RmFile.insertInto
  dsimp only
  split
  · exact ⟨rfl, rfl, le_rfl⟩
  · exact ⟨rfl, rfl, le_rfl⟩

theorem deleteRecord (h : f.deleteRecord rid = .ok f') : f.Extends f' := by
  unfold RmFile.deleteRecord fetchPageHandle at h
  split at h
  · cases h
  · simp only [bind, Except.bind, pure, Except.pure] at h
    split at h
    · cases h
      exact ⟨rfl, rfl, le_rfl⟩
    · cases h
      exact ⟨rfl, rfl, le_rfl⟩

theorem updateRecord (h : f.updateRecord rid buf = .ok f') : f.Extends f' := by
  unfold RmFile.updateRecord fetchPageHandle at h
  split at h
  · cases h
  · cases h
    exact ⟨rfl, rfl, le_rfl⟩

end RmFile.Extends

end Rmdb
