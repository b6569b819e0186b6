import Rmdb.Record.HeapFile

/-!
# What the record operations do to a page

The bitmap and the slots of a page do not overlap, and neither do two slots.  Each operation on one
record id is an `EditsSlot`: it changes the slot, its bit, the counter and the link of its page and
the head of the free chain, and nothing else.
-/

namespace Rmdb

/-! ## Bytes of a page -/

section Bytes

variable {body : ℕ → UInt8} {buf : Bytes} {i offset offset' size pos : ℕ}

theorem readBytes_memcpy (h : buf.length = size) :
    readBytes (memcpy body offset buf size) offset size = buf := by
  refine List.ext_getElem (by simp [readBytes, h]) fun i h₁ h₂ => ?_
  simp [readBytes, memcpy, ← h, h₂]

theorem readBytes_congr {body' : ℕ → UInt8}
    (h : ∀ i, offset ≤ i → i < offset + size → body' i = body i) :
    readBytes body' offset size = readBytes body offset size := by
  refine List.map_congr_left fun i hi => ?_
  have hi := List.mem_range.1 hi
  exact h _ (by omega) (by omega)

theorem memcpy_of_lt (h : i < offset) : memcpy body offset buf size i = body i :=
  if_neg fun hi => by omega

theorem memcpy_of_le (h : offset + size ≤ i) : memcpy body offset buf size i = body i :=
  if_neg fun hi => by omega

end Bytes

/-! ## The layout of a page -/

/-- The geometry that `create_file` computes. -/
structure RmFileHdr.WellFormed (hdr : RmFileHdr) : Prop where
  perPage_pos : 0 < hdr.numRecordsPerPage
  bitmapSize : hdr.bitmapSize = (hdr.numRecordsPerPage + 8 - 1) / 8
  fits : RM_PAGE_PREFIX + hdr.bitmapSize + hdr.numRecordsPerPage * hdr.recordSize ≤ PAGE_SIZE

theorem createFile_wellFormed {size : ℤ} {hdr : RmFileHdr} (h : createFile size = .ok hdr) :
    hdr.WellFormed ∧ hdr.numPages = 1 ∧ hdr.firstFreePageNo = RM_NO_PAGE := by
  unfold createFile at h
  split at h
  · cases h
  · rename_i hsize
    cases h
    have hmax : RM_MAX_RECORD_SIZE = 512 := rfl
    obtain ⟨k, rfl⟩ : ∃ k : ℕ, size = k := ⟨size.toNat, by omega⟩
    have hk : 1 ≤ k ∧ k ≤ 512 := by omega
    have hpage : 8 * (PAGE_SIZE - 1 - 20) + 1 = 32601 := rfl
    refine ⟨⟨?_, rfl, ?_⟩, rfl, rfl⟩
    · simp only [hpage, Int.toNat_natCast]
      exact Nat.div_pos (by omega) (by omega)
    · simp only [hpage, Int.toNat_natCast]
      have hdiv := Nat.div_mul_le_self 32601 (1 + k * 8)
      generalize 32601 / (1 + k * 8) = n at hdiv ⊢
      rw [Nat.mul_add, Nat.mul_one, ← Nat.mul_assoc] at hdiv
      have hpre : RM_PAGE_PREFIX = 12 := rfl
      have hsize : PAGE_SIZE = 4096 := rfl
      omega

namespace RmFileHdr

variable {hdr : RmFileHdr} {body : ℕ → UInt8} {buf : Bytes} {pos slot slot' : ℕ}

theorem WellFormed.bucket_lt (h : hdr.WellFormed) (hpos : pos < hdr.numRecordsPerPage) :
    Bitmap.getBucket pos < hdr.bitmapSize := by
  rw [h.bitmapSize, Bitmap.getBucket]
  omega

/-- The record in a slot. -/
def slotBytes (hdr : RmFileHdr) (body : ℕ → UInt8) (slot : ℕ) : Bytes :=
  readBytes body (hdr.getSlot slot) hdr.recordSize

theorem slotBytes_memcpy_self (h : buf.length = hdr.recordSize) :
    hdr.slotBytes (memcpy body (hdr.getSlot slot) buf hdr.recordSize) slot = buf :=
  readBytes_memcpy h

/-- Distinct slots do not overlap. -/
theorem slotBytes_memcpy_of_ne (h : slot' ≠ slot) :
    hdr.slotBytes (memcpy body (hdr.getSlot slot) buf hdr.recordSize) slot' =
      hdr.slotBytes body slot' := by
  refine readBytes_congr fun i h₁ h₂ => ?_
  unfold getSlot at h₁ h₂ ⊢
  rcases Nat.lt_or_gt_of_ne h with hlt | hgt
  · have hmul : (slot' + 1) * hdr.recordSize ≤ slot * hdr.recordSize := Nat.mul_le_mul_right _ hlt
    rw [Nat.add_mul, Nat.one_mul] at hmul
    exact memcpy_of_lt (by omega)
  · have hmul : (slot + 1) * hdr.recordSize ≤ slot' * hdr.recordSize := Nat.mul_le_mul_right _ hgt
    rw [Nat.add_mul, Nat.one_mul] at hmul
    exact memcpy_of_le (by omega)

/-- The bitmap and the slots do not overlap. -/
theorem slotBytes_congr {body' : ℕ → UInt8} (h : ∀ i, hdr.bitmapSize ≤ i → body' i = body i) :
    hdr.slotBytes body' slot = hdr.slotBytes body slot :=
  readBytes_congr fun i hi _ => h i (le_trans (Nat.le_add_right _ _) hi)

theorem WellFormed.slotBytes_set (h : hdr.WellFormed) (hpos : pos < hdr.numRecordsPerPage) :
    hdr.slotBytes (Bitmap.set body pos) slot = hdr.slotBytes body slot :=
  slotBytes_congr fun _ hi => Bitmap.set_of_ne ((h.bucket_lt hpos).trans_le hi).ne'

theorem WellFormed.slotBytes_reset (h : hdr.WellFormed) (hpos : pos < hdr.numRecordsPerPage) :
    hdr.slotBytes (Bitmap.reset body pos) slot = hdr.slotBytes body slot :=
  slotBytes_congr fun _ hi => Bitmap.reset_of_ne ((h.bucket_lt hpos).trans_le hi).ne'

theorem isSet_memcpy (hpos : Bitmap.getBucket pos < hdr.bitmapSize) :
    Bitmap.isSet (memcpy body (hdr.getSlot slot) buf hdr.recordSize) pos = Bitmap.isSet body pos :=
  Bitmap.isSet_congr (memcpy_of_lt (hpos.trans_le (Nat.le_add_right _ _)))

end RmFileHdr

namespace RmFile

/-- The pages that hold records. -/
def DataPage (f : RmFile) (pageNo : ℤ) : Prop := 1 ≤ pageNo ∧ pageNo < f.hdr.numPages

/-- The slots of the data pages. -/
def ValidRid (f : RmFile) (rid : Rid) : Prop :=
  f.DataPage rid.pageNo ∧ 0 ≤ rid.slotNo ∧ rid.slotNo < f.hdr.numRecordsPerPage

/-- A page with a free slot. -/
def HasRoom (f : RmFile) (pageNo : ℤ) : Prop :=
  f.DataPage pageNo ∧ ∃ slot < f.hdr.numRecordsPerPage,
    Bitmap.isSet (f.pages pageNo).body slot = false

/-- `next_free_page_no` of a page. -/
def nextFree (f : RmFile) (pageNo : ℤ) : ℤ := (f.pages pageNo).nextFreePageNo

variable {f f' : RmFile} {rid : Rid} {buf : Bytes} {p : ℤ} {slot : ℕ}

theorem slot_lt (hrid : f.ValidRid rid) : rid.slotNo.toNat < f.hdr.numRecordsPerPage := by
  obtain ⟨-, h₁, h₂⟩ := hrid
  omega

theorem fetchPageHandle_eq (hp : f.DataPage p) : f.fetchPageHandle p = .ok (f.pages p) := by
  have hp' : ¬ (p < 0 ∨ p ≥ f.hdr.numPages) := by
    obtain ⟨h₁, h₂⟩ := hp
    omega
  rw [RmFile.fetchPageHandle, if_neg hp']
  rfl

/-- Two ids with one page and slot are one. -/
theorem rid_eq (hrid : 0 ≤ rid.slotNo) {rid' : Rid} (hrid' : 0 ≤ rid'.slotNo)
    (hp : rid'.pageNo = rid.pageNo) (hs : rid'.slotNo.toNat = rid.slotNo.toNat) : rid' = rid := by
  cases rid
  cases rid'
  simp only [Rid.mk.injEq] at *
  omega

/-! ## One slot changes -/

/-- `f'` is `f` with one slot, its bit, the counter and the link of its page, and the head of the
chain changed. -/
structure EditsSlot (f f' : RmFile) (rid : Rid) : Prop where
  hdr : f'.hdr = { f.hdr with firstFreePageNo := f'.hdr.firstFreePageNo }
  alloc : f'.fd2pageno = f.fd2pageno
  pages : ∀ q, q ≠ rid.pageNo → f'.pages q = f.pages q
  bits : ∀ i, i < 8 * f.hdr.bitmapSize → i ≠ rid.slotNo.toNat →
    Bitmap.isSet (f'.pages rid.pageNo).body i = Bitmap.isSet (f.pages rid.pageNo).body i
  slots : ∀ slot, slot ≠ rid.slotNo.toNat →
    f.hdr.slotBytes (f'.pages rid.pageNo).body slot = f.hdr.slotBytes (f.pages rid.pageNo).body slot

namespace EditsSlot

theorem perPage (he : EditsSlot f f' rid) :
    f'.hdr.numRecordsPerPage = f.hdr.numRecordsPerPage := by
  rw [he.hdr]

theorem dataPage (he : EditsSlot f f' rid) {q : ℤ} : f'.DataPage q ↔ f.DataPage q := by
  rw [RmFile.DataPage, RmFile.DataPage, he.hdr]

theorem hasRoom_of_ne (he : EditsSlot f f' rid) {q : ℤ} (hq : q ≠ rid.pageNo) :
    f'.HasRoom q ↔ f.HasRoom q := by
  rw [RmFile.HasRoom, RmFile.HasRoom, he.dataPage, he.perPage, he.pages q hq]

theorem nextFree_of_ne (he : EditsSlot f f' rid) {q : ℤ} (hq : q ≠ rid.pageNo) :
    f'.nextFree q = f.nextFree q := by
  rw [RmFile.nextFree, RmFile.nextFree, he.pages q hq]

end EditsSlot

/-! ## The operations -/

/-- `f` with a new page body and counter under `pageNo`, and new links. -/
def relinked (f : RmFile) (pageNo : ℤ) (body : ℕ → UInt8) (numRecords next first : ℤ) : RmFile :=
  { f with hdr := { f.hdr with firstFreePageNo := first } }.setPage pageNo
    { body := body, numRecords := numRecords, nextFreePageNo := next }

section Relinked

variable {body : ℕ → UInt8} {numRecords next first : ℤ}

theorem relinked_pages_self : (relinked f p body numRecords next first).pages p =
    { body := body, numRecords := numRecords, nextFreePageNo := next } :=
  Function.update_self _ _ _

theorem nextFree_relinked_self : (relinked f p body numRecords next first).nextFree p = next := by
  rw [RmFile.nextFree, relinked_pages_self]

theorem editsSlot_relinked
    (hbits : ∀ i, i < 8 * f.hdr.bitmapSize → i ≠ rid.slotNo.toNat →
      Bitmap.isSet body i = Bitmap.isSet (f.pages rid.pageNo).body i)
    (hslots : ∀ slot, slot ≠ rid.slotNo.toNat →
      f.hdr.slotBytes body slot = f.hdr.slotBytes (f.pages rid.pageNo).body slot) :
    EditsSlot f (relinked f rid.pageNo body numRecords next first) rid := by
  refine ⟨rfl, rfl, fun q hq => Function.update_of_ne hq _ _, fun i hi hne => ?_,
    fun slot hne => ?_⟩
  · rw [relinked_pages_self, hbits i hi hne]
  · rw [relinked_pages_self, hslots slot hne]

end Relinked

/-- The file with the bit of a record cleared. -/
def cleared (f : RmFile) (rid : Rid) (next first : ℤ) : RmFile :=
  relinked f rid.pageNo (Bitmap.reset (f.pages rid.pageNo).body rid.slotNo.toNat)
    ((f.pages rid.pageNo).numRecords - 1) next first

/-- The file with `buf` put into a slot and its bit set. -/
def filled (f : RmFile) (rid : Rid) (buf : Bytes) (first : ℤ) : RmFile :=
  relinked f rid.pageNo
    (Bitmap.set (memcpy (f.pages rid.pageNo).body (f.hdr.getSlot rid.slotNo.toNat) buf
      f.hdr.recordSize) rid.slotNo.toNat)
    ((f.pages rid.pageNo).numRecords + 1) (f.nextFree rid.pageNo) first

/-- The file with `buf` put into a slot, occupied or not. -/
def overwritten (f : RmFile) (rid : Rid) (buf : Bytes) : RmFile :=
  relinked f rid.pageNo
    (memcpy (f.pages rid.pageNo).body (f.hdr.getSlot rid.slotNo.toNat) buf f.hdr.recordSize)
    (f.pages rid.pageNo).numRecords (f.nextFree rid.pageNo) f.hdr.firstFreePageNo

theorem editsSlot_cleared {next first : ℤ} (h : f.hdr.WellFormed) (hvalid : f.ValidRid rid) :
    EditsSlot f (cleared f rid next first) rid := by
  refine editsSlot_relinked (fun i _ hne => ?_) fun slot _ => h.slotBytes_reset (slot_lt hvalid)
  simp [hne]

theorem editsSlot_filled {first : ℤ} (h : f.hdr.WellFormed) (hvalid : f.ValidRid rid) :
    EditsSlot f (filled f rid buf first) rid := by
  refine editsSlot_relinked (fun i hi hne => ?_) fun slot hne => ?_
  · rw [Bitmap.isSet_set, RmFileHdr.isSet_memcpy (Nat.div_lt_of_lt_mul hi)]
    simp [hne]
  · rw [h.slotBytes_set (slot_lt hvalid), RmFileHdr.slotBytes_memcpy_of_ne hne]

theorem editsSlot_overwritten (rid : Rid) (buf : Bytes) :
    EditsSlot f (overwritten f rid buf) rid := by
  refine editsSlot_relinked (fun i hi _ => ?_) fun slot hne => ?_
  · exact RmFileHdr.isSet_memcpy (Nat.div_lt_of_lt_mul hi)
  · exact RmFileHdr.slotBytes_memcpy_of_ne hne

theorem deleteRecord_eq (hp : f.DataPage rid.pageNo) : f.deleteRecord rid = .ok
    (if (f.pages rid.pageNo).numRecords - 1 = (f.hdr.numRecordsPerPage : ℤ) - 1
      then cleared f rid f.hdr.firstFreePageNo rid.pageNo
      else cleared f rid (f.nextFree rid.pageNo) f.hdr.firstFreePageNo) := by
  rw [deleteRecord, fetchPageHandle_eq hp]
  split
  · rename_i hfull
    refine (if_pos hfull).trans ?_
    simp [releasePageHandle, setPage, cleared, relinked, pure, Except.pure]
  · rename_i hfull
    exact if_neg hfull

theorem insertRecordAt_eq (hp : f.DataPage rid.pageNo) :
    f.insertRecordAt rid buf = .ok (filled f rid buf f.hdr.firstFreePageNo) := by
  rw [insertRecordAt, fetchPageHandle_eq hp]
  rfl

theorem updateRecord_eq (hp : f.DataPage rid.pageNo) :
    f.updateRecord rid buf = .ok (overwritten f rid buf) := by
  rw [updateRecord, fetchPageHandle_eq hp]
  rfl

end RmFile

end Rmdb
