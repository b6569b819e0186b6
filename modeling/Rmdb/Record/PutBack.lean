import Rmdb.Record.HeapMap

/-!
# Putting a deleted record back

`undo_write_record` undoes a deletion by `insert_record` at the position of the record.
`delete_record` puts the page into the chain of free pages when the page was full, and this
`insert_record` never takes a page out.
-/

namespace Rmdb

/-- The file holds the records `m` again, and from here on an insertion finds a slot of its page. -/
structure PutBack (f : RmFile) (m : Rid → Option Bytes) : Prop where
  inv : HeapInv f m
  insert_valid : ∀ ops f' m', Run HeapStep (f, m) ops (f', m') → ∀ buf :
    Bytes, buf.length = f'.hdr.recordSize →
    ∃ f'' rid, f'.insertRecord buf = .ok (f'', rid) ∧ rid.slotNo < f''.hdr.numRecordsPerPage

section
open RmFile

variable {f : RmFile} {m : Rid → Option Bytes} {rid : Rid} {v buf : Bytes}
  {next first first' : ℤ} {p : ℤ}

theorem HeapInv.putBack (h : HeapInv f m) : PutBack f m := by
  refine ⟨h, fun ops f' m' hrun buf hbuf => ?_⟩
  have h' : HeapInv f' m' :=
    Run.invariant (P := fun s => HeapInv s.1 s.2) (fun s op s' hstep hs => (hs.step hstep).1) hrun h
  obtain ⟨f'', rid, hinsert, _, hvalid, _⟩ := h'.insert hbuf
  exact ⟨f'', rid, hinsert, hvalid.2.2⟩

/-- The page has room again exactly when it had room before. -/
theorem hasRoom_putBack (h : HeapInv f m) (hrid : (m rid).isSome) :
    (filled (cleared f rid next first) rid v first').HasRoom rid.pageNo ↔ f.HasRoom rid.pageNo := by
  obtain ⟨hvalid, hset⟩ := h.isSet_of_live hrid
  have he : EditsSlot f (cleared f rid next first) rid := editsSlot_cleared h.hdr hvalid
  have hwf : (cleared f rid next first).hdr.WellFormed :=
    ⟨h.hdr.perPage_pos, h.hdr.bitmapSize, h.hdr.fits⟩
  have hvalid' : (cleared f rid next first).ValidRid rid := hvalid
  have he' : EditsSlot _ (filled (cleared f rid next first) rid v first') rid :=
    editsSlot_filled hwf hvalid'
  have hbitmap := h.hdr.bitmapSize
  have hbits (i : ℕ) (hi : i < f.hdr.numRecordsPerPage) :
      Bitmap.isSet ((filled (cleared f rid next first) rid v first').pages rid.pageNo).body i =
        Bitmap.isSet (f.pages rid.pageNo).body i := by
    by_cases hslot : i = rid.slotNo.toNat
    · subst hslot
      rw [hset, filled, relinked_pages_self]
      simp
    · have hlt : i < 8 * f.hdr.bitmapSize := by omega
      rw [he'.bits i hlt hslot, he.bits i hlt hslot]
  rw [RmFile.HasRoom, RmFile.HasRoom, he'.dataPage, he.dataPage, he'.perPage, he.perPage]
  exact and_congr_right fun _ => exists_congr fun i => and_congr_right fun hi => by rw [hbits i hi]

/-- A record that is put back into a page with room is back. -/
theorem putBack_of_hasRoom (h : HeapInv f m) (hv : m rid = some v) (hroom : f.HasRoom rid.pageNo) :
    HeapInv (filled (cleared f rid (f.nextFree rid.pageNo) f.hdr.firstFreePageNo) rid v
      f.hdr.firstFreePageNo) m := by
  have hrid : (m rid).isSome := by rw [hv]; rfl
  obtain ⟨hvalid, hset⟩ := h.isSet_of_live hrid
  have hlen : v.length = f.hdr.recordSize := by
    rw [← h.data rid v hv]
    simp [RmFileHdr.slotBytes, readBytes]
  have h₁ := h.delete_cleared hrid (h.chain_keep (editsSlot_cleared h.hdr hvalid) hroom
    (h.hasRoom_cleared hvalid) nextFree_relinked_self rfl)
  have hvalid₁ : (cleared f rid (f.nextFree rid.pageNo) f.hdr.firstFreePageNo).ValidRid rid :=
    hvalid
  have hclear : Bitmap.isSet ((cleared f rid (f.nextFree rid.pageNo) f.hdr.firstFreePageNo).pages
      rid.pageNo).body rid.slotNo.toNat = false := by
    rw [cleared, relinked_pages_self]
    simp
  have h₂ := h₁.insert_filled hvalid₁ hclear hlen (h₁.chain_keep (editsSlot_filled h₁.hdr hvalid₁)
    (h.hasRoom_cleared hvalid) ((hasRoom_putBack h hrid).mpr hroom) nextFree_relinked_self rfl)
  rwa [Function.update_idem, Function.update_eq_self_iff.mpr hv.symm] at h₂

/-- A record that is put back into a page without room leaves the page at the head of the chain. -/
theorem not_heapInv_of_full {m' : Rid → Option Bytes} (h : HeapInv f m) (hrid : (m rid).isSome)
    (hfull : ¬ f.HasRoom rid.pageNo) :
    ¬ HeapInv (filled (cleared f rid f.hdr.firstFreePageNo rid.pageNo) rid v rid.pageNo) m' := by
  intro h₂
  obtain ⟨hvalid, -⟩ := h.isSet_of_live hrid
  obtain ⟨l, -, hl, hmem⟩ := h₂.chain
  cases l with
  | nil =>
    have hone := hvalid.1.1
    have hnil : rid.pageNo = RM_NO_PAGE := hl
    rw [hnil] at hone
    exact absurd hone (by decide)
  | cons q l =>
    obtain rfl : rid.pageNo = q := hl.1
    exact hfull ((hasRoom_putBack h hrid).mp ((hmem _).mp List.mem_cons_self))

/-- In a page without room, `insert_record` takes the slot behind the last one. -/
theorem insertRecord_of_full (hfirst : f.hdr.firstFreePageNo = p) (hp : f.DataPage p)
    (hfull : ¬ f.HasRoom p) :
    ∃ f', f.insertRecord buf = .ok (f', ⟨p, f.hdr.numRecordsPerPage⟩) := by
  have hbit : Bitmap.firstBit false (f.pages p).body f.hdr.numRecordsPerPage =
      f.hdr.numRecordsPerPage := by
    unfold Bitmap.firstBit Bitmap.nextBit
    rw [List.find?_eq_none.mpr, Option.getD_none]
    intro i hi hclear
    refine hfull ⟨hp, i, by simpa using hi, by simpa using hclear⟩
  have hne : f.hdr.firstFreePageNo ≠ -1 := by
    have hone := hp.1
    omega
  rw [insertRecord, createPageHandle, if_neg hne, hfirst, fetchPageHandle_eq hp]
  simp only [bind, Except.bind, pure, Except.pure, insertInto, hbit]
  split
  · exact ⟨_, rfl⟩
  · exact ⟨_, rfl⟩

end

/-- Deleting a record and putting it back at its position restores a file exactly when the page of
the record was not full; else the next insertion writes behind the last slot of that page. -/
theorem delete_put_back_iff {f : RmFile} {m : Rid → Option Bytes} {rid : Rid} {v : Bytes}
    (h : HeapInv f m) (hv : m rid = some v) :
    ∃ f₁ f₂, f.deleteRecord rid = .ok f₁ ∧ f₁.insertRecordAt rid v = .ok f₂ ∧
      (PutBack f₂ m ↔ ∃ slot < f.hdr.numRecordsPerPage,
        Bitmap.isSet (f.pages rid.pageNo).body slot = false) ∧
      ((∀ slot < f.hdr.numRecordsPerPage, Bitmap.isSet (f.pages rid.pageNo).body slot = true) →
        ∀ buf : Bytes, ∃ f₃, f₂.insertRecord buf = .ok
        (f₃, ⟨rid.pageNo, f.hdr.numRecordsPerPage⟩)) := by
  have hrid : (m rid).isSome := by rw [hv]; rfl
  obtain ⟨hvalid, -⟩ := h.isSet_of_live hrid
  have hiff : f.HasRoom rid.pageNo ↔ ∃ slot < f.hdr.numRecordsPerPage,
      Bitmap.isSet (f.pages rid.pageNo).body slot = false := and_iff_right hvalid.1
  have hcount := h.not_hasRoom_iff hvalid.1
  rw [RmFile.deleteRecord_eq hvalid.1, ← hiff]
  by_cases hroom : f.HasRoom rid.pageNo
  · have hnot : ¬ (f.pages rid.pageNo).numRecords - 1 = (f.hdr.numRecordsPerPage : ℤ) - 1 :=
      fun heq => hcount.mpr (by omega) hroom
    refine ⟨_, _, congrArg _ (if_neg hnot), RmFile.insertRecordAt_eq hvalid.1,
      iff_of_true (putBack_of_hasRoom h hv hroom).putBack hroom, fun hall => ?_⟩
    obtain ⟨_, slot, hslot, hclear⟩ := hroom
    rw [hall slot hslot] at hclear
    cases hclear
  · have hfull : (f.pages rid.pageNo).numRecords - 1 = (f.hdr.numRecordsPerPage : ℤ) - 1 := by
      rw [hcount.mp hroom]
    refine ⟨_, _, congrArg _ (if_pos hfull), RmFile.insertRecordAt_eq hvalid.1,
      iff_of_false (fun hback => not_heapInv_of_full h hrid hroom hback.inv) hroom, fun _ buf => ?_⟩
    exact insertRecord_of_full rfl hvalid.1 fun hroom' => hroom ((hasRoom_putBack h hrid).mp hroom')

/-- A file with one record. -/
theorem delete_put_back_one_record : ∃ f m rid v f₁ f₂, HeapInv f m ∧ m rid = some v ∧
    f.deleteRecord rid = .ok f₁ ∧ f₁.insertRecordAt rid v = .ok f₂ ∧
    (PutBack f₂ m ↔ ∃ slot < f.hdr.numRecordsPerPage,
      Bitmap.isSet (f.pages rid.pageNo).body slot = false) := by
  have hcreate : createFile 512 = .ok ⟨512, 1, 7, -1, 1⟩ := by decide
  have hbuf : (List.replicate 512 (1 : UInt8)).length = 512 := List.length_replicate
  obtain ⟨f, rid, _, _, _, _, h⟩ := (HeapInv.openFile hcreate fun _ => {}).insert hbuf
  obtain ⟨f₁, f₂, hdelete, hinsert, hiff, _⟩ := delete_put_back_iff h (Function.update_self _ _ _)
  exact ⟨f, _, rid, _, f₁, f₂, h, Function.update_self _ _ _, hdelete, hinsert, hiff⟩

/-- The file after `n` insertions of a record. -/
def insertTimes (buf : Bytes) : ℕ → RmFile → RmFile
  | 0, f => f
  | n + 1, f =>
    match f.insertRecord buf with
    | .ok (f, _) => insertTimes buf n f
    | .error _ => f

theorem run_insertTimes {f : RmFile} {m : Rid → Option Bytes} {buf : Bytes} (h : HeapInv f m)
    (hbuf : buf.length = f.hdr.recordSize) (n : ℕ) :
    ∃ ops m', Run HeapStep (f, m) ops (insertTimes buf n f, m') := by
  induction n generalizing f m with
  | zero => exact ⟨[], m, .nil _⟩
  | succ n ih =>
    obtain ⟨f', rid, hinsert, _, _, hsize, h'⟩ := h.insert hbuf
    obtain ⟨ops, m', hrun⟩ := ih h' (hbuf.trans hsize.symm)
    refine ⟨.insert buf :: ops, m', ?_⟩
    rw [insertTimes, hinsert]
    exact .cons (.insert hbuf hinsert) hrun

/-- Seven records of 512 bytes, which fill a page. -/
def fullFile : RmFile := insertTimes (List.replicate 512 1) 7
    (RmFile.openFile ⟨512, 1, 7, -1, 1⟩ fun _ => {})

/-- After a deletion from a full page is undone, the page is in the chain. -/
theorem not_delete_put_back : ¬ ∀ (size : ℤ) (hdr : RmFileHdr) (pages : ℤ → RmPage)
    (ops : List HeapOp)
    (f : RmFile) (m : Rid → Option Bytes) (rid : Rid) (v : Bytes) (f₁ f₂ : RmFile),
    createFile size = .ok hdr → Run HeapStep (RmFile.openFile hdr pages, fun _ => none) ops (f, m) →
    m rid = some v → f.deleteRecord rid = .ok f₁ → f₁.insertRecordAt rid v = .ok f₂ →
    PutBack f₂ m := by
  intro hall
  have hcreate : createFile 512 = .ok ⟨512, 1, 7, -1, 1⟩ := by decide
  have h₀ := HeapInv.openFile hcreate fun _ => {}
  have hbuf : (List.replicate 512 (1 : UInt8)).length = 512 := List.length_replicate
  obtain ⟨ops, m, hrun⟩ := run_insertTimes h₀ hbuf 7
  have h : HeapInv fullFile m :=
    Run.invariant (P := fun s => HeapInv s.1 s.2)
      (fun s op s' hstep hs => (hs.step hstep).1) hrun h₀
  have hpages : fullFile.hdr.numPages = 2 := by decide +kernel
  have hper : fullFile.hdr.numRecordsPerPage = 7 := by decide +kernel
  have hbits : ∀ slot < 7, Bitmap.isSet (fullFile.pages 1).body slot = true := by decide +kernel
  have hvalid : fullFile.ValidRid ⟨1, 0⟩ :=
    ⟨⟨by decide, by rw [hpages]; decide⟩, by decide, by rw [hper]; decide⟩
  have hlive := (h.live ⟨1, 0⟩).mpr ⟨hvalid, hbits 0 (by decide)⟩
  have hfull : ¬ fullFile.HasRoom 1 := by
    rintro ⟨_, slot, hslot, hclear⟩
    rw [hbits slot (by omega)] at hclear
    cases hclear
  obtain ⟨v, hv⟩ := Option.isSome_iff_exists.mp hlive
  have hnum := (h.not_hasRoom_iff hvalid.1).mp hfull
  have hdelete := RmFile.deleteRecord_eq hvalid.1
  rw [if_pos (by rw [hnum])] at hdelete
  have hback := hall 512 _ _ ops fullFile m ⟨1, 0⟩ v _ _ hcreate hrun hv hdelete
    (RmFile.insertRecordAt_eq hvalid.1)
  exact not_heapInv_of_full h hlive hfull hback.inv

end Rmdb
