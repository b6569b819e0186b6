import Rmdb.Lib.Run
import Rmdb.Record.SlotEdits

/-!
# A table file is a map from record ids to records

Starting from the file that `create_file` writes, every sequence of insertions, updates and
deletions keeps a file in step with the map of its live records.  Occupancy is kept in the bitmaps,
in the counters of the page headers and in the chain of free pages; `HeapInv` ties the three
together.
-/

namespace Rmdb

/-! ## The invariant -/

/-- `next` leads from `start` through the pages of the list to `RM_NO_PAGE`. -/
def FreeChain (next : ℤ → ℤ) : ℤ → List ℤ → Prop
  | start, [] => start = RM_NO_PAGE
  | start, p :: rest => start = p ∧ FreeChain next (next p) rest

theorem FreeChain.congr {next next' : ℤ → ℤ} {l : List ℤ}
    (h : ∀ p ∈ l, next' p = next p) {start : ℤ}
    (hl : FreeChain next start l) : FreeChain next' start l := by
  induction l generalizing start with
  | nil => exact hl
  | cons p l ih =>
    refine ⟨hl.1, ?_⟩
    rw [h p List.mem_cons_self]
    exact ih (fun q hq => h q (List.mem_cons_of_mem _ hq)) hl.2

/-- The file `f` holds the records `m`. -/
structure HeapInv (f : RmFile) (m : Rid → Option Bytes) : Prop where
  hdr : f.hdr.WellFormed
  numPages_pos : 1 ≤ f.hdr.numPages
  alloc : f.fd2pageno = f.hdr.numPages
  live : ∀ rid, (m rid).isSome ↔
    f.ValidRid rid ∧ Bitmap.isSet (f.pages rid.pageNo).body rid.slotNo.toNat
  data : ∀ rid buf, m rid = some buf →
    f.hdr.slotBytes (f.pages rid.pageNo).body rid.slotNo.toNat = buf
  count : ∀ p, f.DataPage p → (f.pages p).numRecords =
    (Bitmap.setBits (f.pages p).body f.hdr.numRecordsPerPage).card
  tail : ∀ p, f.DataPage p → ∀ i, f.hdr.numRecordsPerPage ≤ i → i < 8 * f.hdr.bitmapSize →
    Bitmap.isSet (f.pages p).body i = false
  chain : ∃ l : List ℤ, l.Nodup ∧ FreeChain f.nextFree f.hdr.firstFreePageNo l ∧
    ∀ p, p ∈ l ↔ f.HasRoom p

namespace HeapInv

open RmFile

variable {f f' : RmFile} {m : Rid → Option Bytes} {rid : Rid} {buf : Bytes} {p : ℤ} {slot : ℕ}

theorem isSet_of_live (h : HeapInv f m) (hrid : (m rid).isSome) :
    f.ValidRid rid ∧ Bitmap.isSet (f.pages rid.pageNo).body rid.slotNo.toNat :=
  (h.live rid).1 hrid

/-- The page is full exactly when its counter says so. -/
theorem not_hasRoom_iff_of_count (hp : f.DataPage p) (hcount : (f.pages p).numRecords =
      (Bitmap.setBits (f.pages p).body f.hdr.numRecordsPerPage).card) :
    ¬ f.HasRoom p ↔ (f.pages p).numRecords = f.hdr.numRecordsPerPage := by
  rw [hcount, Int.ofNat_inj, Bitmap.card_setBits_eq_iff, RmFile.HasRoom]
  simp [hp]

theorem not_hasRoom_iff (h : HeapInv f m) (hp : f.DataPage p) :
    ¬ f.HasRoom p ↔ (f.pages p).numRecords = f.hdr.numRecordsPerPage :=
  not_hasRoom_iff_of_count hp (h.count p hp)

/-- After an edit of one slot, what has to be checked is about that slot, the counter of its page
and the chain. -/
theorem edit {m' : Rid → Option Bytes} (h : HeapInv f m) (he : EditsSlot f f' rid)
    (hrid : f.ValidRid rid) (hm : ∀ rid', rid' ≠ rid → m' rid' = m rid')
    (hlive : (m' rid).isSome = Bitmap.isSet (f'.pages rid.pageNo).body rid.slotNo.toNat)
    (hdata : ∀ buf, m' rid = some buf →
      f.hdr.slotBytes (f'.pages rid.pageNo).body rid.slotNo.toNat = buf)
    (hcount : (f'.pages rid.pageNo).numRecords =
      (Bitmap.setBits (f'.pages rid.pageNo).body f.hdr.numRecordsPerPage).card)
    (hchain : ∃ l : List ℤ, l.Nodup ∧ FreeChain f'.nextFree f'.hdr.firstFreePageNo l ∧
      ∀ p, p ∈ l ↔ f'.HasRoom p) : HeapInv f' m' := by
  have hslot := slot_lt hrid
  have hbitmap := h.hdr.bitmapSize
  have hvalid (rid' : Rid) : f'.ValidRid rid' ↔ f.ValidRid rid' := by
    rw [RmFile.ValidRid, RmFile.ValidRid, he.dataPage, he.perPage]
  have hbytes (body : ℕ → UInt8) (slot : ℕ) : f'.hdr.slotBytes body slot =
      f.hdr.slotBytes body slot := by
    rw [he.hdr]
    rfl
  -- an id on the same page other than `rid` has another slot
  have hother {rid' : Rid} (hne : rid' ≠ rid) (hv : f.ValidRid rid')
    (hp : rid'.pageNo = rid.pageNo) : rid'.slotNo.toNat ≠ rid.slotNo.toNat :=
    fun hs => hne (rid_eq hrid.2.1 hv.2.1 hp hs)
  refine ⟨?_, ?_, ?_, ?_, ?_, ?_, ?_, hchain⟩
  · rw [he.hdr]
    exact ⟨h.hdr.perPage_pos, h.hdr.bitmapSize, h.hdr.fits⟩
  · rw [he.hdr]
    exact h.numPages_pos
  · rw [he.alloc, he.hdr]
    exact h.alloc
  · intro rid'
    rw [hvalid]
    by_cases heq : rid' = rid
    · subst heq
      simp [hlive, hrid]
    · rw [hm rid' heq, h.live]
      refine and_congr_right fun hv => ?_
      by_cases hp : rid'.pageNo = rid.pageNo
      · have hlt := slot_lt hv
        rw [hp, he.bits _ (by omega) (hother heq hv hp)]
      · rw [he.pages _ hp]
  · intro rid' buf hbuf
    rw [hbytes]
    by_cases heq : rid' = rid
    · subst heq
      exact hdata buf hbuf
    · rw [hm rid' heq] at hbuf
      have hv := ((h.live rid').1 (by rw [hbuf]; rfl)).1
      rw [← h.data rid' buf hbuf]
      by_cases hp : rid'.pageNo = rid.pageNo
      · rw [hp, he.slots _ (hother heq hv hp)]
      · rw [he.pages _ hp]
  · intro q hq
    rw [he.perPage]
    by_cases hp : q = rid.pageNo
    · rw [hp]
      exact hcount
    · rw [he.pages q hp]
      exact h.count q (he.dataPage.1 hq)
  · intro q hq i hi hlt
    rw [he.perPage] at hi
    rw [he.hdr] at hlt
    by_cases hp : q = rid.pageNo
    · rw [hp, he.bits i hlt (by omega)]
      exact h.tail _ hrid.1 i hi hlt
    · rw [he.pages q hp]
      exact h.tail q (he.dataPage.1 hq) i hi hlt

/-! ## Updating a record -/

theorem update (h : HeapInv f m) (hrid : (m rid).isSome) (hbuf : buf.length = f.hdr.recordSize) :
    ∃ f', f.updateRecord rid buf = .ok f' ∧ f'.hdr.recordSize = f.hdr.recordSize ∧
      HeapInv f' (Function.update m rid (some buf)) := by
  obtain ⟨hvalid, hset⟩ := h.isSet_of_live hrid
  have hslot := slot_lt hvalid
  have hbitmap := h.hdr.bitmapSize
  have he : EditsSlot f (overwritten f rid buf) rid := editsSlot_overwritten rid buf
  have hpage : (overwritten f rid buf).pages rid.pageNo = _ := relinked_pages_self
  have hbits {i : ℕ} (hi : i < f.hdr.numRecordsPerPage) : Bitmap.isSet
      ((overwritten f rid buf).pages rid.pageNo).body i =
        Bitmap.isSet (f.pages rid.pageNo).body i := by
    rw [hpage]
    exact RmFileHdr.isSet_memcpy (h.hdr.bucket_lt hi)
  have hroom : (overwritten f rid buf).HasRoom rid.pageNo ↔ f.HasRoom rid.pageNo := by
    rw [RmFile.HasRoom, RmFile.HasRoom, he.dataPage, he.perPage]
    refine and_congr_right fun _ => exists_congr fun i => and_congr_right fun hi => ?_
    rw [hbits hi]
  refine ⟨_, updateRecord_eq hvalid.1, rfl, h.edit he hvalid ?_ ?_ ?_ ?_ ?_⟩
  · intro rid' hne
    rw [Function.update_of_ne hne]
  · rw [Function.update_self, hbits hslot, hset]
    rfl
  · intro b hb
    rw [Function.update_self] at hb
    cases hb
    rw [hpage]
    exact RmFileHdr.slotBytes_memcpy_self hbuf
  · rw [Bitmap.setBits_congr fun i hi => hbits hi, ← h.count _ hvalid.1, hpage]
  · obtain ⟨l, hnodup, hl, hmem⟩ := h.chain
    refine ⟨l, hnodup, hl.congr fun q _ => ?_, fun q => ?_⟩
    · by_cases hq : q = rid.pageNo
      · rw [hq]
        exact nextFree_relinked_self
      · exact he.nextFree_of_ne hq
    · rw [hmem]
      by_cases hq : q = rid.pageNo
      · rw [hq, hroom]
      · rw [he.hasRoom_of_ne hq]

/-! ## The chain of free pages -/

/-- The chain is kept when the page had and has room, and its link is kept. -/
theorem chain_keep (h : HeapInv f m) (he : EditsSlot f f' rid) (hin : f.HasRoom rid.pageNo)
    (hroom : f'.HasRoom rid.pageNo) (hnext : f'.nextFree rid.pageNo = f.nextFree rid.pageNo)
    (hfirst : f'.hdr.firstFreePageNo = f.hdr.firstFreePageNo) :
    ∃ l : List ℤ, l.Nodup ∧ FreeChain f'.nextFree f'.hdr.firstFreePageNo l ∧
      ∀ p, p ∈ l ↔ f'.HasRoom p := by
  obtain ⟨l, hnodup, hl, hmem⟩ := h.chain
  refine ⟨l, hnodup, hfirst ▸ hl.congr fun q _ => ?_, fun q => ?_⟩
  · by_cases hq : q = rid.pageNo
    · rw [hq, hnext]
    · exact he.nextFree_of_ne hq
  · rw [hmem]
    by_cases hq : q = rid.pageNo
    · simp [hq, hroom, hin]
    · rw [he.hasRoom_of_ne hq]

/-- A page that gets room goes to the front of the chain. -/
theorem chain_push (h : HeapInv f m) (he : EditsSlot f f' rid) (hnot : ¬ f.HasRoom rid.pageNo)
    (hroom : f'.HasRoom rid.pageNo) (hnext : f'.nextFree rid.pageNo = f.hdr.firstFreePageNo)
    (hfirst : f'.hdr.firstFreePageNo = rid.pageNo) :
    ∃ l : List ℤ, l.Nodup ∧ FreeChain f'.nextFree f'.hdr.firstFreePageNo l ∧
      ∀ p, p ∈ l ↔ f'.HasRoom p := by
  obtain ⟨l, hnodup, hl, hmem⟩ := h.chain
  have hout : rid.pageNo ∉ l := mt (hmem _).1 hnot
  refine ⟨rid.pageNo :: l, List.nodup_cons.2 ⟨hout, hnodup⟩, ⟨hfirst, ?_⟩, fun q => ?_⟩
  · rw [hnext]
    exact hl.congr fun q hq => he.nextFree_of_ne fun heq => hout (heq ▸ hq)
  · by_cases hq : q = rid.pageNo
    · simp [hq, hroom]
    · simp [hq, he.hasRoom_of_ne hq, hmem]

/-- The page at the front of the chain leaves it when it has no room any more. -/
theorem chain_pop (h : HeapInv f m) (he : EditsSlot f f' rid) (hin : f.HasRoom rid.pageNo)
    (hhead : f.hdr.firstFreePageNo = rid.pageNo) (hnot : ¬ f'.HasRoom rid.pageNo)
    (hfirst : f'.hdr.firstFreePageNo = f.nextFree rid.pageNo) :
    ∃ l : List ℤ, l.Nodup ∧ FreeChain f'.nextFree f'.hdr.firstFreePageNo l ∧
      ∀ p, p ∈ l ↔ f'.HasRoom p := by
  obtain ⟨l, hnodup, hl, hmem⟩ := h.chain
  cases l with
  | nil => exact absurd ((hmem _).2 hin) (by simp)
  | cons q l =>
    obtain ⟨hq, hl⟩ := hl
    rw [hhead] at hq
    subst hq
    obtain ⟨hout, hnodup⟩ := List.nodup_cons.1 hnodup
    refine ⟨l, hnodup, hfirst ▸ hl.congr fun q hq => ?_, fun q => ?_⟩
    · exact he.nextFree_of_ne fun heq => hout (heq ▸ hq)
    · by_cases hq : q = rid.pageNo
      · simp [hq, hout, hnot]
      · rw [he.hasRoom_of_ne hq, ← hmem]
        simp [hq]

/-! ## Deleting a record -/

section Delete

variable {next first : ℤ}

theorem hasRoom_cleared (h : HeapInv f m) (hvalid : f.ValidRid rid) :
    (cleared f rid next first).HasRoom rid.pageNo := by
  refine ⟨(editsSlot_cleared h.hdr hvalid).dataPage.2 hvalid.1, rid.slotNo.toNat,
    slot_lt hvalid, ?_⟩
  rw [cleared, relinked_pages_self]
  simp

theorem delete_cleared (h : HeapInv f m) (hrid : (m rid).isSome)
    (hchain : ∃ l : List ℤ, l.Nodup ∧ FreeChain (cleared f rid next first).nextFree first l ∧
      ∀ p, p ∈ l ↔ (cleared f rid next first).HasRoom p) :
    HeapInv (cleared f rid next first) (Function.update m rid none) := by
  obtain ⟨hvalid, hset⟩ := h.isSet_of_live hrid
  have hnum := h.count _ hvalid.1
  have hcard := Bitmap.card_setBits_reset (slot_lt hvalid) hset
  have hpage : (cleared f rid next first).pages rid.pageNo = _ := relinked_pages_self
  refine h.edit (editsSlot_cleared h.hdr hvalid) hvalid ?_ ?_ ?_ ?_ hchain
  · intro rid' hne
    rw [Function.update_of_ne hne]
  · rw [Function.update_self, hpage]
    simp
  · intro b hb
    rw [Function.update_self] at hb
    cases hb
  · rw [hpage]
    simp only
    omega

theorem delete (h : HeapInv f m) (hrid : (m rid).isSome) :
    ∃ f', f.deleteRecord rid = .ok f' ∧ f'.hdr.recordSize = f.hdr.recordSize ∧
      HeapInv f' (Function.update m rid none) := by
  obtain ⟨hvalid, -⟩ := h.isSet_of_live hrid
  refine ⟨_, deleteRecord_eq hvalid.1, ?_, ?_⟩
  · split <;> rfl
  · split
    · rename_i hfull
      have hnot : ¬ f.HasRoom rid.pageNo := (h.not_hasRoom_iff hvalid.1).2 (by omega)
      exact h.delete_cleared hrid (h.chain_push (editsSlot_cleared h.hdr hvalid) hnot
        (h.hasRoom_cleared hvalid) nextFree_relinked_self rfl)
    · rename_i hfull
      have hin : f.HasRoom rid.pageNo := by
        by_contra hnot
        exact hfull (by rw [(h.not_hasRoom_iff hvalid.1).1 hnot])
      exact h.delete_cleared hrid (h.chain_keep (editsSlot_cleared h.hdr hvalid) hin
        (h.hasRoom_cleared hvalid) nextFree_relinked_self rfl)

end Delete

/-! ## Inserting a record -/

section Insert

variable {first : ℤ}

theorem count_filled (h : HeapInv f m) (hvalid : f.ValidRid rid)
    (hclear : Bitmap.isSet (f.pages rid.pageNo).body rid.slotNo.toNat = false) :
    ((filled f rid buf first).pages rid.pageNo).numRecords =
      (Bitmap.setBits ((filled f rid buf first).pages rid.pageNo).body
        f.hdr.numRecordsPerPage).card := by
  have hnum := h.count _ hvalid.1
  have hbitmap := h.hdr.bitmapSize
  have hbits (i : ℕ) (hi : i < f.hdr.numRecordsPerPage) : Bitmap.isSet (memcpy
      (f.pages rid.pageNo).body (f.hdr.getSlot rid.slotNo.toNat) buf f.hdr.recordSize) i =
      Bitmap.isSet (f.pages rid.pageNo).body i :=
    RmFileHdr.isSet_memcpy (h.hdr.bucket_lt hi)
  have hcard := Bitmap.card_setBits_set (slot_lt hvalid) ((hbits _ (slot_lt hvalid)).trans hclear)
  rw [Bitmap.setBits_congr hbits] at hcard
  rw [filled, relinked_pages_self]
  simp only
  omega

theorem insert_filled (h : HeapInv f m) (hvalid : f.ValidRid rid)
    (hclear : Bitmap.isSet (f.pages rid.pageNo).body rid.slotNo.toNat = false)
    (hbuf : buf.length = f.hdr.recordSize)
    (hchain : ∃ l : List ℤ, l.Nodup ∧ FreeChain (filled f rid buf first).nextFree first l ∧
      ∀ p, p ∈ l ↔ (filled f rid buf first).HasRoom p) :
    HeapInv (filled f rid buf first) (Function.update m rid (some buf)) := by
  have hpage : (filled f rid buf first).pages rid.pageNo = _ := relinked_pages_self
  refine h.edit (editsSlot_filled h.hdr hvalid) hvalid ?_ ?_ ?_
    (h.count_filled hvalid hclear) hchain
  · intro rid' hne
    rw [Function.update_of_ne hne]
  · rw [Function.update_self, hpage]
    simp
  · intro b hb
    rw [Function.update_self] at hb
    cases hb
    rw [hpage, h.hdr.slotBytes_set (slot_lt hvalid)]
    exact RmFileHdr.slotBytes_memcpy_self hbuf

/-- A new page has room and is the only one in the chain. -/
theorem createNewPageHandle (h : HeapInv f m) (hfirst : f.hdr.firstFreePageNo = -1) :
    HeapInv f.createNewPageHandle.1 m ∧
      f.createNewPageHandle.1.hdr.firstFreePageNo = f.createNewPageHandle.2 ∧
      f.createNewPageHandle.1.HasRoom f.createNewPageHandle.2 ∧
      f.createNewPageHandle.1.hdr.recordSize = f.hdr.recordSize := by
  have halloc := h.alloc
  have hpos := h.numPages_pos
  have hself : f.createNewPageHandle.1.pages f.hdr.numPages =
      { nextFreePageNo := -1, numRecords := 0,
        body := Bitmap.init (fun _ => 0) f.hdr.bitmapSize } := by
    simp [RmFile.createNewPageHandle, RmFile.setPage, halloc]
  have hother {q : ℤ} (hq : q ≠ f.hdr.numPages) : f.createNewPageHandle.1.pages q = f.pages q := by
    simp [RmFile.createNewPageHandle, RmFile.setPage, halloc, hq]
  have hclear (i : ℕ) : Bitmap.isSet (Bitmap.init (fun _ => 0) f.hdr.bitmapSize) i = false := by
    simp [Bitmap.isSet, Bitmap.init]
  have hpage (q : ℤ) : f.createNewPageHandle.1.DataPage q ↔ f.DataPage q ∨ q = f.hdr.numPages := by
    simp only [RmFile.DataPage, RmFile.createNewPageHandle, RmFile.setPage]
    omega
  have hne {q : ℤ} (hq : f.DataPage q) : q ≠ f.hdr.numPages := hq.2.ne
  -- no page had room before
  have hnone (q : ℤ) : ¬ f.HasRoom q := by
    obtain ⟨l, -, hl, hmem⟩ := h.chain
    cases l with
    | nil => exact fun hq => absurd ((hmem q).2 hq) (by simp)
    | cons p l =>
      have hp := ((hmem p).1 List.mem_cons_self).1.1
      have := hl.1
      omega
  have hroom (q : ℤ) : f.createNewPageHandle.1.HasRoom q ↔ q = f.hdr.numPages := by
    constructor
    · rintro ⟨hq, slot, hslot, hset⟩
      rcases (hpage q).1 hq with hq | hq
      · rw [hother (hne hq)] at hset
        exact absurd ⟨hq, slot, hslot, hset⟩ (hnone q)
      · exact hq
    · rintro rfl
      refine ⟨(hpage _).2 (.inr rfl), 0, h.hdr.perPage_pos, ?_⟩
      rw [hself, hclear]
  refine ⟨⟨⟨h.hdr.perPage_pos, h.hdr.bitmapSize, h.hdr.fits⟩, ?_, ?_, ?_, ?_, ?_, ?_, ?_⟩,
    rfl, ?_, rfl⟩
  · change 1 ≤ f.hdr.numPages + 1
    omega
  · change f.fd2pageno + 1 = f.hdr.numPages + 1
    omega
  · intro rid
    rw [h.live, RmFile.ValidRid, RmFile.ValidRid, hpage]
    constructor
    · rintro ⟨⟨hp, hslot⟩, hset⟩
      exact ⟨⟨.inl hp, hslot⟩, by rwa [hother (hne hp)]⟩
    · rintro ⟨⟨hp | hp, hslot⟩, hset⟩
      · exact ⟨⟨hp, hslot⟩, by rwa [hother (hne hp)] at hset⟩
      · rw [hp, hself, hclear] at hset
        cases hset
  · intro rid buf hbuf
    have hp := ((h.live rid).1 (by rw [hbuf]; rfl)).1.1
    rw [hother (hne hp)]
    exact h.data rid buf hbuf
  · intro q hq
    rcases (hpage q).1 hq with hq | rfl
    · rw [hother (hne hq)]
      exact h.count q hq
    · rw [hself]
      simp [Bitmap.setBits, hclear]
  · intro q hq i hi hlt
    rcases (hpage q).1 hq with hq | rfl
    · rw [hother (hne hq)]
      exact h.tail q hq i hi hlt
    · rw [hself, hclear]
  · refine ⟨[f.hdr.numPages], List.nodup_singleton _, ⟨halloc, ?_⟩, fun q => ?_⟩
    · rw [RmFile.nextFree, hself]
      rfl
    · rw [hroom, List.mem_singleton]
  · exact (hroom _).2 halloc

/-- `create_page_handle` finds or makes a page with room, at the front of the chain. -/
theorem createPageHandle (h : HeapInv f m) :
    ∃ f' p, f.createPageHandle = .ok (f', p) ∧ HeapInv f' m ∧ f'.hdr.firstFreePageNo = p ∧
      f'.HasRoom p ∧ f'.hdr.recordSize = f.hdr.recordSize := by
  unfold RmFile.createPageHandle
  split
  · rename_i hfirst
    exact ⟨_, _, rfl, h.createNewPageHandle hfirst⟩
  · rename_i hfirst
    obtain ⟨l, -, hl, hmem⟩ := h.chain
    cases l with
    | nil => exact absurd hl hfirst
    | cons p l =>
      have hp := (hmem p).1 List.mem_cons_self
      rw [hl.1, fetchPageHandle_eq hp.1]
      exact ⟨f, p, rfl, h, hl.1, hp, rfl⟩

/-- Filling a slot of the first page of the chain. -/
theorem insertInto (h : HeapInv f m) (hfirst : f.hdr.firstFreePageNo = p) (hroom : f.HasRoom p)
    (hbuf : buf.length = f.hdr.recordSize) :
    ∃ f' rid, f.insertInto p buf = (f', rid) ∧ m rid = none ∧ f'.ValidRid rid ∧
      f'.hdr.recordSize = f.hdr.recordSize ∧ HeapInv f' (Function.update m rid (some buf)) := by
  obtain ⟨hslot, hclear⟩ := Bitmap.firstBit_false hroom.2
  obtain ⟨rid, rfl, hrid⟩ : ∃ rid : Rid, rid.pageNo = p ∧
      rid.slotNo = Bitmap.firstBit false (f.pages p).body f.hdr.numRecordsPerPage :=
    ⟨⟨p, _⟩, rfl, rfl⟩
  have hvalid : f.ValidRid rid := ⟨hroom.1, by omega, by omega⟩
  have htoNat := congrArg Int.toNat hrid
  rw [Int.toNat_natCast] at htoNat
  rw [← htoNat] at hclear
  have hnone : m rid = none := by
    by_contra hne
    have hset := (h.isSet_of_live (Option.isSome_iff_ne_none.2 hne)).2
    rw [hclear] at hset
    cases hset
  have hfull (first : ℤ) : ¬ (filled f rid buf first).HasRoom rid.pageNo ↔
      (f.pages rid.pageNo).numRecords + 1 = f.hdr.numRecordsPerPage := by
    have hdata : (filled f rid buf first).DataPage rid.pageNo := hroom.1
    have hpages : (filled f rid buf first).pages rid.pageNo = _ := relinked_pages_self
    rw [not_hasRoom_iff_of_count hdata (h.count_filled hvalid hclear), hpages]
    rfl
  have hinsert : f.insertInto rid.pageNo buf =
      (filled f rid buf (if (f.pages rid.pageNo).numRecords + 1 = f.hdr.numRecordsPerPage
        then f.nextFree rid.pageNo else f.hdr.firstFreePageNo), rid) := by
    have hnat : (rid.slotNo.toNat : ℤ) = rid.slotNo := by omega
    simp only [RmFile.insertInto, RmFile.fillSlot, RmFile.setPage, Function.update_self,
      ← htoNat, hnat]
    split
    · rfl
    · rfl
  refine ⟨_, rid, hinsert, hnone, hvalid, rfl, h.insert_filled hvalid hclear hbuf ?_⟩
  split
  · rename_i hlast
    exact h.chain_pop (editsSlot_filled h.hdr hvalid) hroom hfirst ((hfull _).2 hlast) rfl
  · rename_i hlast
    refine h.chain_keep (editsSlot_filled h.hdr hvalid) hroom ?_ nextFree_relinked_self rfl
    by_contra hnot
    exact hlast ((hfull _).1 hnot)

theorem insert (h : HeapInv f m) (hbuf : buf.length = f.hdr.recordSize) :
    ∃ f' rid, f.insertRecord buf = .ok (f', rid) ∧ m rid = none ∧ f'.ValidRid rid ∧
      f'.hdr.recordSize = f.hdr.recordSize ∧ HeapInv f' (Function.update m rid (some buf)) := by
  obtain ⟨f₁, p, hpage, h₁, hfirst, hroom, hsize⟩ := h.createPageHandle
  obtain ⟨f', rid, hinto, hnone, hvalid, hsize', h'⟩ :=
    h₁.insertInto hfirst hroom (hbuf.trans hsize.symm)
  refine ⟨f', rid, ?_, hnone, hvalid, hsize'.trans hsize, h'⟩
  rw [RmFile.insertRecord, hpage]
  exact congrArg Except.ok hinto

end Insert

/-! ## Reading -/

theorem getRecord (h : HeapInv f m) (hbuf : m rid = some buf) : f.getRecord rid = .ok buf := by
  have hvalid := (h.isSet_of_live (by rw [hbuf]; rfl)).1
  rw [RmFile.getRecord, fetchPageHandle_eq hvalid.1]
  exact congrArg Except.ok (h.data rid buf hbuf)

theorem isRecord (h : HeapInv f m) (hvalid : f.ValidRid rid) :
    f.isRecord rid = .ok (m rid).isSome := by
  rw [RmFile.isRecord, fetchPageHandle_eq hvalid.1]
  refine congrArg Except.ok ?_
  rw [Bool.eq_iff_iff, h.live]
  simp [hvalid]

theorem count_bitmap (h : HeapInv f m) (hp : f.DataPage p) :
    (f.pages p).numRecords = (Bitmap.setBits (f.pages p).body (8 * f.hdr.bitmapSize)).card := by
  have hbits : Bitmap.setBits (f.pages p).body (8 * f.hdr.bitmapSize) =
      Bitmap.setBits (f.pages p).body f.hdr.numRecordsPerPage := by
    have hbitmap := h.hdr.bitmapSize
    ext i
    rw [Bitmap.mem_setBits, Bitmap.mem_setBits]
    refine and_congr_left fun hset => ⟨fun hi => ?_, fun hi => by omega⟩
    by_contra hge
    rw [h.tail p hp i (by omega) hi] at hset
    cases hset
  rw [hbits, h.count p hp]

theorem openFile {size : ℤ} {hdr : RmFileHdr} (hcreate : createFile size = .ok hdr)
    (pages : ℤ → RmPage) : HeapInv (RmFile.openFile hdr pages) fun _ => none := by
  obtain ⟨hwf, hone, hfirst⟩ := createFile_wellFormed hcreate
  have hnot (p : ℤ) : ¬ (RmFile.openFile hdr pages).DataPage p := by
    rintro ⟨h₁, h₂⟩
    simp only [RmFile.openFile, hone] at h₂
    omega
  refine ⟨hwf, hone.ge, rfl, fun rid => ?_, fun rid buf h => ?_, fun p hp => ?_, fun p hp => ?_,
    ⟨[], List.nodup_nil, hfirst, fun p => ?_⟩⟩
  · simp [RmFile.ValidRid, hnot]
  · cases h
  · exact absurd hp (hnot p)
  · exact absurd hp (hnot p)
  · simp [RmFile.HasRoom, hnot]

end HeapInv

/-! ## Whole runs -/

/-- The calls of a client of a table file. -/
inductive HeapOp
  | insert (buf : Bytes)
  | update (rid : Rid) (buf : Bytes)
  | delete (rid : Rid)

/-- One call, with its effect on the map of live records. -/
inductive HeapStep : RmFile × (Rid → Option Bytes) → HeapOp → RmFile × (Rid → Option Bytes) → Prop
  | insert {f f' : RmFile} {m : Rid → Option Bytes} {buf : Bytes} {rid : Rid} :
      buf.length = f.hdr.recordSize → f.insertRecord buf = .ok (f', rid) →
      HeapStep (f, m) (.insert buf) (f', Function.update m rid (some buf))
  | update {f f' : RmFile} {m : Rid → Option Bytes} {buf : Bytes} {rid : Rid} :
      buf.length = f.hdr.recordSize → (m rid).isSome → f.updateRecord rid buf = .ok f' →
      HeapStep (f, m) (.update rid buf) (f', Function.update m rid (some buf))
  | delete {f f' : RmFile} {m : Rid → Option Bytes} {rid : Rid} :
      (m rid).isSome → f.deleteRecord rid = .ok f' →
      HeapStep (f, m) (.delete rid) (f', Function.update m rid none)

theorem HeapInv.step {s s' : RmFile × (Rid → Option Bytes)} {op : HeapOp} (hstep : HeapStep s op s')
    (h : HeapInv s.1 s.2) : HeapInv s'.1 s'.2 ∧ s'.1.hdr.recordSize = s.1.hdr.recordSize := by
  cases hstep with
  | insert hbuf hf =>
    obtain ⟨f', rid, hf', -, -, hsize, h'⟩ := h.insert hbuf
    cases hf.symm.trans hf'
    exact ⟨h', hsize⟩
  | update hbuf hrid hf =>
    obtain ⟨f', hf', hsize, h'⟩ := h.update hrid hbuf
    cases hf.symm.trans hf'
    exact ⟨h', hsize⟩
  | delete hrid hf =>
    obtain ⟨f', hf', hsize, h'⟩ := h.delete hrid
    cases hf.symm.trans hf'
    exact ⟨h', hsize⟩

/-- For every record size that `create_file` accepts, and after every run of calls on live ids:
calls succeed, an insertion returns an id that was not live, live ids read as what was last put
there, and bitmap, counter and free chain agree. -/
theorem heap_file_refines_map {size : ℤ} (h₁ : 1 ≤ size) (h₂ : size ≤ RM_MAX_RECORD_SIZE) :
    ∃ hdr, createFile size = .ok hdr ∧ hdr.recordSize = size ∧
      ∀ (pages : ℤ → RmPage) (ops : List HeapOp) (f : RmFile) (m : Rid → Option Bytes),
        Run HeapStep (RmFile.openFile hdr pages, fun _ => none) ops (f, m) →
        (∀ buf : Bytes, buf.length = size → ∃ f' rid, f.insertRecord buf = .ok (f', rid) ∧
          m rid = none ∧ f'.ValidRid rid) ∧
        (∀ rid buf, m rid = some buf → f.ValidRid rid ∧ f.getRecord rid = .ok buf ∧
          (∃ f', f.deleteRecord rid = .ok f') ∧
          ∀ buf' : Bytes, buf'.length = size → ∃ f', f.updateRecord rid buf' = .ok f') ∧
        (∀ rid, f.ValidRid rid → f.isRecord rid = .ok (m rid).isSome) ∧
        (∀ p, f.DataPage p → (f.pages p).numRecords =
          (Bitmap.setBits (f.pages p).body (8 * f.hdr.bitmapSize)).card) ∧
        ∃ l : List ℤ, l.Nodup ∧ FreeChain f.nextFree f.hdr.firstFreePageNo l ∧
          ∀ p, p ∈ l ↔ f.DataPage p ∧
            ∃ slot < f.hdr.numRecordsPerPage, Bitmap.isSet (f.pages p).body slot = false := by
  have hnot : ¬ (size < 1 ∨ size > RM_MAX_RECORD_SIZE) := by omega
  obtain ⟨hdr, hcreate, hsize⟩ : ∃ hdr, createFile size = .ok hdr ∧
      hdr.recordSize = size.toNat := by
    rw [createFile, if_neg hnot]
    exact ⟨_, rfl, rfl⟩
  refine ⟨hdr, hcreate, by omega, fun pages ops f m hrun => ?_⟩
  obtain ⟨h, hrec⟩ : HeapInv f m ∧ f.hdr.recordSize = size.toNat := by
    refine Run.invariant (P := fun s => HeapInv s.1 s.2 ∧ s.1.hdr.recordSize = size.toNat) ?_ hrun
      ⟨HeapInv.openFile hcreate pages, hsize⟩
    rintro s op s' hstep ⟨hs, hn⟩
    obtain ⟨hs', hn'⟩ := hs.step hstep
    exact ⟨hs', hn'.trans hn⟩
  have hlen (buf : Bytes) (hbuf : (buf.length : ℤ) = size) :
    buf.length = f.hdr.recordSize := by omega
  refine ⟨fun buf hbuf => ?_, fun rid buf hm => ?_, fun rid => h.isRecord, fun p => h.count_bitmap,
    h.chain⟩
  · obtain ⟨f', rid, hf, hnone, hvalid, -⟩ := h.insert (hlen buf hbuf)
    exact ⟨f', rid, hf, hnone, hvalid⟩
  · have hlive : (m rid).isSome := by rw [hm]; rfl
    obtain ⟨f', hf, -⟩ := h.delete hlive
    refine ⟨(h.isSet_of_live hlive).1, h.getRecord hm, ⟨f', hf⟩, fun buf' hbuf' => ?_⟩
    obtain ⟨f', hf, -⟩ := h.update hlive (hlen buf' hbuf')
    exact ⟨f', hf⟩

/-- Records of 512 bytes, seven to a page: two insertions, an update of the first record, the
deletion of the second one and an insertion. -/
theorem heap_file_refines_map_five_calls : ∃ hdr, createFile 512 = .ok hdr ∧
    hdr.numRecordsPerPage = 7 ∧ ∀ (pages : ℤ → RmPage) (a b c d : Bytes), a.length = 512 →
      b.length = 512 → c.length = 512 → d.length = 512 → ∃ f m rid₁ rid₂ rid₃,
        Run HeapStep (RmFile.openFile hdr pages, fun _ => none)
          [.insert a, .insert b, .update rid₁ c, .delete rid₂, .insert d] (f, m) ∧
        rid₁ ≠ rid₂ ∧ rid₁ ≠ rid₃ ∧ f.getRecord rid₁ = .ok c ∧ f.getRecord rid₃ = .ok d ∧
        f.isRecord rid₁ = .ok true ∧ f.isRecord rid₃ = .ok true := by
  obtain ⟨hdr, hcreate, hsize, h⟩ :=
    heap_file_refines_map (show (1 : ℤ) ≤ 512 by decide) (by decide)
  have hsize : hdr.recordSize = 512 := by exact_mod_cast hsize
  refine ⟨hdr, hcreate, ?_, fun pages a b c d ha hb hc hd => ?_⟩
  · cases hcreate
    rfl
  -- the calls, each of a record of the size of the file
  have h₀ := HeapInv.openFile hcreate pages
  obtain ⟨f₁, rid₁, hf₁, -, -, hs₁, h₁⟩ := h₀.insert (ha.trans hsize.symm)
  have hs₁ : f₁.hdr.recordSize = 512 := hs₁.trans hsize
  obtain ⟨f₂, rid₂, hf₂, hnew₂, -, hs₂, h₂⟩ := h₁.insert (hb.trans hs₁.symm)
  have hne : rid₁ ≠ rid₂ := by
    rintro rfl
    simp at hnew₂
  have hs₂ : f₂.hdr.recordSize = 512 := hs₂.trans hs₁
  have hlive₁ : (Function.update (Function.update (fun _ => none) rid₁ (some a)) rid₂
      (some b) rid₁).isSome := by
    simp [hne]
  obtain ⟨f₃, hf₃, hs₃, h₃⟩ := h₂.update hlive₁ (hc.trans hs₂.symm)
  have hs₃ : f₃.hdr.recordSize = 512 := hs₃.trans hs₂
  have hlive₂ : (Function.update (Function.update (Function.update (fun _ => none) rid₁ (some a))
      rid₂ (some b)) rid₁ (some c) rid₂).isSome := by
    simp [hne.symm]
  obtain ⟨f₄, hf₄, hs₄, h₄⟩ := h₃.delete hlive₂
  have hs₄ : f₄.hdr.recordSize = 512 := hs₄.trans hs₃
  obtain ⟨f, rid₃, hf, hnew₃, -, -, -⟩ := h₄.insert (hd.trans hs₄.symm)
  have hne₃ : rid₁ ≠ rid₃ := by
    rintro rfl
    simp [hne] at hnew₃
  have hrun : Run HeapStep (RmFile.openFile hdr pages, fun _ => none)
      [.insert a, .insert b, .update rid₁ c, .delete rid₂, .insert d] (f, _) :=
    .cons (.insert (ha.trans hsize.symm) hf₁) <| .cons (.insert (hb.trans hs₁.symm) hf₂) <|
      .cons (.update (hc.trans hs₂.symm) hlive₁ hf₃) <| .cons (.delete hlive₂ hf₄) <|
      .single (.insert (hd.trans hs₄.symm) hf)
  obtain ⟨-, hread, hrecord, -⟩ := h pages _ _ _ hrun
  have hget₁ := hread rid₁ c (by simp [hne, hne₃])
  have hget₃ := hread rid₃ d (by simp)
  refine ⟨f, _, rid₁, rid₂, rid₃, hrun, hne, hne₃, hget₁.2.1, hget₃.2.1, ?_, ?_⟩
  · rw [hrecord rid₁ hget₁.1]
    simp [hne, hne₃]
  · rw [hrecord rid₃ hget₃.1]
    simp

/-! ## Ids out of range -/

/-- The header page of a new file of one-byte records, read as a data page: `num_pages` and
`num_records_per_page` stand where `RmPageHdr` is read, `first_free_page_no` and `bitmap_size`
behind. -/
def headerPage : RmPage :=
  { nextFreePageNo := 1, numRecords := 3622,
    body := fun i => [0xFF, 0xFF, 0xFF, 0xFF, 0xC5, 0x01, 0, 0].getD i 0 }

/-- `is_record` says yes for ids that no record can have: `(0, 0)` in the header page of a new file,
and a slot number behind the bitmap, whose bit is one of the record in slot 0. -/
theorem not_isRecord_iff_live : ∃ hdr, createFile 1 = .ok hdr ∧
    (RmFile.openFile hdr fun _ => headerPage).isRecord ⟨0, 0⟩ = .ok true ∧
    ∃ f m, Run HeapStep (RmFile.openFile hdr fun _ => headerPage, fun _ => none)
    [.insert [0x80]] (f, m) ∧ m ⟨1, 3624⟩ = none ∧ f.isRecord ⟨1, 3624⟩ = .ok true := by
  refine ⟨_, rfl, by decide, ?_⟩
  let f₀ := RmFile.openFile ⟨1, 1, 3622, RM_NO_PAGE, 453⟩ fun _ => headerPage
  have hinsert : f₀.insertRecord [0x80] = .ok (f₀.createNewPageHandle.1.insertInto 1 [0x80]) := rfl
  refine ⟨_, _, .single (.insert rfl hinsert), ?_, ?_⟩
  · decide
  · decide +kernel

end Rmdb
