import Rmdb.Lib.Run
import Rmdb.Record.HeapFile

/-!
# The size of a table file

A table file on disk, one write at a time.  `create_new_page_handle` writes the grown header at
once, while the page that it counts stays in the buffer pool until it is evicted or flushed.  A
write at a place beyond the end makes the file longer, with zeros in between; so the pages that a
header counts can all be read exactly when the last of them has been written.
-/

namespace Rmdb

/-- `sizeof(RmFileHdr)`. -/
def RM_FILE_HDR_SIZE : ℕ := 20

/-- A table file on disk: its length, the header in page 0 and the data pages. -/
structure DiskFile where
  size : ℕ
  hdr : RmFileHdr
  pages : ℤ → RmPage

namespace DiskFile

/-- The length after `write_page` of `numBytes` bytes. -/
def grow (d : DiskFile) (pageNo : ℤ) (numBytes : ℕ) : ℕ :=
  max d.size (pageNo.toNat * PAGE_SIZE + numBytes)

/-- `write_page` of the header. -/
def writeHdr (d : DiskFile) (hdr : RmFileHdr) : DiskFile :=
  { d with size := d.grow 0 RM_FILE_HDR_SIZE, hdr := hdr }

/-- `write_page` of a data page. -/
def writePage (d : DiskFile) (pageNo : ℤ) (page : RmPage) : DiskFile :=
  { d with size := d.grow pageNo PAGE_SIZE, pages := Function.update d.pages pageNo page }

/-- What `read` returns. -/
def bytesRead (d : DiskFile) (pageNo : ℤ) (numBytes : ℕ) : ℕ :=
  min numBytes (d.size - pageNo.toNat * PAGE_SIZE)

/-- `read_page` of a data page; a short read throws. -/
def readPage (d : DiskFile) (pageNo : ℤ) : Option RmPage :=
  if d.bytesRead pageNo PAGE_SIZE = PAGE_SIZE then some (d.pages pageNo) else none

theorem readPage_isSome_iff (d : DiskFile) (pageNo : ℤ) :
    (d.readPage pageNo).isSome ↔ (pageNo.toNat + 1) * PAGE_SIZE ≤ d.size := by
  rw [readPage, bytesRead, Nat.add_mul, Nat.one_mul]
  have hpos : 0 < PAGE_SIZE := by decide
  split <;> simp <;> omega

end DiskFile

/-- A table file, its handle, and the pages of it that are in the buffer pool and those of them that
are marked dirty. -/
structure TableFile where
  handle : RmFile
  disk : DiskFile
  resident : List ℤ := []
  dirty : List ℤ := []

/-- What happens to a table file, each with at most one write to disk. -/
inductive TableOp
  /-- `create_new_page_handle`. -/
  | createNewPage
  /-- A page enters the pool: `fetch_page`. -/
  | load (pageNo : ℤ)
  /-- The rest of `insert_record`, in the page that it found. -/
  | insertInto (pageNo : ℤ) (buf : Bytes)
  | insertRecordAt (rid : Rid) (buf : Bytes)
  | updateRecord (rid : Rid) (buf : Bytes)
  | deleteRecord (rid : Rid)
  /-- The pool writes a page back. -/
  | writeBack (pageNo : ℤ)
  /-- A clean page leaves the pool. -/
  | drop (pageNo : ℤ)
  /-- `close_file` writes the header. -/
  | writeHdr
  /-- The server dies, and the file is opened again. -/
  | crash
deriving DecidableEq

namespace TableFile

/-- `create_file`, then `open_file`. -/
def create (hdr : RmFileHdr) : TableFile :=
  let disk : DiskFile := ⟨RM_FILE_HDR_SIZE, hdr, fun _ => {}⟩
  { handle := .openFile hdr disk.pages, disk := disk }

/-- An operation on a page in the pool, which marks the page dirty.  A header that has changed is
written. -/
def modify (s : TableFile) (pageNo : ℤ) (r : Except RmError RmFile) : Option TableFile :=
  match r with
  | .error _ => none
  | .ok f =>
    if pageNo ∈ s.resident then
      some { s with
        handle := f
        disk := if f.hdr = s.handle.hdr then s.disk else s.disk.writeHdr f.hdr
        dirty := pageNo :: s.dirty }
    else none

/-- One step; `none` when it is not possible or throws. -/
def step (s : TableFile) : TableOp → Option TableFile
  | .createNewPage =>
    let (f, pageNo) := s.handle.createNewPageHandle
    some { s with handle := f, disk := s.disk.writeHdr f.hdr, resident := pageNo :: s.resident }
  | .load pageNo =>
    if 1 ≤ pageNo ∧ pageNo < s.handle.hdr.numPages then
      (s.disk.readPage pageNo).map fun _ => { s with resident := pageNo :: s.resident }
    else none
  | .insertInto pageNo buf => s.modify pageNo (.ok (s.handle.insertInto pageNo buf).1)
  | .insertRecordAt rid buf => s.modify rid.pageNo (s.handle.insertRecordAt rid buf)
  | .updateRecord rid buf => s.modify rid.pageNo (s.handle.updateRecord rid buf)
  | .deleteRecord rid => s.modify rid.pageNo (s.handle.deleteRecord rid)
  | .writeBack pageNo =>
    if pageNo ∈ s.resident then
      some { s with
        disk := s.disk.writePage pageNo (s.handle.pages pageNo)
        dirty := s.dirty.filter (· ≠ pageNo) }
    else none
  | .drop pageNo =>
    if pageNo ∈ s.dirty then none else some { s with resident := s.resident.filter (· ≠ pageNo) }
  | .writeHdr => some { s with disk := s.disk.writeHdr s.handle.hdr }
  | .crash => some { handle := .openFile s.disk.hdr s.disk.pages, disk := s.disk }

def Steps (s : TableFile) (op : TableOp) (s' : TableFile) : Prop := s.step op = some s'

/-- Every data page that the header on disk counts can be read in full. -/
def Readable (s : TableFile) : Prop :=
  ∀ p, 1 ≤ p → p < s.disk.hdr.numPages → (s.disk.readPage p).isSome

/-! ## The invariant -/

/-- The operations on records leave the number of pages alone. -/
def KeepsPages (f f' : RmFile) : Prop :=
  f'.hdr.numPages = f.hdr.numPages ∧ f'.fd2pageno = f.fd2pageno

theorem keepsPages_insertInto (f : RmFile) (pageNo : ℤ) (buf : Bytes) :
    KeepsPages f (f.insertInto pageNo buf).1 := by
  unfold RmFile.insertInto
  dsimp only
  split <;> exact ⟨rfl, rfl⟩

variable {f f' : RmFile} {rid : Rid} {buf : Bytes}

theorem keepsPages_insertRecordAt (h : f.insertRecordAt rid buf = .ok f') : KeepsPages f f' := by
  unfold RmFile.insertRecordAt RmFile.fetchPageHandle at h
  split at h
  · cases h
  · cases h
    exact ⟨rfl, rfl⟩

theorem keepsPages_updateRecord (h : f.updateRecord rid buf = .ok f') : KeepsPages f f' := by
  unfold RmFile.updateRecord RmFile.fetchPageHandle at h
  split at h
  · cases h
  · cases h
    exact ⟨rfl, rfl⟩

theorem keepsPages_deleteRecord (h : f.deleteRecord rid = .ok f') : KeepsPages f f' := by
  unfold RmFile.deleteRecord RmFile.fetchPageHandle at h
  split at h
  · cases h
  · simp only [bind, Except.bind, pure, Except.pure] at h
    split at h
    · cases h
      exact ⟨rfl, rfl⟩
    · cases h
      exact ⟨rfl, rfl⟩

/-- The pages written so far are `written`: the header on disk counts the pages of the handle, and
the file ends with the last page that was written. -/
structure Inv (written : List ℤ) (s : TableFile) : Prop where
  hdr : s.disk.hdr.numPages = s.handle.hdr.numPages
  next : s.handle.fd2pageno = s.handle.hdr.numPages
  pos : 1 ≤ s.handle.hdr.numPages
  resident : ∀ p ∈ s.resident, 1 ≤ p ∧ p < s.handle.hdr.numPages
  covered : ∀ p ∈ written, 1 ≤ p ∧ p < s.handle.hdr.numPages ∧
    (p.toNat + 1) * PAGE_SIZE ≤ s.disk.size
  size : s.disk.size = RM_FILE_HDR_SIZE ∨ ∃ p ∈ written, s.disk.size = (p.toNat + 1) * PAGE_SIZE

/-- The page that a step writes. -/
def pageWritten : TableOp → List ℤ
  | .writeBack pageNo => [pageNo]
  | _ => []

variable {written : List ℤ} {s s' : TableFile} {op : TableOp}

theorem size_writeHdr (h : Inv written s) (hdr : RmFileHdr) :
    (s.disk.writeHdr hdr).size = s.disk.size := by
  show max s.disk.size (0 * PAGE_SIZE + RM_FILE_HDR_SIZE) = s.disk.size
  have hle : RM_FILE_HDR_SIZE ≤ PAGE_SIZE := by decide
  rcases h.size with hs | ⟨p, -, hs⟩
  · omega
  · have hmul : PAGE_SIZE ≤ (p.toNat + 1) * PAGE_SIZE := Nat.le_mul_of_pos_left _ (Nat.succ_pos _)
    omega

theorem Inv.modify (h : Inv written s) {pageNo : ℤ} {r : Except RmError RmFile}
    (hr : ∀ f, r = .ok f → KeepsPages s.handle f) (hs : s.modify pageNo r = some s') :
    Inv written s' := by
  unfold TableFile.modify at hs
  split at hs
  · cases hs
  · rename_i f
    obtain ⟨hnum, hnext⟩ := hr f rfl
    split at hs
    · cases hs
      have hsize : (if f.hdr = s.handle.hdr then s.disk else s.disk.writeHdr f.hdr).size =
          s.disk.size := by
        split
        · rfl
        · exact size_writeHdr h _
      refine ⟨?_, ?_, ?_, ?_, ?_, ?_⟩
      · show (if f.hdr = s.handle.hdr then s.disk else s.disk.writeHdr f.hdr).hdr.numPages =
          f.hdr.numPages
        split
        · rw [h.hdr, hnum]
        · rfl
      · rw [hnext, h.next, hnum]
      · rw [hnum]
        exact h.pos
      · rw [hnum]
        exact h.resident
      · rw [hnum, hsize]
        exact h.covered
      · rw [hsize]
        exact h.size
    · cases hs

/-- A new page, with the header written. -/
theorem Inv.grow (h : Inv written s) {pageNo : ℤ}
    (hnum : f.hdr.numPages = s.handle.hdr.numPages + 1)
    (hnext : f.fd2pageno = s.handle.fd2pageno + 1) (hpage : pageNo = s.handle.fd2pageno) :
    Inv written
      { s with handle := f, disk := s.disk.writeHdr f.hdr, resident := pageNo :: s.resident } := by
  have hsize := size_writeHdr h f.hdr
  have hpos := h.pos
  have hcur := h.next
  refine ⟨rfl, ?_, ?_, fun p hp => ?_, fun p hp => ?_, hsize ▸ h.size⟩
  · show f.fd2pageno = f.hdr.numPages
    omega
  · show 1 ≤ f.hdr.numPages
    omega
  · show 1 ≤ p ∧ p < f.hdr.numPages
    rcases List.mem_cons.1 hp with rfl | hp
    · omega
    · have hin := h.resident p hp
      omega
  · obtain ⟨hlow, hhigh, hle⟩ := h.covered p hp
    refine ⟨hlow, ?_, hsize ▸ hle⟩
    show p < f.hdr.numPages
    omega

theorem Inv.step (h : Inv written s) (hs : Steps s op s') : Inv (written ++ pageWritten op) s' := by
  cases op with
  | createNewPage =>
    cases hs
    simp only [pageWritten, List.append_nil]
    exact h.grow rfl rfl rfl
  | load pageNo =>
    simp only [Steps, TableFile.step] at hs
    split at hs
    · rename_i hin
      obtain ⟨page, -, rfl⟩ := Option.map_eq_some_iff.1 hs
      simp only [pageWritten, List.append_nil]
      refine ⟨h.hdr, h.next, h.pos, ?_, h.covered, h.size⟩
      intro p hp
      rcases List.mem_cons.1 hp with rfl | hp
      · exact hin
      · exact h.resident p hp
    · cases hs
  | insertInto pageNo buf =>
    simp only [pageWritten, List.append_nil]
    have hs' : s.modify pageNo (.ok (s.handle.insertInto pageNo buf).1) = some s' := hs
    refine h.modify (fun f hf => ?_) hs'
    cases hf
    exact keepsPages_insertInto _ _ _
  | insertRecordAt rid buf =>
    simp only [pageWritten, List.append_nil]
    have hs' : s.modify rid.pageNo (s.handle.insertRecordAt rid buf) = some s' := hs
    exact h.modify (fun f hf => keepsPages_insertRecordAt hf) hs'
  | updateRecord rid buf =>
    simp only [pageWritten, List.append_nil]
    have hs' : s.modify rid.pageNo (s.handle.updateRecord rid buf) = some s' := hs
    exact h.modify (fun f hf => keepsPages_updateRecord hf) hs'
  | deleteRecord rid =>
    simp only [pageWritten, List.append_nil]
    have hs' : s.modify rid.pageNo (s.handle.deleteRecord rid) = some s' := hs
    exact h.modify (fun f hf => keepsPages_deleteRecord hf) hs'
  | writeBack pageNo =>
    simp only [Steps, TableFile.step] at hs
    split at hs
    · rename_i hin
      cases hs
      obtain ⟨hlow, hhigh⟩ := h.resident pageNo hin
      have hsize : (s.disk.writePage pageNo (s.handle.pages pageNo)).size =
          max s.disk.size ((pageNo.toNat + 1) * PAGE_SIZE) := by
        show max s.disk.size (pageNo.toNat * PAGE_SIZE + PAGE_SIZE) = _
        rw [Nat.add_mul, Nat.one_mul]
      refine ⟨h.hdr, h.next, h.pos, h.resident, ?_, ?_⟩
      · intro p hp
        rw [hsize]
        rcases List.mem_append.1 hp with hp | hp
        · obtain ⟨hlow, hhigh, hle⟩ := h.covered p hp
          exact ⟨hlow, hhigh, hle.trans (le_max_left _ _)⟩
        · rw [List.mem_singleton.1 hp]
          exact ⟨hlow, hhigh, le_max_right _ _⟩
      · rw [hsize]
        rcases le_total s.disk.size ((pageNo.toNat + 1) * PAGE_SIZE) with hle | hle
        · exact .inr ⟨pageNo, by simp [pageWritten], max_eq_right hle⟩
        · rw [max_eq_left hle]
          rcases h.size with hsz | ⟨p, hp, hsz⟩
          · exact .inl hsz
          · exact .inr ⟨p, List.mem_append_left _ hp, hsz⟩
    · cases hs
  | drop pageNo =>
    simp only [Steps, TableFile.step] at hs
    split at hs
    · cases hs
    · cases hs
      simp only [pageWritten, List.append_nil]
      exact ⟨h.hdr, h.next, h.pos, fun p hp => h.resident p (List.mem_of_mem_filter hp),
        h.covered, h.size⟩
  | writeHdr =>
    cases hs
    have hsize := size_writeHdr h s.handle.hdr
    simp only [pageWritten, List.append_nil]
    exact ⟨rfl, h.next, h.pos, h.resident, hsize ▸ h.covered, hsize ▸ h.size⟩
  | crash =>
    cases hs
    simp only [pageWritten, List.append_nil]
    have hnum : (RmFile.openFile s.disk.hdr s.disk.pages).hdr.numPages =
      s.handle.hdr.numPages := h.hdr
    exact ⟨rfl, rfl, hnum ▸ h.pos, (fun p hp => by cases hp), hnum ▸ h.covered, h.size⟩

theorem Inv.run {ops : List TableOp} (h : Run Steps s ops s') (hs : Inv written s) :
    Inv (written ++ ops.flatMap pageWritten) s' := by
  induction h generalizing written with
  | nil s =>
    rw [List.flatMap_nil, List.append_nil]
    exact hs
  | cons ha _ ih =>
    rw [List.flatMap_cons, ← List.append_assoc]
    exact ih (hs.step ha)

theorem inv_create {hdr : RmFileHdr} (h : hdr.numPages = 1) : Inv [] (create hdr) :=
  ⟨rfl, rfl, h.ge, (fun p hp => by cases hp), (fun p hp => by cases hp), .inl rfl⟩

/-- The pages can be read when the last one has been written. -/
theorem Inv.readable_iff (h : Inv written s) :
    Readable s ↔ s.disk.hdr.numPages = 1 ∨ s.disk.hdr.numPages - 1 ∈ written := by
  have hpos := h.pos
  rw [← h.hdr] at hpos
  constructor
  · intro hread
    by_cases hone : s.disk.hdr.numPages = 1
    · exact .inl hone
    · have hlast := hread (s.disk.hdr.numPages - 1) (by omega) (by omega)
      rw [DiskFile.readPage_isSome_iff] at hlast
      right
      rcases h.size with hsize | ⟨p, hp, hsize⟩
      · have hle : PAGE_SIZE ≤ ((s.disk.hdr.numPages - 1).toNat + 1) * PAGE_SIZE :=
          Nat.le_mul_of_pos_left _ (Nat.succ_pos _)
        have hlt : RM_FILE_HDR_SIZE < PAGE_SIZE := by decide
        omega
      · obtain ⟨hlow, hhigh, -⟩ := h.covered p hp
        rw [hsize] at hlast
        have hle := Nat.le_of_mul_le_mul_right hlast (by decide)
        have hp' : p = s.disk.hdr.numPages - 1 := by
          rw [h.hdr] at hle ⊢
          omega
        rwa [hp'] at hp
  · intro hlast p hlow hhigh
    rw [DiskFile.readPage_isSome_iff]
    rcases hlast with hone | hmem
    · omega
    · obtain ⟨-, -, hle⟩ := h.covered _ hmem
      refine le_trans (Nat.mul_le_mul_right _ ?_) hle
      omega

/-- After every run, with crashes at any point of it, the data pages that the header on disk counts
can all be read if and only if there is none or the last one has been written back. -/
theorem pages_readable_iff {recordSize : ℤ} {hdr : RmFileHdr}
    (hhdr : createFile recordSize = .ok hdr)
    {ops : List TableOp} (h : Run Steps (create hdr) ops s) :
    Readable s ↔ s.disk.hdr.numPages = 1 ∨ .writeBack (s.disk.hdr.numPages - 1) ∈ ops := by
  have hone : hdr.numPages = 1 := by
    unfold createFile at hhdr
    split at hhdr
    · cases hhdr
    · cases hhdr
      rfl
  rw [((inv_create hone).run h).readable_iff, List.nil_append]
  refine or_congr_right ?_
  rw [List.mem_flatMap]
  constructor
  · rintro ⟨op, hop, hmem⟩
    cases op with
    | writeBack p =>
      rw [List.mem_singleton.1 hmem]
      exact hop
    | _ => cases hmem
  · intro hmem
    exact ⟨_, hmem, by simp [pageWritten]⟩

/-- The header of a table with records of four bytes. -/
def intHdr : RmFileHdr := ⟨4, 1, 987, -1, 124⟩

theorem pages_readable_after_write : createFile 4 = .ok intHdr ∧ ∃ s,
    Run Steps (create intHdr) [.createNewPage, .insertInto 1 [1, 0, 0, 0], .writeBack 1, .crash] s ∧
      Readable s := by
  have hhdr : createFile 4 = .ok intHdr := by decide
  have hrun : ∃ s, Run Steps (create intHdr)
      [.createNewPage, .insertInto 1 [1, 0, 0, 0], .writeBack 1, .crash] s ∧
        s.disk.hdr.numPages = 2 :=
    ⟨_, .cons rfl (.cons rfl (.cons rfl (.cons rfl (.nil _)))), rfl⟩
  obtain ⟨s, hrun, hnum⟩ := hrun
  refine ⟨hhdr, s, hrun, (pages_readable_iff hhdr hrun).2 (.inr ?_)⟩
  rw [hnum]
  decide

/-- The server dies after `create_new_page_handle` has written the header. -/
theorem not_pages_readable : ¬ ∀ (hdr : RmFileHdr), createFile 4 = .ok hdr → ∀ (ops : List TableOp)
    (s : TableFile), Run Steps (create hdr) ops s → Readable s := by
  intro h
  have hread := h intHdr (by decide) [.createNewPage, .crash] _ (.cons rfl (.cons rfl (.nil _)))
  have hpage := hread 1 (by decide) (by decide)
  revert hpage
  decide

end TableFile

end Rmdb
