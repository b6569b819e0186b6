import Rmdb.Record.Bitmap

/-!
# Table files

A model of `RmFileHandle` (`record/rm_file_handle.cpp`) and of `RmManager::create_file`
(`record/rm_manager.h`) over a buffer pool that returns the latest content of each page.  A page is
its two header fields and the bytes after them: the bitmap, and from `bitmap_size` on the slots.
Record locks are requested by the callers in this model; the functions here are what runs once a
lock is granted.
-/

namespace Rmdb

def RM_NO_PAGE : ℤ := -1
def RM_MAX_RECORD_SIZE : ℤ := 512

/-- The errors that the functions of this file throw. -/
inductive RmError
  | invalidRecordSize (recordSize : ℤ)
  | pageNotExist (pageNo : ℤ)
deriving DecidableEq, Repr

structure RmFileHdr where
  recordSize : ℕ
  numPages : ℤ
  numRecordsPerPage : ℕ
  firstFreePageNo : ℤ
  bitmapSize : ℕ
deriving DecidableEq, Repr

/-- A data page: `RmPageHdr` and the bytes after it. -/
structure RmPage where
  nextFreePageNo : ℤ := 0
  numRecords : ℤ := 0
  body : ℕ → UInt8 := fun _ => 0

/-- An open table file, with the page number that `allocate_page` hands out next. -/
structure RmFile where
  hdr : RmFileHdr
  pages : ℤ → RmPage
  fd2pageno : ℤ

/-- The bytes of a page before its bitmap: the page's LSN and `RmPageHdr`. -/
def RM_PAGE_PREFIX : ℕ := 12

/-- `RmManager::create_file`: the header it writes.  `sizeof(RmFileHdr)` is 20. -/
def createFile (recordSize : ℤ) : Except RmError RmFileHdr :=
  if recordSize < 1 ∨ recordSize > RM_MAX_RECORD_SIZE then throw (.invalidRecordSize recordSize)
  else
    let size := recordSize.toNat
    let perPage := (8 * (PAGE_SIZE - 1 - 20) + 1) / (1 + size * 8)
    return { recordSize := size, numPages := 1, numRecordsPerPage := perPage,
             firstFreePageNo := RM_NO_PAGE, bitmapSize := (perPage + 8 - 1) / 8 }

/-- `memcpy` of the first `size` bytes of `buf` to `offset`. -/
def memcpy (body : ℕ → UInt8) (offset : ℕ) (buf : Bytes) (size : ℕ) : ℕ → UInt8 :=
  fun i => if offset ≤ i ∧ i < offset + size then buf.getD (i - offset) 0 else body i

/-- The `size` bytes from `offset` on. -/
def readBytes (body : ℕ → UInt8) (offset size : ℕ) : Bytes :=
  (List.range size).map fun i => body (offset + i)

/-- `RmPageHandle::get_slot`, relative to the bitmap. -/
def RmFileHdr.getSlot (hdr : RmFileHdr) (slotNo : ℕ) : ℕ := hdr.bitmapSize + slotNo * hdr.recordSize

namespace RmFile

/-- The constructor of `RmFileHandle` on a file with this header. -/
def openFile (hdr : RmFileHdr) (pages : ℤ → RmPage) : RmFile :=
  { hdr := hdr, pages := pages, fd2pageno := hdr.numPages }

def setPage (f : RmFile) (pageNo : ℤ) (page : RmPage) : RmFile :=
  { f with pages := Function.update f.pages pageNo page }

def fetchPageHandle (f : RmFile) (pageNo : ℤ) : Except RmError RmPage :=
  if pageNo < 0 ∨ pageNo ≥ f.hdr.numPages then throw (.pageNotExist pageNo) else
    return f.pages pageNo

def createNewPageHandle (f : RmFile) : RmFile × ℤ :=
  let pageNo := f.fd2pageno
  let body := Bitmap.init (fun _ => 0) f.hdr.bitmapSize
  let f := { f with
    fd2pageno := f.fd2pageno + 1
    hdr := { f.hdr with numPages := f.hdr.numPages + 1, firstFreePageNo := pageNo } }
  (f.setPage pageNo { nextFreePageNo := -1, numRecords := 0, body := body }, pageNo)

def createPageHandle (f : RmFile) : Except RmError (RmFile × ℤ) :=
  if f.hdr.firstFreePageNo = -1 then return f.createNewPageHandle
  else do
    let _ ← f.fetchPageHandle f.hdr.firstFreePageNo
    return (f, f.hdr.firstFreePageNo)

def releasePageHandle (f : RmFile) (pageNo : ℤ) : RmFile :=
  let f := f.setPage pageNo { f.pages pageNo with nextFreePageNo := f.hdr.firstFreePageNo }
  { f with hdr := { f.hdr with firstFreePageNo := pageNo } }

def isRecord (f : RmFile) (rid : Rid) : Except RmError Bool := do
  let page ← f.fetchPageHandle rid.pageNo
  return Bitmap.isSet page.body rid.slotNo.toNat

def getRecord (f : RmFile) (rid : Rid) : Except RmError Bytes := do
  let page ← f.fetchPageHandle rid.pageNo
  return readBytes page.body (f.hdr.getSlot rid.slotNo.toNat) f.hdr.recordSize

/-- The page with `buf` written to a slot that becomes occupied: what both `insert_record` do. -/
def fillSlot (f : RmFile) (pageNo : ℤ) (slotNo : ℕ) (buf : Bytes) : RmFile :=
  let page := f.pages pageNo
  let body := memcpy page.body (f.hdr.getSlot slotNo) buf f.hdr.recordSize
  f.setPage pageNo
    { page with body := Bitmap.set body slotNo, numRecords := page.numRecords + 1 }

/-- What `insert_record` does in the page that it found, once the slot is locked. -/
def insertInto (f : RmFile) (pageNo : ℤ) (buf : Bytes) : RmFile × Rid :=
  let slotNo := Bitmap.firstBit false (f.pages pageNo).body f.hdr.numRecordsPerPage
  let f := f.fillSlot pageNo slotNo buf
  let page := f.pages pageNo
  if page.numRecords = f.hdr.numRecordsPerPage then
    ({ f with hdr := { f.hdr with firstFreePageNo := page.nextFreePageNo } }, ⟨pageNo, slotNo⟩)
  else (f, ⟨pageNo, slotNo⟩)

/-- `insert_record` without a position. -/
def insertRecord (f : RmFile) (buf : Bytes) : Except RmError (RmFile × Rid) := do
  let (f, pageNo) ← f.createPageHandle
  return f.insertInto pageNo buf

/-- `insert_record` at a given position. -/
def insertRecordAt (f : RmFile) (rid : Rid) (buf : Bytes) : Except RmError RmFile := do
  let _ ← f.fetchPageHandle rid.pageNo
  return f.fillSlot rid.pageNo rid.slotNo.toNat buf

def deleteRecord (f : RmFile) (rid : Rid) : Except RmError RmFile := do
  let page ← f.fetchPageHandle rid.pageNo
  let page := { page with
    body := Bitmap.reset page.body rid.slotNo.toNat, numRecords := page.numRecords - 1 }
  let f := f.setPage rid.pageNo page
  if page.numRecords = f.hdr.numRecordsPerPage - 1 then return f.releasePageHandle rid.pageNo
  else return f

def updateRecord (f : RmFile) (rid : Rid) (buf : Bytes) : Except RmError RmFile := do
  let page ← f.fetchPageHandle rid.pageNo
  let body := memcpy page.body (f.hdr.getSlot rid.slotNo.toNat) buf f.hdr.recordSize
  return f.setPage rid.pageNo { page with body := body }

end RmFile

end Rmdb
