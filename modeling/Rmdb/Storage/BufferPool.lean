import Mathlib.Data.Finset.Basic
import Mathlib.Data.List.AList
import Rmdb.Defs

/-!
# The buffer pool

A model of `BufferPoolManager` (`storage/buffer_pool_manager.cpp`) with its `LRUReplacer`
(`replacer/lru_replacer.cpp`) over a disk on which every read and write succeeds.  A `Page *` is the
index of its frame in `pages_`, and `nullptr` is `none`.  `std::unordered_map` is an `AList`, whose
entries the loops over `page_table_` visit in list order.
-/

namespace Rmdb

/-- `PageId`: a page of an open file. -/
structure PageId where
  fd : ℤ
  pageNo : ℤ
deriving DecidableEq, Repr

/-- `frame_id_t`. -/
abbrev FrameId := ℕ

/-- The bytes of a page. -/
abbrev Block := Fin PAGE_SIZE → UInt8

/-- The contents after `reset_memory`. -/
def Block.zero : Block := fun _ => 0

/-- `Page`: what one frame holds. -/
structure Frame where
  id : PageId
  data : Block := Block.zero
  isDirty : Bool := false
  pinCount : ℕ := 0

/-! ## The replacer -/

/-- `LRUReplacer`.  `lruHash` is the set of keys of `LRUhash_`; the iterator stored under a key
points to the element of `LRUlist_` that is this key. -/
structure LRUReplacer where
  lruList : List FrameId := []
  lruHash : Finset FrameId := ∅
  maxSize : ℕ

namespace LRUReplacer

/-- `victim`: the front of the list, if there is one. -/
def victim (r : LRUReplacer) : Option (FrameId × LRUReplacer) :=
  match r.lruList with
  | [] => none
  | f :: rest => some (f, { r with lruList := rest, lruHash := r.lruHash.erase f })

/-- `pin`. -/
def pin (r : LRUReplacer) (f : FrameId) : LRUReplacer :=
  if f ∈ r.lruHash then { r with lruList := r.lruList.erase f, lruHash := r.lruHash.erase f } else r

/-- `unpin`. -/
def unpin (r : LRUReplacer) (f : FrameId) : LRUReplacer :=
  if f ∈ r.lruHash then r
  else if r.maxSize ≤ r.lruList.length then r
  else { r with lruList := r.lruList ++ [f], lruHash := insert f r.lruHash }

end LRUReplacer

/-! ## The pool -/

/-- `DiskManager`, as far as the pool uses it. -/
structure DiskManager where
  blocks : PageId → Block
  fd2pageno : ℤ → ℤ

structure BufferPool where
  poolSize : ℕ
  pages : FrameId → Frame
  pageTable : AList fun _ : PageId => FrameId
  freeList : List FrameId
  replacer : LRUReplacer
  disk : DiskManager

namespace BufferPool

/-- The constructor: every frame is free.  `Page` does not initialise the `fd` of its id, which is
therefore arbitrary. -/
def init (poolSize : ℕ) (junkFd : FrameId → ℤ) (disk : DiskManager) : BufferPool where
  poolSize := poolSize
  pages f := { id := ⟨junkFd f, INVALID_PAGE_ID⟩ }
  pageTable := ∅
  freeList := List.range poolSize
  replacer := { maxSize := poolSize }
  disk := disk

def setFrame (s : BufferPool) (f : FrameId) (page : Frame) : BufferPool :=
  { s with pages := Function.update s.pages f page }

/-- `disk_manager_->write_page`. -/
def writePage (s : BufferPool) (p : PageId) (data : Block) : BufferPool :=
  { s with disk := { s.disk with blocks := Function.update s.disk.blocks p data } }

/-- `disk_manager_->allocate_page`. -/
def allocatePage (s : BufferPool) (fd : ℤ) : BufferPool :=
  { s with disk := { s.disk with
      fd2pageno := Function.update s.disk.fd2pageno fd (s.disk.fd2pageno fd + 1) } }

/-- `find_victim_page`. -/
def findVictimPage (s : BufferPool) : Option (FrameId × BufferPool) :=
  match s.freeList with
  | f :: rest => some (f, { s with freeList := rest })
  | [] => s.replacer.victim.map fun v => (v.1, { s with replacer := v.2 })

/-- `mark_dirty`. -/
def markDirty (s : BufferPool) (f : FrameId) : BufferPool :=
  s.setFrame f { s.pages f with isDirty := true }

/-- `update_page`. -/
def updatePage (s : BufferPool) (f : FrameId) (newId : PageId) : BufferPool :=
  let page := s.pages f
  let s := if page.isDirty then
      (s.writePage page.id page.data).setFrame f { page with isDirty := false }
    else s
  let s := { s with pageTable := s.pageTable.erase page.id }
  let s := s.setFrame f { s.pages f with id := newId }
  { s with pageTable := s.pageTable.insert newId f }

/-- `fetch_page`. -/
def fetchPage (s : BufferPool) (p : PageId) : BufferPool × Option FrameId :=
  match s.pageTable.lookup p with
  | some f =>
    let s := { s with replacer := s.replacer.pin f }
    (s.setFrame f { s.pages f with pinCount := (s.pages f).pinCount + 1 }, some f)
  | none =>
    match s.findVictimPage with
    | none => (s, none)
    | some (f, s) =>
      let s := if (s.pages f).isDirty then s.updatePage f p else s
      let s := { s with pageTable := s.pageTable.erase (s.pages f).id }
      let s := s.setFrame f { id := p, data := s.disk.blocks p, pinCount := 1, isDirty := false }
      let s := { s with pageTable := s.pageTable.insert p f }
      ({ s with replacer := s.replacer.pin f }, some f)

/-- `unpin_page`. -/
def unpinPage (s : BufferPool) (p : PageId) (isDirty : Bool) : BufferPool × Bool :=
  match s.pageTable.lookup p with
  | none => (s, false)
  | some f =>
    let page := s.pages f
    if page.pinCount ≤ 0 then (s, false)
    else
      let page := { page with pinCount := page.pinCount - 1 }
      let s := if page.pinCount = 0 then { s with replacer := s.replacer.unpin f } else s
      (s.setFrame f (if isDirty then { page with isDirty := true } else page), true)

/-- The body of the flush loops: write the page in frame `f` back, dirty or not. -/
def writeBack (s : BufferPool) (p : PageId) (f : FrameId) : BufferPool :=
  (s.writePage p (s.pages f).data).setFrame f { s.pages f with isDirty := false }

/-- `flush_page`. -/
def flushPage (s : BufferPool) (p : PageId) : BufferPool × Bool :=
  match s.pageTable.lookup p with
  | none => (s, false)
  | some f => (s.writeBack p f, true)

/-- The id that `new_page` gives to its page. -/
def newPageId (s : BufferPool) (fd : ℤ) : PageId := ⟨fd, s.disk.fd2pageno fd⟩

/-- `new_page`. -/
def newPage (s : BufferPool) (fd : ℤ) : BufferPool × Option FrameId :=
  match s.findVictimPage with
  | none => (s, none)
  | some (f, s) =>
    let page := s.pages f
    let s := if page.isDirty then s.writePage page.id page.data else s
    let s := { s with pageTable := s.pageTable.erase page.id }
    let p := s.newPageId fd
    let s := s.allocatePage fd
    let s := s.setFrame f { id := p, data := Block.zero, pinCount := 1, isDirty := false }
    let s := { s with pageTable := s.pageTable.insert p f }
    ({ s with replacer := s.replacer.pin f }, some f)

/-- Take the page `p` in frame `f` out of the pool and put the frame on the free list, with pin
count `pins`: the common end of `delete_page` and of the loop of `remove_all_pages`. -/
def release (s : BufferPool) (p : PageId) (f : FrameId) (pins : ℕ) : BufferPool :=
  let s := { s with pageTable := s.pageTable.erase p, replacer := s.replacer.pin f }
  let s := s.setFrame f
    { id := ⟨INVALID_PAGE_ID, INVALID_PAGE_ID⟩, data := Block.zero, isDirty := false
      pinCount := pins }
  { s with freeList := s.freeList ++ [f] }

/-- `delete_page`. -/
def deletePage (s : BufferPool) (p : PageId) : BufferPool × Bool :=
  match s.pageTable.lookup p with
  | none => (s, true)
  | some f =>
    if (s.pages f).pinCount ≠ 0 then (s, false)
    else
      let s := if (s.pages f).isDirty then s.writePage p (s.pages f).data else s
      (s.release p f (s.pages f).pinCount, true)

/-- `flush_all_pages`. -/
def flushAllPages (s : BufferPool) (fd : ℤ) : BufferPool :=
  s.pageTable.entries.foldl (fun s e => if e.1.fd = fd then s.writeBack e.1 e.2 else s) s

/-- `flush_all_dirty_pages`. -/
def flushAllDirtyPages (s : BufferPool) : BufferPool :=
  s.pageTable.entries.foldl
    (fun s e => if (s.pages e.2).isDirty then s.writeBack e.1 e.2 else s) s

/-- The loop body of `remove_all_pages`. -/
def removePage (s : BufferPool) (p : PageId) : BufferPool :=
  match s.pageTable.lookup p with
  | none => s
  | some f => s.release p f 0

/-- `remove_all_pages`: collect the pages of the file, then drop each without writing it back. -/
def removeAllPages (s : BufferPool) (fd : ℤ) : BufferPool :=
  ((s.pageTable.keys.filter fun p => p.fd = fd).foldl removePage s)

end BufferPool

end Rmdb
