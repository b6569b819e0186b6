import Rmdb.Storage.FramePartition

/-!
# Descriptors and the pages of closed files

Pages of the pool are named by the descriptor of their file, and the operating system gives the
number of a closed descriptor to a file that is opened later.  `close_index` takes the pages of the
file out of the pool; `RmManager::close_file` writes them back but leaves them there, where they
pass for pages of the next file with this number.

The files are numbered in the order in which they are created.  For every frame and every block of
an open file the state remembers the file that its data stem from: the one that the descriptor
belonged to when they were loaded or written.
-/

namespace Rmdb

open BufferPool

/-- An open file: its number, whether it is an index, and the descriptors of the indexes of a
table. -/
structure OpenFile where
  file : ℕ
  isIndex : Bool
  indexes : List ℤ := []
deriving DecidableEq, Repr

/-- The pool, the open files by descriptor, the number of files created, and the files that the data
of the frames and on disk stem from. -/
structure Files where
  pool : BufferPool
  opened : ℤ → Option OpenFile
  created : ℕ
  frameFile : FrameId → Option ℕ
  diskFile : PageId → Option ℕ

/-- `RM_FILE_HDR_PAGE` and `IX_FILE_HDR_PAGE`. -/
def FILE_HDR_PAGE : ℤ := 0

namespace Files

variable (s : Files)

/-- The file that a descriptor belongs to. -/
def owner (fd : ℤ) : Option ℕ := (s.opened fd).map OpenFile.file

/-! ## Pages -/

/-- The files on disk after the page in frame `f` has left the pool. -/
def evictedFile (f : FrameId) : PageId → Option ℕ :=
  if (s.pool.pages f).isDirty then Function.update s.diskFile (s.pool.pages f).id (s.frameFile f)
  else s.diskFile

/-- `fetch_page`. -/
def fetchPage (p : PageId) : Files :=
  let pool := (s.pool.fetchPage p).1
  match s.pool.pageTable.lookup p, s.pool.findVictimPage with
  | none, some (f, _) =>
    { s with
      pool := pool
      frameFile := Function.update s.frameFile f (s.evictedFile f p)
      diskFile := s.evictedFile f }
  | _, _ => { s with pool := pool }

/-- `new_page`. -/
def newPage (fd : ℤ) : Files :=
  let pool := (s.pool.newPage fd).1
  match s.pool.findVictimPage with
  | none => { s with pool := pool }
  | some (f, _) =>
    { s with
      pool := pool
      frameFile := Function.update s.frameFile f (s.owner fd)
      diskFile := s.evictedFile f }

/-- New data in a frame, which the client marks dirty when it unpins the page. -/
def write (f : FrameId) (data : Block) : Files :=
  { s with
    pool := s.pool.setFrame f { s.pool.pages f with data := data }
    frameFile := Function.update s.frameFile f (s.owner (s.pool.pages f).id.fd) }

/-- The files on disk after the pages that meet `c` have been written back. -/
def flushedFile (c : PageId → FrameId → Bool) : PageId → Option ℕ := fun p =>
  match s.pool.pageTable.lookup p with
  | some f => if c p f then s.frameFile f else s.diskFile p
  | none => s.diskFile p

/-- `flush_all_pages`. -/
def flushAllPages (fd : ℤ) : Files :=
  { s with
    pool := s.pool.flushAllPages fd
    diskFile := s.flushedFile fun p _ => decide (p.fd = fd) }

/-- `flush_all_dirty_pages`. -/
def flushAllDirtyPages : Files :=
  { s with
    pool := s.pool.flushAllDirtyPages
    diskFile := s.flushedFile fun _ f => (s.pool.pages f).isDirty }

/-- `unpin_page`. -/
def unpinPage (p : PageId) (isDirty : Bool) : Files :=
  { s with pool := (s.pool.unpinPage p isDirty).1 }

/-- The header, written past the pool. -/
def writeHeader (fd : ℤ) (header : Block) : Files :=
  { s with
    pool := s.pool.writePage ⟨fd, FILE_HDR_PAGE⟩ header
    diskFile := Function.update s.diskFile ⟨fd, FILE_HDR_PAGE⟩ (s.owner fd) }

/-! ## Files -/

/-- A file is created, filled with its first pages past the pool and opened as `fd`, with page
numbers from `numPages` on. -/
def openNew (fd : ℤ) (isIndex : Bool) (numPages : ℤ) (content : ℤ → Block) : Files :=
  { s with
    pool := { s.pool with disk := {
      blocks := fun p => if p.fd = fd then content p.pageNo else s.pool.disk.blocks p
      fd2pageno := Function.update s.pool.disk.fd2pageno fd numPages } }
    opened := Function.update s.opened fd (some ⟨s.created, isIndex, []⟩)
    created := s.created + 1
    diskFile := fun p => if p.fd = fd then some s.created else s.diskFile p }

/-- `DiskManager::close_file`. -/
def close (fd : ℤ) : Files := { s with opened := Function.update s.opened fd none }

/-- `remove_all_pages`. -/
def removeAllPages (fd : ℤ) : Files := { s with pool := s.pool.removeAllPages fd }

/-- `RmManager::close_file`. -/
def closeTable (fd : ℤ) (header : Block) : Files :=
  ((s.writeHeader fd header).flushAllPages fd).close fd

/-- `IxManager::close_index`. -/
def closeIndex (fd : ℤ) (header : Block) : Files :=
  (((s.writeHeader fd header).flushAllPages fd).removeAllPages fd).close fd

/-- The indexes of the table that is open as `fd`. -/
def indexesOf (fd : ℤ) : List ℤ := ((s.opened fd).map OpenFile.indexes).getD []

def setIndexes (fd : ℤ) (indexes : List ℤ) : Files :=
  { s with
    opened := Function.update s.opened fd ((s.opened fd).map ({ · with indexes := indexes })) }

end Files

/-- The statements and the page operations of their executions.  `fd` is the descriptor that the
system gives to a new file; headers and first pages are arbitrary. -/
inductive FileOp
  | createTable (fd : ℤ) (content : ℤ → Block)
  | dropTable (fd : ℤ) (header : ℤ → Block)
  | createIndex (fd tableFd : ℤ) (content : ℤ → Block)
  | dropIndex (fd tableFd : ℤ) (header : Block)
  | fetchPage (p : PageId)
  | newPage (fd : ℤ)
  | write (f : FrameId) (data : Block)
  | unpinPage (p : PageId) (isDirty : Bool)
  | writeHeader (fd : ℤ) (header : Block)
  | flushAllDirtyPages

namespace FileOp

variable (s : Files)

/-- The first page number of a new table, and of a new index. -/
def RM_FIRST_PAGES : ℤ := 1
def IX_FIRST_PAGES : ℤ := 3

def apply : FileOp → Files
  | .createTable fd content => s.openNew fd false RM_FIRST_PAGES content
  | .dropTable fd header =>
    ((s.indexesOf fd).foldl (fun s fd => s.closeIndex fd (header fd)) s).closeTable fd (header fd)
  | .createIndex fd tableFd content =>
    (s.openNew fd true IX_FIRST_PAGES content).setIndexes tableFd (fd :: s.indexesOf tableFd)
  | .dropIndex fd tableFd header =>
    (s.closeIndex fd header).setIndexes tableFd ((s.indexesOf tableFd).erase fd)
  | .fetchPage p => s.fetchPage p
  | .newPage fd => s.newPage fd
  | .write f data => s.write f data
  | .unpinPage p isDirty => s.unpinPage p isDirty
  | .writeHeader fd header => s.writeHeader fd header
  | .flushAllDirtyPages => s.flushAllDirtyPages

/-- A file gets a descriptor that is not in use; pages are those that an open file has, and are
changed while they are pinned. -/
def Legal : FileOp → Prop
  | .createTable fd _ => s.opened fd = none
  | .dropTable fd _ => (s.opened fd).any fun F => !F.isIndex
  | .createIndex fd tableFd _ => s.opened fd = none ∧ (s.opened tableFd).any fun F => !F.isIndex
  | .dropIndex fd tableFd _ => (s.opened fd).any (fun F => F.isIndex) ∧ fd ∈ s.indexesOf tableFd
  | .fetchPage p => (s.owner p.fd).isSome ∧ 0 ≤ p.pageNo ∧ p.pageNo < s.pool.disk.fd2pageno p.fd
  | .newPage fd => (s.owner fd).isSome
  | .write f _ => s.pool.InTable f ∧ 0 < (s.pool.pages f).pinCount
  | .unpinPage _ _ => True
  | .writeHeader fd _ => (s.owner fd).isSome
  | .flushAllDirtyPages => True

instance (f : FrameId) : Decidable (s.pool.InTable f) := inferInstanceAs (Decidable (_ = _))

instance : ∀ op : FileOp, Decidable (op.Legal s)
  | .createTable _ _ => inferInstanceAs (Decidable (_ = _))
  | .dropTable _ _ => inferInstanceAs (Decidable (_ = _))
  | .createIndex _ _ _ => inferInstanceAs (Decidable (_ ∧ _))
  | .dropIndex _ _ _ => inferInstanceAs (Decidable (_ ∧ _))
  | .fetchPage _ => inferInstanceAs (Decidable (_ ∧ _))
  | .newPage _ => inferInstanceAs (Decidable (_ = _))
  | .write _ _ => inferInstanceAs (Decidable (_ ∧ _))
  | .unpinPage _ _ => inferInstanceAs (Decidable True)
  | .writeHeader _ _ => inferInstanceAs (Decidable (_ = _))
  | .flushAllDirtyPages => inferInstanceAs (Decidable True)

/-- A table is dropped only while none of its pages is in the pool. -/
def DropsUncached : FileOp → Prop
  | .dropTable fd _ => ∀ p ∈ s.pool.pageTable.keys, p.fd ≠ fd
  | _ => True

instance : ∀ op : FileOp, Decidable (op.DropsUncached s)
  | .dropTable fd _ => inferInstanceAs (Decidable (∀ p ∈ s.pool.pageTable.keys, p.fd ≠ fd))
  | .createTable _ _ | .createIndex _ _ _ | .dropIndex _ _ _ | .fetchPage _ | .newPage
      _ | .write _ _
  | .unpinPage _ _ | .writeHeader _ _ | .flushAllDirtyPages => isTrue trivial

end FileOp

namespace Files

/-- A statement or a page operation. -/
def Step (s : Files) (op : FileOp) (s' : Files) : Prop := op.Legal s ∧ s' = op.apply s

/-- The server at its start, without tables. -/
def init (poolSize : ℕ) (junkFd : FrameId → ℤ) (disk : DiskManager) : Files where
  pool := BufferPool.init poolSize junkFd disk
  opened := fun _ => none
  created := 0
  frameFile := fun _ => none
  diskFile := fun _ => none

/-- A page that `fetch_page` returns has data of the file that the descriptor belongs to. -/
def FetchesOwn (s : Files) : Prop :=
  ∀ p f, FileOp.Legal s (.fetchPage p) → (s.pool.fetchPage p).2 = some f →
    (s.fetchPage p).frameFile f = s.owner p.fd

/-- No two frames hold one page. -/
def DistinctIds (s : Files) : Prop :=
  ∀ f g, f < s.pool.poolSize → g < s.pool.poolSize → (s.pool.pages f).id = (s.pool.pages g).id →
    (s.pool.pages f).id.pageNo ≠ INVALID_PAGE_ID → f = g

/-! ## The invariant -/

/-- The pages in the pool and on disk are those of the open files. -/
structure Inv (s : Files) : Prop where
  partition : Partition s.pool
  free_clean : ∀ {f}, f < s.pool.poolSize → ¬ s.pool.InTable f → (s.pool.pages f).isDirty = false
  resident : ∀ {p f}, s.pool.pageTable.lookup p = some f →
    (s.owner p.fd).isSome ∧ s.frameFile f = s.owner p.fd ∧ p.pageNo < s.pool.disk.fd2pageno p.fd
  disk : ∀ {p}, (s.owner p.fd).isSome → s.diskFile p = s.owner p.fd
  counter : ∀ {fd}, (s.owner fd).isSome → 0 ≤ s.pool.disk.fd2pageno fd

theorem inv_init (n : ℕ) (junkFd : FrameId → ℤ) (disk : DiskManager) :
    (init n junkFd disk).Inv where
  partition := partition_init n junkFd disk
  free_clean _ _ := rfl
  resident h := by simp [init, BufferPool.init] at h
  disk h := by simp [init, owner] at h
  counter h := by simp [init, owner] at h

variable {s s' : Files} {p : PageId} {f : FrameId} {fd : ℤ}

namespace Inv

/-- A page that leaves the pool leaves its own data on disk. -/
theorem evictedFile_eq (h : s.Inv) (hf : f < s.pool.poolSize) (hp : (s.owner p.fd).isSome) :
    s.evictedFile f p = s.owner p.fd := by
  unfold evictedFile
  split
  · rename_i hdirty
    by_cases hpf : p = (s.pool.pages f).id
    · have hin : s.pool.InTable f := by
        by_contra hin
        rw [h.free_clean hf hin] at hdirty
        cases hdirty
      rw [hpf, Function.update_self, (h.resident hin).2.1]
    · rw [Function.update_of_ne hpf, h.disk hp]
  · exact h.disk hp

/-- A page is brought into the pool. -/
theorem load {data : Block} (h : s.Inv) (hload : Loads s.pool f p data s'.pool)
    (hp : (s.owner p.fd).isSome) (hno : p.pageNo ≠ INVALID_PAGE_ID)
    (hnew : s.pool.pageTable.lookup p = none) (hopened : s'.opened = s.opened)
    (hframe : s'.frameFile = Function.update s.frameFile f (s.owner p.fd))
    (hdisk : s'.diskFile = s.evictedFile f)
    (hmono : ∀ fd, s.pool.disk.fd2pageno fd ≤ s'.pool.disk.fd2pageno fd)
    (hlt : p.pageNo < s'.pool.disk.fd2pageno p.fd) : s'.Inv := by
  have howner (fd : ℤ) : s'.owner fd = s.owner fd := by
    rw [owner, owner, hopened]
  obtain ⟨v, hv, -⟩ := hload.victim
  have hf := (h.partition.victim hv).1
  refine ⟨hload.partition h.partition hno hnew, ?_, ?_, ?_, ?_⟩
  · intro g hg hin
    by_cases hgf : g = f
    · subst hgf
      exact absurd hload.inTable_self hin
    · rw [hload.pages_of_ne hgf]
      rw [hload.poolSize] at hg
      exact h.free_clean hg (mt (hload.inTable_of_ne h.partition hf hnew hgf).2 hin)
  · intro q g hl
    rw [howner, hframe]
    rcases hload.lookup_eq_some h.partition hl with ⟨rfl, rfl⟩ | ⟨-, -, hgf, hl⟩
    · exact ⟨hp, Function.update_self .., hlt⟩
    · obtain ⟨hsome, hfile, hqlt⟩ := h.resident hl
      rw [Function.update_of_ne hgf]
      exact ⟨hsome, hfile, hqlt.trans_le (hmono q.fd)⟩
  · intro q hq
    rw [howner] at hq ⊢
    rw [hdisk, h.evictedFile_eq hf hq]
  · intro fd hfd
    rw [howner] at hfd
    exact (h.counter hfd).trans (hmono fd)

/-- The pages in the pool stay. -/
theorem same (h : s.Inv) (hpart : Partition s'.pool) (hsize : s'.pool.poolSize = s.pool.poolSize)
    (htable : s'.pool.pageTable = s.pool.pageTable)
    (hid : ∀ f, (s'.pool.pages f).id = (s.pool.pages f).id)
    (hdirty : ∀ f, ¬ s.pool.InTable f → (s.pool.pages f).isDirty = false →
      (s'.pool.pages f).isDirty = false)
    (hcount : s'.pool.disk.fd2pageno = s.pool.disk.fd2pageno) (hopened : s'.opened = s.opened)
    (hframe : ∀ p f, s.pool.pageTable.lookup p = some f → s'.frameFile f = s.owner p.fd)
    (hdisk : ∀ p, (s.owner p.fd).isSome → s'.diskFile p = s.owner p.fd) : s'.Inv := by
  have howner (fd : ℤ) : s'.owner fd = s.owner fd := by
    rw [owner, owner, hopened]
  refine ⟨hpart, ?_, ?_, ?_, ?_⟩
  · intro f hf hin
    have hin' : ¬ s.pool.InTable f := by
      rw [InTable, htable, hid] at hin
      exact hin
    exact hdirty f hin' (h.free_clean (hsize ▸ hf) hin')
  · intro p f hl
    rw [htable] at hl
    rw [howner, hcount]
    exact ⟨(h.resident hl).1, hframe p f hl, (h.resident hl).2.2⟩
  · intro p hp
    rw [howner] at hp ⊢
    exact hdisk p hp
  · intro fd hfd
    rw [howner] at hfd
    rw [hcount]
    exact h.counter hfd

theorem fd2pageno_fetchPage (b : BufferPool) (p : PageId) :
    (b.fetchPage p).1.disk.fd2pageno = b.disk.fd2pageno := by
  cases hl : b.pageTable.lookup p with
  | some f => rw [fetchPage_hit hl]; rfl
  | none =>
    cases hv : b.findVictimPage with
    | none => rw [fetchPage_none hl hv]
    | some w =>
      obtain ⟨f, v⟩ := w
      obtain ⟨free, rep, rfl⟩ := findVictimPage_eq hv
      simp only [BufferPool.fetchPage, hl, hv]
      by_cases hd : (b.pages f).isDirty
      · simp [hd, updatePage, BufferPool.writePage, setFrame]
      · simp [hd, setFrame]

theorem fd2pageno_newPage {b v : BufferPool} {f : FrameId} (fd : ℤ)
    (hv : b.findVictimPage = some (f, v)) : (b.newPage fd).1.disk.fd2pageno =
      Function.update b.disk.fd2pageno fd (b.disk.fd2pageno fd + 1) := by
  obtain ⟨free, rep, rfl⟩ := findVictimPage_eq hv
  simp only [BufferPool.newPage, hv]
  by_cases hd : (b.pages f).isDirty
  · simp [hd, BufferPool.writePage, allocatePage, setFrame]
  · simp [hd, allocatePage, setFrame]

theorem fetchPage (h : s.Inv) (hlegal : FileOp.Legal s (.fetchPage p)) : (s.fetchPage p).Inv := by
  obtain ⟨howner, hnonneg, hlt⟩ := hlegal
  have hno : p.pageNo ≠ INVALID_PAGE_ID := by
    rw [INVALID_PAGE_ID]
    omega
  have hpart := (partition_fetchPage h.partition hno).1
  have hcount := fd2pageno_fetchPage s.pool p
  unfold Files.fetchPage
  cases hl : s.pool.pageTable.lookup p with
  | some f =>
    rw [fetchPage_hit hl] at hpart hcount ⊢
    refine h.same hpart rfl rfl (setFrame_id rfl) (fun g _ hg => ?_) hcount rfl
      (fun q g hq => (h.resident hq).2.1) fun q hq => h.disk hq
    by_cases hgf : g = f
    · subst hgf
      simpa [setFrame] using hg
    · simpa [setFrame, hgf] using hg
  | none =>
    cases hv : s.pool.findVictimPage with
    | none =>
      rw [fetchPage_none hl hv]
      exact h
    | some w =>
      obtain ⟨f, v⟩ := w
      have hload := (fetchPage_miss hl hv).2
      have hf := (h.partition.victim hv).1
      refine h.load hload howner hno hl rfl ?_ rfl (fun fd => by rw [hcount])
        (by rw [hcount]; exact hlt)
      simp only [h.evictedFile_eq hf howner]

theorem newPage (h : s.Inv) (hlegal : FileOp.Legal s (.newPage fd)) : (s.newPage fd).Inv := by
  have hcounter := h.counter hlegal
  have hno : (s.pool.newPageId fd).pageNo ≠ INVALID_PAGE_ID := by
    show s.pool.disk.fd2pageno fd ≠ INVALID_PAGE_ID
    rw [INVALID_PAGE_ID]
    omega
  have hnew : s.pool.pageTable.lookup (s.pool.newPageId fd) = none := by
    cases hl : s.pool.pageTable.lookup (s.pool.newPageId fd) with
    | none => rfl
    | some f => exact absurd (h.resident hl).2.2 (Int.lt_irrefl _)
  unfold Files.newPage
  cases hv : s.pool.findVictimPage with
  | none =>
    rw [newPage_none fd hv]
    exact h
  | some w =>
    obtain ⟨f, v⟩ := w
    have hcount := fd2pageno_newPage fd hv
    refine h.load (newPage_some fd hv).2 hlegal hno hnew rfl rfl rfl (fun fd' => ?_) ?_
    · rw [hcount]
      by_cases hfd : fd' = fd
      · subst hfd
        rw [Function.update_self]
        omega
      · rw [Function.update_of_ne hfd]
    · rw [hcount, show (s.pool.newPageId fd).fd = fd from rfl, Function.update_self]
      exact Int.lt_succ _

theorem write (h : s.Inv) {data : Block} (hlegal : FileOp.Legal s (.write f data)) :
    (s.write f data).Inv := by
  have hpart : Partition (s.pool.setFrame f { s.pool.pages f with data := data }) :=
    h.partition.congr rfl rfl rfl rfl fun g =>
      ⟨setFrame_id (by rfl) g, setFrame_pinCount (by rfl) g⟩
  refine h.same hpart rfl rfl (setFrame_id (by rfl)) (fun g hin hg => ?_) rfl rfl (fun q g hq => ?_)
    fun q hq => h.disk hq
  · have hgf : g ≠ f := by
      rintro rfl
      exact hin hlegal.1
    simpa [Files.write, setFrame, hgf] using hg
  · by_cases hgf : g = f
    · subst hgf
      simp only [Files.write, Function.update_self, (h.partition.table hq).2.1]
    · simp only [Files.write, Function.update_of_ne hgf]
      exact (h.resident hq).2.1

theorem unpinPage (h : s.Inv) (isDirty : Bool) : (s.unpinPage p isDirty).Inv := by
  by_cases hidle : ∀ f, s.pool.pageTable.lookup p = some f → (s.pool.pages f).pinCount = 0
  · rw [Files.unpinPage, unpinPage_idle isDirty hidle]
    exact h
  · push Not at hidle
    obtain ⟨f, hl, hne⟩ := hidle
    have hin := h.partition.inTable_of_lookup hl
    have hpart := (partition_unpinPage h.partition p isDirty).1
    rw [Files.unpinPage]
    rw [unpinPage_eq isDirty hl (Nat.pos_of_ne_zero hne)] at hpart ⊢
    refine h.same hpart rfl rfl (setFrame_id (by rfl)) (fun g hg hclean => ?_) rfl rfl
      (fun q g hq => (h.resident hq).2.1) fun q hq => h.disk hq
    have hgf : g ≠ f := by
      rintro rfl
      exact hg hin
    simpa [setFrame, hgf] using hclean

/-- The pages that a loop writes back stay in the pool. -/
theorem writesBack (h : s.Inv) (hpart : Partition s'.pool)
    (hsize : s'.pool.poolSize = s.pool.poolSize) (htable : s'.pool.pageTable = s.pool.pageTable)
    (hid : ∀ f, (s'.pool.pages f).id = (s.pool.pages f).id)
    (hdirty : ∀ f, (s.pool.pages f).isDirty = false → (s'.pool.pages f).isDirty = false)
    (hcount : s'.pool.disk.fd2pageno = s.pool.disk.fd2pageno) (hopened : s'.opened = s.opened)
    (hframe : s'.frameFile = s.frameFile) (c : PageId → FrameId → Bool)
    (hdisk : s'.diskFile = s.flushedFile c) : s'.Inv := by
  refine h.same hpart hsize htable hid (fun f _ => hdirty f) hcount hopened (fun q g hq => ?_)
    fun q hq => ?_
  · rw [hframe, (h.resident hq).2.1]
  · rw [hdisk, flushedFile]
    split
    · rename_i g hg
      split
      · exact (h.resident hg).2.1
      · exact h.disk hq
    · exact h.disk hq

/-- The loops that write pages back. -/
theorem foldl_writeBack_same (C : BufferPool → PageId → FrameId → Prop)
    [∀ b p f, Decidable (C b p f)]
    (entries : List (Sigma fun _ : PageId => FrameId)) (b : BufferPool) :
    let b' := entries.foldl (fun b e => if C b e.1 e.2 then b.writeBack e.1 e.2 else b) b
    b'.poolSize = b.poolSize ∧ b'.pageTable = b.pageTable ∧
      (∀ f, (b'.pages f).id = (b.pages f).id) ∧
      (∀ f, (b.pages f).isDirty = false → (b'.pages f).isDirty = false) ∧
      b'.disk.fd2pageno = b.disk.fd2pageno := by
  induction entries generalizing b with
  | nil => exact ⟨rfl, rfl, fun _ => rfl, fun _ h => h, rfl⟩
  | cons e entries ih =>
    rw [List.foldl_cons]
    split
    · obtain ⟨hsize, htable, hid, hdirty, hcount⟩ := ih (b.writeBack e.1 e.2)
      refine ⟨hsize, htable, fun f => (hid f).trans (setFrame_id (by rfl) f),
        fun f hf => hdirty f ?_, hcount⟩
      by_cases hfe : f = e.2
      · subst hfe
        simp [writeBack, setFrame]
      · simpa [writeBack, setFrame, hfe, BufferPool.writePage] using hf
    · exact ih b

theorem flushAllPages (h : s.Inv) (fd : ℤ) : (s.flushAllPages fd).Inv := by
  obtain ⟨hsize, htable, hid, hdirty, hcount⟩ :=
    foldl_writeBack_same (fun _ p _ => p.fd = fd) s.pool.pageTable.entries s.pool
  exact h.writesBack (@partition_apply s.pool (.flushAllPages fd) ∅ h.partition trivial).1 hsize
    htable hid hdirty hcount rfl rfl _ rfl

theorem flushAllDirtyPages (h : s.Inv) : s.flushAllDirtyPages.Inv := by
  obtain ⟨hsize, htable, hid, hdirty, hcount⟩ :=
    foldl_writeBack_same (fun b _ f => (b.pages f).isDirty) s.pool.pageTable.entries s.pool
  exact h.writesBack (@partition_apply s.pool .flushAllDirtyPages ∅ h.partition trivial).1
    hsize htable hid hdirty hcount rfl rfl _ rfl

theorem writeHeader (h : s.Inv) (fd : ℤ) (header : Block) : (s.writeHeader fd header).Inv := by
  refine h.same (h.partition.writePage _ _) rfl rfl (fun _ => rfl) (fun _ _ hf => hf) rfl rfl
    (fun q g hq => (h.resident hq).2.1) fun q hq => ?_
  by_cases hqh : q = ⟨fd, FILE_HDR_PAGE⟩
  · simp only [Files.writeHeader, hqh, Function.update_self]
  · simp only [Files.writeHeader, Function.update_of_ne hqh, h.disk hq]

/-- A new file on a free descriptor. -/
theorem openNew (h : s.Inv) (hfree : s.opened fd = none) (isIndex : Bool) {numPages : ℤ}
    (hpages : 0 ≤ numPages) (content : ℤ → Block) :
    (s.openNew fd isIndex numPages content).Inv := by
  have hown (fd' : ℤ) (hne : fd' ≠ fd) :
      (s.openNew fd isIndex numPages content).owner fd' = s.owner fd' := by
    simp only [owner, Files.openNew, Function.update_of_ne hne]
  have hnew : (s.openNew fd isIndex numPages content).owner fd = some s.created := by
    simp [owner, Files.openNew]
  refine ⟨h.partition.congr rfl rfl rfl rfl fun _ => ⟨rfl, rfl⟩, h.free_clean, fun {q g} hq => ?_,
    fun {q} hq => ?_,
    fun {fd'} hfd => ?_⟩
  · obtain ⟨hsome, hfile, hlt⟩ := h.resident hq
    have hne : q.fd ≠ fd := by
      intro heq
      rw [heq, owner, hfree] at hsome
      cases hsome
    rw [hown _ hne]
    refine ⟨hsome, hfile, ?_⟩
    show q.pageNo < Function.update s.pool.disk.fd2pageno fd numPages q.fd
    rw [Function.update_of_ne hne]
    exact hlt
  · show (if q.fd = fd then some s.created else s.diskFile q) = _
    by_cases hqfd : q.fd = fd
    · rw [if_pos hqfd, hqfd, hnew]
    · rw [if_neg hqfd, hown _ hqfd]
      rw [hown _ hqfd] at hq
      exact h.disk hq
  · show 0 ≤ Function.update s.pool.disk.fd2pageno fd numPages fd'
    by_cases hfd' : fd' = fd
    · rw [hfd', Function.update_self]
      exact hpages
    · rw [Function.update_of_ne hfd']
      rw [hown _ hfd'] at hfd
      exact h.counter hfd

/-- A descriptor is given back after its pages have left the pool. -/
theorem close (h : s.Inv) (hpages : ∀ p f, s.pool.pageTable.lookup p = some f → p.fd ≠ fd) :
    (s.close fd).Inv := by
  have hown (fd' : ℤ) (hne : fd' ≠ fd) : (s.close fd).owner fd' = s.owner fd' := by
    simp only [owner, Files.close, Function.update_of_ne hne]
  have hclosed (fd' : ℤ) (hsome : ((s.close fd).owner fd').isSome) : fd' ≠ fd := by
    rintro rfl
    simp [owner, Files.close] at hsome
  refine ⟨h.partition, h.free_clean, fun {q g} hq => ?_, fun {q} hq => ?_, fun {fd'} hfd => ?_⟩
  · rw [hown _ (hpages q g hq)]
    exact h.resident hq
  · have hne := hclosed _ hq
    rw [hown _ hne] at hq ⊢
    exact h.disk hq
  · have hne := hclosed _ hfd
    rw [hown _ hne] at hfd
    exact h.counter hfd

theorem setIndexes (h : s.Inv) (fd : ℤ) (indexes : List ℤ) : (s.setIndexes fd indexes).Inv := by
  have hown (fd' : ℤ) : (s.setIndexes fd indexes).owner fd' = s.owner fd' := by
    by_cases hne : fd' = fd
    · subst hne
      simp only [owner, Files.setIndexes, Function.update_self, Option.map_map]
      rfl
    · simp only [owner, Files.setIndexes, Function.update_of_ne hne]
  refine ⟨h.partition, h.free_clean, fun {q g} hq => ?_, fun {q} hq => ?_, fun {fd'} hfd => ?_⟩
  · rw [hown]
    exact h.resident hq
  · rw [hown] at hq ⊢
    exact h.disk hq
  · rw [hown] at hfd
    exact h.counter hfd

/-- What `remove_all_pages` leaves. -/
theorem foldl_removePage (pages : List PageId) {b : BufferPool} (hb : Partition b)
    (hclean : ∀ {f}, f < b.poolSize → ¬ b.InTable f → (b.pages f).isDirty = false) :
    let b' := pages.foldl removePage b
    (∀ q, b'.pageTable.lookup q = if q ∈ pages then none else b.pageTable.lookup q) ∧
      (∀ {f}, f < b'.poolSize → ¬ b'.InTable f → (b'.pages f).isDirty = false) ∧
      b'.disk = b.disk := by
  induction pages generalizing b with
  | nil => exact ⟨fun q => by simp, hclean, rfl⟩
  | cons p pages ih =>
    rw [List.foldl_cons]
    cases hl : b.pageTable.lookup p with
    | none =>
      have hremove : b.removePage p = b := by
        simp only [removePage, hl]
      rw [hremove]
      obtain ⟨hlookup, hrest⟩ := ih hb hclean
      refine ⟨fun q => ?_, hrest⟩
      rw [hlookup]
      by_cases hqp : q = p
      · subst hqp
        simp [hl]
      · simp [hqp]
    | some f =>
      have hremove : b.removePage p = b.release p f 0 := by
        simp only [removePage, hl]
      rw [hremove]
      have hclean' : ∀ {g}, g < (b.release p f 0).poolSize → ¬ (b.release p f 0).InTable g →
          ((b.release p f 0).pages g).isDirty = false := by
        intro g hg hin
        by_cases hgf : g = f
        · subst hgf
          simp [release, setFrame]
        · rw [release_inTable_of_ne hl 0 hgf] at hin
          have := hclean hg hin
          simpa [release, setFrame, hgf] using this
      obtain ⟨hlookup, hcl, hdisk⟩ := ih (hb.release hl 0) hclean'
      refine ⟨fun q => ?_, hcl, hdisk⟩
      rw [hlookup, release_lookup]
      by_cases hqp : q = p
      · subst hqp
        simp
      · simp [hqp]

/-- No page of the file is left in the pool. -/
theorem removeAllPages (h : s.Inv) (fd : ℤ) : (s.removeAllPages fd).Inv ∧
    ∀ p f, (s.removeAllPages fd).pool.pageTable.lookup p = some f → p.fd ≠ fd := by
  obtain ⟨hlookup, hclean, hdisk⟩ :=
    foldl_removePage (s.pool.pageTable.keys.filter fun p => p.fd = fd) h.partition h.free_clean
  have hold : ∀ {p f}, (s.removeAllPages fd).pool.pageTable.lookup p = some f →
      s.pool.pageTable.lookup p = some f ∧ p.fd ≠ fd := by
    intro p f hp
    have hp' := (hlookup p).symm.trans hp
    split at hp'
    · cases hp'
    · rename_i hmem
      refine ⟨hp', fun hfd => hmem (List.mem_filter.2 ⟨?_, by simpa using hfd⟩)⟩
      exact AList.mem_keys.1 (AList.lookup_isSome.1 (by rw [hp']; rfl))
  have hdisk : (s.removeAllPages fd).pool.disk = s.pool.disk := hdisk
  refine ⟨⟨(@partition_apply s.pool (.removeAllPages fd) ∅ h.partition trivial).1, hclean,
    fun {q g} hq => ?_,
    h.disk, fun {fd'} hfd => ?_⟩, fun p f hp => (hold hp).2⟩
  · rw [hdisk]
    exact h.resident (hold hq).1
  · rw [hdisk]
    exact h.counter hfd

theorem closeIndex (h : s.Inv) (fd : ℤ) (header : Block) : (s.closeIndex fd header).Inv := by
  obtain ⟨hinv, hpages⟩ := ((h.writeHeader fd header).flushAllPages fd).removeAllPages fd
  exact hinv.close hpages

/-- The pages in the pool after an index has been closed were there before. -/
theorem lookup_closeIndex (h : s.Inv) {header : Block}
    (hl : (s.closeIndex fd header).pool.pageTable.lookup p = some f) :
    s.pool.pageTable.lookup p = some f := by
  have hflushed := (h.writeHeader fd header).flushAllPages fd
  obtain ⟨hlookup, -⟩ := foldl_removePage
    (((s.writeHeader fd header).flushAllPages fd).pool.pageTable.keys.filter fun p => p.fd = fd)
    hflushed.partition hflushed.free_clean
  have hp := (hlookup p).symm.trans hl
  obtain ⟨-, htable, -⟩ :=
    foldl_writeBack_same (fun _ p _ => p.fd = fd) (s.writeHeader fd header).pool.pageTable.entries
      (s.writeHeader fd header).pool
  split at hp
  · cases hp
  · have htable : ((s.writeHeader fd header).flushAllPages fd).pool.pageTable =
      s.pool.pageTable := htable
    rw [htable] at hp
    exact hp

theorem closeIndexes (header : ℤ → Block) (fds : List ℤ) (h : s.Inv) :
    (fds.foldl (fun s fd => s.closeIndex fd (header fd)) s).Inv ∧
      ∀ p f, (fds.foldl (fun s fd => s.closeIndex fd (header fd)) s).pool.pageTable.lookup p =
      some f → s.pool.pageTable.lookup p = some f := by
  induction fds generalizing s with
  | nil => exact ⟨h, fun _ _ hp => hp⟩
  | cons fd fds ih =>
    rw [List.foldl_cons]
    obtain ⟨hinv, hold⟩ := ih (h.closeIndex fd (header fd))
    exact ⟨hinv, fun p f hp => h.lookup_closeIndex (hold p f hp)⟩

theorem closeTable (h : s.Inv) (header : Block)
    (hpages : ∀ p f, s.pool.pageTable.lookup p = some f → p.fd ≠ fd) :
    (s.closeTable fd header).Inv := by
  refine ((h.writeHeader fd header).flushAllPages fd).close fun p f hp => hpages p f ?_
  obtain ⟨-, htable, -⟩ :=
    foldl_writeBack_same (fun _ p _ => p.fd = fd) (s.writeHeader fd header).pool.pageTable.entries
      (s.writeHeader fd header).pool
  have htable : ((s.writeHeader fd header).flushAllPages fd).pool.pageTable =
    s.pool.pageTable := htable
  rw [htable] at hp
  exact hp

/-- A step that drops no table with pages in the pool keeps the invariant. -/
theorem step {op : FileOp} (hstep : Meeting (fun s op => op.DropsUncached s) Step s op s')
    (h : s.Inv) : s'.Inv := by
  obtain ⟨hcond, hlegal, rfl⟩ := hstep
  cases op with
  | createTable fd content => exact h.openNew hlegal false (by decide) content
  | dropTable fd header =>
    obtain ⟨hinv, hold⟩ := closeIndexes header (s.indexesOf fd) h
    refine hinv.closeTable (header fd) fun p f hp => hcond p ?_
    exact AList.mem_keys.1 (AList.lookup_isSome.1 (by rw [hold p f hp]; rfl))
  | createIndex fd tableFd content =>
    exact (h.openNew hlegal.1 true (by decide) content).setIndexes tableFd _
  | dropIndex fd tableFd header => exact (h.closeIndex fd header).setIndexes tableFd _
  | fetchPage p => exact h.fetchPage hlegal
  | newPage fd => exact h.newPage hlegal
  | write f data => exact h.write hlegal
  | unpinPage p isDirty => exact h.unpinPage isDirty
  | writeHeader fd header => exact h.writeHeader fd header
  | flushAllDirtyPages => exact h.flushAllDirtyPages

theorem fetchesOwn (h : s.Inv) : s.FetchesOwn := by
  intro p f hlegal hf
  have hinv := h.fetchPage hlegal
  have hopened : (s.fetchPage p).owner p.fd = s.owner p.fd := by
    unfold Files.fetchPage
    split <;> rfl
  have hpool : (s.fetchPage p).pool = (s.pool.fetchPage p).1 := by
    unfold Files.fetchPage
    split <;> rfl
  have hlookup : (s.fetchPage p).pool.pageTable.lookup p = some f := by
    rw [hpool]
    cases hl : s.pool.pageTable.lookup p with
    | some g =>
      rw [fetchPage_hit hl] at hf ⊢
      cases hf
      exact hl
    | none =>
      cases hv : s.pool.findVictimPage with
      | none =>
        rw [fetchPage_none hl hv] at hf
        cases hf
      | some w =>
        obtain ⟨hres, hload⟩ := fetchPage_miss hl hv
        rw [hres] at hf
        cases hf
        exact hload.lookup_self
  rw [(hinv.resident hlookup).2.1, hopened]

theorem distinctIds (h : s.Inv) : s.DistinctIds := by
  intro f g hf hg hid hno
  have hin : s.pool.InTable g := by
    by_contra hin
    exact hno (hid ▸ h.partition.unmapped_id hg (Set.notMem_empty g) hin)
  by_contra hne
  exact h.partition.id_ne hf (Set.notMem_empty f) hin (Ne.symm hne) hid.symm

end Inv

/-- In every run in which a table is dropped only while none of its pages is in the pool, pages that
are fetched have data of their own file and no two frames hold one page. -/
theorem no_stale_page_of_drops_uncached {n : ℕ} {junkFd : FrameId → ℤ} {disk : DiskManager}
    (ops : List FileOp)
    (hrun : Run (Meeting (fun s op => op.DropsUncached s) Step) (init n junkFd disk) ops s) :
    s.FetchesOwn ∧ s.DistinctIds := by
  have hinv := hrun.invariant (P := Inv) (fun _ _ _ hstep h => h.step hstep)
    (inv_init n junkFd disk)
  exact ⟨hinv.fetchesOwn, hinv.distinctIds⟩

/-- An empty table is dropped, and the next one gets its descriptor and a first page. -/
def emptyDropped : List FileOp :=
  [.createTable 3 fun _ => Block.zero, .dropTable 3 fun _ => Block.zero, .createTable 3
    fun _ => Block.zero,
    .newPage 3]

def emptyServer (n : ℕ) : Files := init n (fun _ => 0) ⟨fun _ => Block.zero, fun _ => 0⟩

theorem no_stale_page_empty_dropped :
    (emptyDropped.foldl FileOp.apply (emptyServer 1)).FetchesOwn ∧
      (emptyDropped.foldl FileOp.apply (emptyServer 1)).DistinctIds := by
  have hrun : Run (fun s op s' => (op.DropsUncached s ∧ op.Legal s) ∧ s' = op.apply s)
    (emptyServer 1)
      emptyDropped (emptyDropped.foldl FileOp.apply (emptyServer 1)) :=
        Run.of_along (by decide +kernel)
  exact no_stale_page_of_drops_uncached emptyDropped
    (hrun.mono fun s op s' h => ⟨h.1.1, h.1.2, h.2⟩)

/-- A table with a page in the pool is dropped, and an index of another table gets its
descriptor. -/
def usedDropped : List FileOp :=
  [.createTable 3 fun _ => Block.zero, .createTable 4 fun _ => Block.zero, .newPage 3,
    .unpinPage ⟨3, 1⟩ true, .dropTable 3 fun _ => Block.zero, .createIndex 3 4 fun _ => Block.zero]

/-- `fetch_page` returns the page of the dropped table for the first page of the index. -/
theorem not_no_stale_page :
    ¬ ∀ (n : ℕ) (junkFd : FrameId → ℤ) (disk : DiskManager) (ops : List FileOp) (s : Files),
      Run Step (init n junkFd disk) ops s → s.FetchesOwn ∧ s.DistinctIds := by
  intro hall
  have hrun : Run Step (emptyServer 2) usedDropped
    (usedDropped.foldl FileOp.apply (emptyServer 2)) :=
    Run.of_along (by decide +kernel)
  have hstale := (hall 2 _ _ usedDropped _ hrun).1 ⟨3, 1⟩ 0
    ⟨by decide +kernel, by decide +kernel, by decide +kernel⟩ (by decide +kernel)
  exact absurd hstale (by decide +kernel)

end Files

end Rmdb
