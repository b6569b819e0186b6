import Rmdb.Record.Slots
import Rmdb.Storage.FramePartition
import Rmdb.Transaction.LockManager

/-!
# An insertion whose lock is refused

`insert_record` gets its page, pinned, from `create_page_handle` and only then asks for the lock on
the slot. When the lock is refused, nothing takes the pin back, nor a page that was made for the
record.
-/

namespace Rmdb

/-- How `insert_record` ends when it inserts nothing.  `nullPage` is the use of the null pointer
that a pool without a free frame returns. -/
inductive InsertFailure
  | rm (e : RmError)
  | abort (reason : AbortReason)
  | nullPage
deriving DecidableEq, Repr

/-- An open table file with the pool that holds its pages and the lock manager.  The contents of the
pages are those of `file`; the pool is there for its pins. -/
structure HeapSite where
  file : RmFile
  pool : BufferPool
  locks : LockManager

namespace HeapSite

/-- `create_page_handle`, with what it does to the pool. -/
def createPageHandle (s : HeapSite) (fd : ℤ) : Except InsertFailure (HeapSite × ℤ) :=
  if s.file.hdr.firstFreePageNo = -1 then
    match s.pool.newPage fd with
    | (_, none) => .error .nullPage
    | (pool, some _) =>
      let (file, pageNo) := s.file.createNewPageHandle
      .ok ({ s with file, pool }, pageNo)
  else
    match s.file.fetchPageHandle s.file.hdr.firstFreePageNo with
    | .error e => .error (.rm e)
    | .ok _ =>
      match s.pool.fetchPage ⟨fd, s.file.hdr.firstFreePageNo⟩ with
      | (_, none) => .error .nullPage
      | (pool, some _) => .ok ({ s with pool }, s.file.hdr.firstFreePageNo)

/-- `insert_record(buf, context)` of transaction `t`: the state that it leaves, and how it ends. -/
def insertRecord (s : HeapSite) (fd : ℤ) (t : TxnId) (buf : Bytes) :
    HeapSite × Except InsertFailure Rid :=
  match s.createPageHandle fd with
  | .error e => (s, .error e)
  | .ok (s, pageNo) =>
    let slotNo := Bitmap.firstBit false (s.file.pages pageNo).body s.file.hdr.numRecordsPerPage
    match s.locks.lockExclusiveOnRecord t ⟨pageNo, slotNo⟩ fd with
    | (locks, .error reason) => ({ s with locks }, .error (.abort reason))
    | (locks, .ok _) =>
      let (file, rid) := s.file.insertInto pageNo buf
      ({ file, pool := (s.pool.unpinPage ⟨fd, pageNo⟩ true).1, locks }, .ok rid)

end HeapSite

/-- The pin count of a page; a page that is not resident has none. -/
def BufferPool.pinsOf (s : BufferPool) (p : PageId) : ℕ :=
  match s.pageTable.lookup p with
  | some f => (s.pages f).pinCount
  | none => 0

/-- The live records, the number of pages, the chain of free pages and the pins are the same. -/
structure Untouched (s s' : HeapSite) : Prop where
  records : s'.file.records = s.file.records
  numPages : s'.file.hdr.numPages = s.file.hdr.numPages
  chain : ∀ l, FreeChain s'.file.nextFree s'.file.hdr.firstFreePageNo l ↔
    FreeChain s.file.nextFree s.file.hdr.firstFreePageNo l
  pins : ∀ p, s'.pool.pinsOf p = s.pool.pinsOf p

section
open BufferPool

variable {s s' : HeapSite} {pool pool' : BufferPool} {p : PageId} {f : FrameId} {fd : ℤ} {t : TxnId}
  {buf : Bytes}
  {reason : AbortReason} {pageNo : ℤ}

/-- `fetch_page` adds a pin to its page. -/
theorem pinsOf_fetchPage (h : pool.fetchPage p = (pool', some f)) :
    pool'.pinsOf p = pool.pinsOf p + 1 := by
  unfold pinsOf
  cases hl : pool.pageTable.lookup p with
  | some g =>
    rw [fetchPage_hit hl] at h
    obtain ⟨rfl, -⟩ := Prod.mk.inj h
    simp [setFrame, hl]
  | none =>
    cases hv : pool.findVictimPage with
    | none =>
      rw [fetchPage_none hl hv] at h
      cases h
    | some w =>
      have hloads : Loads pool w.1 p (pool.evicted w.1 p) pool' := by
        have hmiss := (fetchPage_miss hl hv).2
        rwa [h] at hmiss
      simp only [hloads.lookup_self, hloads.pages_self, Nat.zero_add]

/-- What `create_page_handle` does: it pins the first page of the chain, or makes a page. -/
theorem createPageHandle_ok (h : s.createPageHandle fd = .ok (s', pageNo)) :
    (s.file.hdr.firstFreePageNo ≠ -1 ∧ pageNo = s.file.hdr.firstFreePageNo ∧ s'.file = s.file ∧
      s'.pool.pinsOf ⟨fd, pageNo⟩ = s.pool.pinsOf ⟨fd, pageNo⟩ + 1) ∨
    (s.file.hdr.firstFreePageNo = -1 ∧ s'.file.hdr.numPages = s.file.hdr.numPages + 1) := by
  unfold HeapSite.createPageHandle at h
  split at h
  · next hfirst =>
    split at h
    · cases h
    · cases h
      exact .inr ⟨hfirst, rfl⟩
  · next hfirst =>
    split at h
    · cases h
    · split at h
      · cases h
      · next pool f hfetch =>
        cases h
        exact .inl ⟨hfirst, rfl, rfl, pinsOf_fetchPage hfetch⟩

theorem insertRecord_abort (h : s.insertRecord fd t buf = (s', .error (.abort reason))) :
    ∃ s₁ pageNo, s.createPageHandle fd = .ok (s₁, pageNo) ∧ s'.file = s₁.file ∧
    s'.pool = s₁.pool := by
  unfold HeapSite.insertRecord at h
  split at h
  · next e hcreate =>
    obtain ⟨-, he⟩ := Prod.mk.inj h
    cases he
    unfold HeapSite.createPageHandle at hcreate
    split at hcreate
    · split at hcreate <;> cases hcreate
    · split at hcreate
      · cases hcreate
      · split at hcreate <;> cases hcreate
  · next s₁ pageNo hcreate =>
    dsimp only at h
    split at h
    · obtain ⟨rfl, -⟩ := Prod.mk.inj h
      exact ⟨s₁, pageNo, hcreate, rfl, rfl⟩
    · cases (Prod.mk.inj h).2

end

/-- Whenever the lock on its slot is refused, `insert_record` leaves the page pinned: an existing
page once more than before, with the file as it was, or a page that it has added to the file. -/
theorem refused_insert_leaves_pin {s s' : HeapSite} {fd : ℤ} {t : TxnId} {buf : Bytes}
    {reason : AbortReason}
    (h : s.insertRecord fd t buf = (s', .error (.abort reason))) :
    ¬ Untouched s s' ∧
    (s.file.hdr.firstFreePageNo ≠ -1 → s'.file = s.file ∧
      s'.pool.pinsOf ⟨fd, s.file.hdr.firstFreePageNo⟩ = s.pool.pinsOf
      ⟨fd, s.file.hdr.firstFreePageNo⟩ + 1) ∧
    (s.file.hdr.firstFreePageNo = -1 → s'.file.hdr.numPages = s.file.hdr.numPages + 1) := by
  obtain ⟨s₁, pageNo, hcreate, hfile, hpool⟩ := insertRecord_abort h
  rw [hfile, hpool]
  rcases createPageHandle_ok hcreate with ⟨hfirst, rfl, heq, hpins⟩ | ⟨hfirst, hnum⟩
  · refine ⟨fun hu => ?_, fun _ => ⟨heq, hpins⟩, fun h => absurd h hfirst⟩
    have hsame := hu.pins ⟨fd, s.file.hdr.firstFreePageNo⟩
    rw [hpool, hpins] at hsame
    omega
  · refine ⟨fun hu => ?_, fun h => absurd hfirst h, fun _ => hnum⟩
    have hsame := hu.numPages
    rw [hfile, hnum] at hsame
    omega

/-- A page of which a record has been deleted by transaction 2, which holds the lock on it. -/
def deletedSite : HeapSite where
  file := { hdr := ⟨512, 2, 7, 1, 1⟩, pages := fun _ => { nextFreePageNo := -1 }, fd2pageno := 2 }
  pool := BufferPool.init 4 (fun _ => 0) ⟨fun _ => Block.zero, fun _ => 2⟩
  locks := (({} : LockManager).lockExclusiveOnRecord 2 ⟨1, 0⟩ 3).1

theorem refused_insert_leaves_pin_deleted :
    ∃ s', deletedSite.insertRecord 3 1 (List.replicate 512 0) =
    (s', .error (.abort .deadlockPrevention)) ∧ ¬ Untouched deletedSite s' := by
  have hrefused : (deletedSite.insertRecord 3 1 (List.replicate 512 0)).2 =
      .error (.abort .deadlockPrevention) := by decide +kernel
  refine ⟨(deletedSite.insertRecord 3 1 (List.replicate 512 0)).1, Prod.ext rfl hrefused, ?_⟩
  exact (refused_insert_leaves_pin (Prod.ext rfl hrefused)).1

/-- Transaction 1 is refused the slot of the deleted record, and the page stays pinned. -/
theorem not_refused_insert_untouched : ¬ ∀ (s s' : HeapSite) (fd : ℤ) (t : TxnId) (buf : Bytes)
    (reason : AbortReason), s.insertRecord fd t buf = (s', .error (.abort reason)) →
    Untouched s s' := by
  intro h
  have hrefused : (deletedSite.insertRecord 3 1 (List.replicate 512 0)).2 =
      .error (.abort .deadlockPrevention) := by decide +kernel
  have hsame := (h deletedSite _ 3 1 (List.replicate 512 0) .deadlockPrevention
    (Prod.ext rfl hrefused)).pins ⟨3, 1⟩
  exact absurd hsame (by decide +kernel)

end Rmdb
