import Rmdb.Record.RefusedInsert

/-!
# Scanning a table file

`RmScan` (`record/rm_scan.cpp`) goes through the pages of a file and stops at each bit that is set.
It holds a pin on the page it stands on, gives it back in `next()` before it fetches the page again,
and gives back the pin of a page without a further record at once.  When the pool has no frame for a
page, `fetch_page` returns a null pointer, which `fetch_page_handle` does not look at.  On later
pages `next()` probes the bit at position -1 first, which is read as clear.  The contents of the
pages are those of the file; the pool is there for its pins.
-/

namespace Rmdb

/-- `RM_FIRST_RECORD_PAGE`. -/
def RM_FIRST_RECORD_PAGE : ℤ := 1

/-- An `RmScan`: its position, and the pool. -/
structure RmScan where
  rid : Rid
  pool : BufferPool

namespace RmScan

variable (file : RmFile) (fd : ℤ)

/-- `RmFileHandle::fetch_page_handle`; `none` is a thrown error or the null pointer of a full
pool. -/
def fetchPageHandle (pool : BufferPool) (pageNo : ℤ) : Option (RmPage × BufferPool) :=
  match file.fetchPageHandle pageNo, pool.fetchPage ⟨fd, pageNo⟩ with
  | .ok page, (pool, some _) => some (page, pool)
  | _, _ => none

/-- The loop of the constructor and of `next()`, with `k` pages left from `pageNo` on: the first bit
that is set after `curr`, or after `later` on a later page. -/
def findRecord (later : ℤ) : ℕ → ℤ → ℤ → BufferPool → Option RmScan
  | 0, _, _, pool => some ⟨⟨-1, -1⟩, pool⟩
  | k + 1, pageNo, curr, pool => do
    let (page, pool) ← fetchPageHandle file fd pool pageNo
    let slotNo := Bitmap.nextBit true page.body file.hdr.numRecordsPerPage curr
    if slotNo < file.hdr.numRecordsPerPage then return ⟨⟨pageNo, slotNo⟩, pool⟩
    else findRecord later k (pageNo + 1) later (pool.unpinPage ⟨fd, pageNo⟩ false).1

/-- The pages from `pageNo` on. -/
def pagesLeft (pageNo : ℤ) : ℕ := (file.hdr.numPages - pageNo).toNat

/-- The constructor. -/
def init (pool : BufferPool) : Option RmScan :=
  findRecord file fd (-1) (pagesLeft file RM_FIRST_RECORD_PAGE) RM_FIRST_RECORD_PAGE (-1) pool

def next (s : RmScan) : Option RmScan :=
  let pool := if 0 ≤ s.rid.pageNo ∧ s.rid.pageNo < file.hdr.numPages then
      (s.pool.unpinPage ⟨fd, s.rid.pageNo⟩ false).1
    else s.pool
  findRecord file fd (-2) (pagesLeft file s.rid.pageNo) s.rid.pageNo s.rid.slotNo pool

def isEnd (s : RmScan) : Bool := s.rid.pageNo = -1 ∧ s.rid.slotNo = -1

/-- `next()` until `is_end()`, at most `n` times: the positions, and the pool at the end. -/
def visit : ℕ → RmScan → Option (List Rid × BufferPool)
  | 0, _ => none
  | n + 1, s =>
    if s.isEnd then some ([], s.pool)
    else do
      let s' ← s.next file fd
      let (rids, pool) ← visit n s'
      return (s.rid :: rids, pool)

end RmScan

/-! ## What a scan is for -/

/-- The order of the positions in a file. -/
def Rid.Before (a b : Rid) : Prop := a.pageNo < b.pageNo ∨ a.pageNo = b.pageNo ∧ a.slotNo < b.slotNo

/-- The bit of the record is set. -/
def RmFile.Live (file : RmFile) (rid : Rid) : Prop :=
  file.ValidRid rid ∧ Bitmap.isSet (file.pages rid.pageNo).body rid.slotNo.toNat = true

/-- The scan ends after it has visited the live records, each once and in order, and the pins are
what they were. -/
def RmScan.Enumerates (file : RmFile) (fd : ℤ) (pool : BufferPool) : Prop :=
  ∃ s n rids pool', RmScan.init file fd pool = some s ∧ s.visit file fd n = some (rids, pool') ∧
    rids.Pairwise Rid.Before ∧ (∀ rid, rid ∈ rids ↔ file.Live rid) ∧
      ∀ p, pool'.pinsOf p = pool.pinsOf p

/-! ## A page that is fetched and given back -/

namespace BufferPool

variable {s s' : BufferPool} {p q : PageId} {f g : FrameId}

/-- `fetch_page` finds the page in the pool or a frame for it. -/
def CanFetch (s : BufferPool) (p : PageId) : Prop := (s.fetchPage p).2.isSome = true

instance (s : BufferPool) (p : PageId) : Decidable (s.CanFetch p) :=
  inferInstanceAs (Decidable ((s.fetchPage p).2.isSome = true))

theorem canFetch_iff : s.CanFetch p ↔ (s.pageTable.lookup p).isSome = true ∨
    s.findVictimPage.isSome = true := by
  rw [CanFetch]
  cases hl : s.pageTable.lookup p with
  | some f => simp [fetchPage_hit hl]
  | none =>
    cases hv : s.findVictimPage with
    | none => simp [fetchPage_none hl hv]
    | some w => simp [(fetchPage_miss hl hv).1]

/-- Two states of the pool between which a client has given back all that it took. -/
structure Balanced (s s' : BufferPool) : Prop where
  partition : Partition s'
  pins : ∀ q, s'.pinsOf q = s.pinsOf q
  canFetch : ∀ q, s'.CanFetch q ↔ s.CanFetch q

theorem Balanced.refl (hs : Partition s) : Balanced s s := ⟨hs, fun _ => rfl, fun _ => Iff.rfl⟩

theorem Balanced.trans {s'' : BufferPool} (h : Balanced s s') (h' : Balanced s' s'') :
    Balanced s s'' :=
  ⟨h'.partition, fun q => (h'.pins q).trans (h.pins q), fun q =>
    (h'.canFetch q).trans (h.canFetch q)⟩

theorem findVictimPage_isSome (hs : Partition s) :
    s.findVictimPage.isSome = true ↔ ∃ f < s.poolSize, s.InTable f → (s.pages f).pinCount = 0 := by
  rw [Option.isSome_iff_ne_none, ne_eq, hs.findVictimPage_eq_none]
  push Not
  refine exists_congr fun f => and_congr_right fun _ => ?_
  exact forall_congr' fun _ => Nat.le_zero

/-- States that differ in the order of eviction only. -/
theorem Balanced.of_frames (hs : Partition s) (hs' : Partition s')
    (hsize : s'.poolSize = s.poolSize) (htable : s'.pageTable = s.pageTable)
    (hpages : ∀ f, (s'.pages f).id = (s.pages f).id ∧
      (s'.pages f).pinCount = (s.pages f).pinCount) :
    Balanced s s' := by
  have hin (f : FrameId) : s'.InTable f ↔ s.InTable f := by
    rw [InTable, InTable, htable, (hpages f).1]
  refine ⟨hs', fun q => ?_, fun q => ?_⟩
  · rw [pinsOf, pinsOf, htable]
    cases s.pageTable.lookup q with
    | none => rfl
    | some f => exact (hpages f).2
  · rw [canFetch_iff, canFetch_iff, findVictimPage_isSome hs, findVictimPage_isSome hs',
      htable, hsize]
    simp only [hin, (hpages _).2]

/-- A hit that is given back. -/
theorem balanced_hit (hs : Partition s) (hl : s.pageTable.lookup p = some f) :
    Balanced s ((s.fetchPage p).1.unpinPage p false).1 := by
  have hin := hs.inTable_of_lookup hl
  have hhit := hs.hit f
  have hlookup : ({ s with replacer := s.replacer.pin f }.setFrame f
      { s.pages f with pinCount := (s.pages f).pinCount + 1 }).pageTable.lookup p = some f := hl
  have hpin : 0 < (({ s with replacer := s.replacer.pin f }.setFrame f
      { s.pages f with pinCount := (s.pages f).pinCount + 1 }).pages f).pinCount := by
    simp [setFrame]
  rw [fetchPage_hit hl, unpinPage_eq false hlookup hpin]
  refine Balanced.of_frames hs (hhit.unpin (hhit.inTable_of_lookup hlookup) hpin _) rfl rfl fun g =>
    ?_
  simp [setFrame]

/-- A page that was brought in and is given back. -/
theorem balanced_miss (hs : Partition s) (hp : p.pageNo ≠ INVALID_PAGE_ID)
    (hl : s.pageTable.lookup p = none) {v : BufferPool} (hv : s.findVictimPage = some (f, v)) :
    Balanced s ((s.fetchPage p).1.unpinPage p false).1 := by
  have hload := (fetchPage_miss hl hv).2
  generalize (s.fetchPage p).1 = s₁ at hload ⊢
  obtain ⟨hf, hidle, -⟩ := hs.victim hv
  have hs₁ := hload.partition hs hp hl
  have hpin : (s₁.pages f).pinCount = 1 := by rw [hload.pages_self]
  have hs₂ := hs₁.unpin hload.inTable_self (by omega) (s₁.pages f).isDirty
  rw [unpinPage_eq false hload.lookup_self (by omega), Bool.false_or]
  refine ⟨hs₂, fun q => ?_, fun q => ?_⟩
  · simp only [pinsOf, setFrame]
    cases hq : s₁.pageTable.lookup q with
    | some g =>
      rcases hload.lookup_eq_some hs hq with ⟨rfl, rfl⟩ | ⟨-, -, hg, hq'⟩
      · simp [hl, hpin]
      · simp [hq', Function.update_of_ne hg, hload.pages_of_ne hg]
    | none =>
      rcases hload.lookup_eq_none hs hf hq with hq' | ⟨hin, rfl⟩
      · rw [hq']
      · have hq' : s.pageTable.lookup (s.pages f).id = some f := hin
        simp [hq', hidle hin]
  · refine iff_of_true (canFetch_iff.2 (.inr ((findVictimPage_isSome hs₂).2 ⟨f, ?_, fun _ => ?_⟩)))
      (canFetch_iff.2 (.inr (by rw [hv]; rfl)))
    · exact hload.poolSize ▸ hf
    · simp [setFrame, hpin]

/-- A page that is fetched and given back. -/
theorem Balanced.fetch_unpin (hs : Partition s) (hp : p.pageNo ≠ INVALID_PAGE_ID)
    (h : s.fetchPage p = (s', some f)) : Balanced s (s'.unpinPage p false).1 := by
  have hs' : (s.fetchPage p).1 = s' := by rw [h]
  rw [← hs']
  cases hl : s.pageTable.lookup p with
  | some g => exact balanced_hit hs hl
  | none =>
    cases hv : s.findVictimPage with
    | none =>
      rw [fetchPage_none hl hv] at h
      cases h
    | some w => exact balanced_miss hs hp hl hv

end BufferPool

/-! ## The records to come -/

namespace RmScan

open BufferPool

variable {file : RmFile} {fd : ℤ} {pool₀ pool : BufferPool} {bm : ℕ → UInt8} {n k : ℕ}
  {pageNo curr later : ℤ}

/-- The bits that are set after a position. -/
def slotsAfter (bm : ℕ → UInt8) (n : ℕ) (curr : ℤ) : List ℕ :=
  (List.range' (curr + 1).toNat (n - (curr + 1).toNat)).filter fun i => Bitmap.isSet bm i

/-- The records of a page after a position. -/
def ridsOn (file : RmFile) (pageNo curr : ℤ) : List Rid :=
  (slotsAfter (file.pages pageNo).body file.hdr.numRecordsPerPage curr).map fun i : ℕ => ⟨pageNo, i⟩

/-- The records after a position, `k` pages from `pageNo` on. -/
def ridsFrom (file : RmFile) : ℕ → ℤ → ℤ → List Rid
  | 0, _, _ => []
  | k + 1, pageNo, curr => ridsOn file pageNo curr ++ ridsFrom file k (pageNo + 1) (-1)

theorem filter_range'_of_find? {p : ℕ → Bool} {a m j : ℕ} (h : (List.range' a m).find? p = some j) :
    (a ≤ j ∧ j < a + m) ∧ (List.range' a m).filter p =
    j :: (List.range' (j + 1) (a + m - (j + 1))).filter p := by
  induction m generalizing a with
  | zero => cases h
  | succ m ih =>
    rw [List.range'_succ] at h ⊢
    by_cases ha : p a = true
    · rw [List.find?_cons_of_pos ha] at h
      obtain rfl := Option.some.inj h
      rw [List.filter_cons_of_pos ha, show a + (m + 1) - (a + 1) = m by omega]
      exact ⟨by omega, rfl⟩
    · rw [List.find?_cons_of_neg ha] at h
      obtain ⟨hlt, hfilter⟩ := ih h
      rw [List.filter_cons_of_neg ha, hfilter, show a + 1 + m - (j + 1) =
        a + (m + 1) - (j + 1) by omega]
      exact ⟨by omega, rfl⟩

/-- `next_bit` finds the first of the bits to come. -/
theorem nextBit_cases (bm : ℕ → UInt8) (n : ℕ) (curr : ℤ) :
    (n ≤ Bitmap.nextBit true bm n curr ∧ slotsAfter bm n curr = []) ∨
    (Bitmap.nextBit true bm n curr < n ∧ slotsAfter bm n curr =
      Bitmap.nextBit true bm n curr :: slotsAfter bm n (Bitmap.nextBit true bm n curr)) := by
  have hbit : (fun i => Bitmap.isSet bm i == true) = fun i => Bitmap.isSet bm i := by
    funext i
    simp
  rw [Bitmap.nextBit, hbit]
  cases hfind : (List.range' (curr + 1).toNat (n - (curr + 1).toNat)).find? fun i =>
    Bitmap.isSet bm i with
  | none =>
    refine .inl ⟨le_rfl, ?_⟩
    rw [slotsAfter, List.filter_eq_nil_iff]
    exact List.find?_eq_none.1 hfind
  | some j =>
    obtain ⟨hbounds, hfilter⟩ := filter_range'_of_find? hfind
    refine .inr ⟨by simp only [Option.getD_some]; omega, ?_⟩
    have hstart : ((j : ℤ) + 1).toNat = j + 1 := by omega
    rw [slotsAfter, hfilter, Option.getD_some, slotsAfter, hstart,
      show (curr + 1).toNat + (n - (curr + 1).toNat) - (j + 1) = n - (j + 1) by omega]

theorem mem_slotsAfter {i : ℕ} : i ∈ slotsAfter bm n (-1) ↔ i < n ∧ Bitmap.isSet bm i = true := by
  simp [slotsAfter]

theorem mem_ridsFrom {rid : Rid} : rid ∈ ridsFrom file k pageNo (-1) ↔
    (pageNo ≤ rid.pageNo ∧ rid.pageNo < pageNo + k) ∧
      (0 ≤ rid.slotNo ∧ rid.slotNo < file.hdr.numRecordsPerPage) ∧
      Bitmap.isSet (file.pages rid.pageNo).body rid.slotNo.toNat = true := by
  induction k generalizing pageNo with
  | zero =>
    simp only [ridsFrom, List.not_mem_nil, Int.ofNat_zero, false_iff]
    omega
  | succ k ih =>
    rw [ridsFrom, List.mem_append, ih, ridsOn, List.mem_map]
    constructor
    · rintro (⟨i, hi, rfl⟩ | ⟨hpage, hrest⟩)
      · obtain ⟨hlt, hset⟩ := mem_slotsAfter.1 hi
        exact ⟨by simp only; omega, by simp only; omega, by simpa using hset⟩
      · exact ⟨by omega, hrest⟩
    · rintro ⟨hpage, hslot, hset⟩
      by_cases heq : rid.pageNo = pageNo
      · refine .inl ⟨rid.slotNo.toNat, mem_slotsAfter.2 ⟨by omega, heq ▸ hset⟩, ?_⟩
        rw [← heq, Int.toNat_of_nonneg hslot.1]
      · exact .inr ⟨by omega, hslot, hset⟩

theorem pairwise_ridsFrom : (ridsFrom file k pageNo (-1)).Pairwise Rid.Before := by
  induction k generalizing pageNo with
  | zero => exact .nil
  | succ k ih =>
    rw [ridsFrom, List.pairwise_append]
    refine ⟨?_, ih, fun a ha b hb => ?_⟩
    · have hsorted : (List.range' ((-1 : ℤ) + 1).toNat
          (file.hdr.numRecordsPerPage - ((-1 : ℤ) + 1).toNat)).Pairwise (· < ·) :=
            List.pairwise_lt_range'
      rw [ridsOn, List.pairwise_map]
      exact (hsorted.filter _).imp fun hlt => .inr ⟨rfl, Int.ofNat_lt.2 hlt⟩
    · obtain ⟨i, -, rfl⟩ := List.mem_map.1 ha
      exact .inl (by have := (mem_ridsFrom.1 hb).1; simp only; omega)

/-! ## The loop -/

/-- The scan stands on a page that it has pinned once more than the others did. -/
def Holds (fd : ℤ) (pool₀ : BufferPool) (s : RmScan) : Prop :=
  ∃ pool f, Balanced pool₀ pool ∧ pool.fetchPage ⟨fd, s.rid.pageNo⟩ = (s.pool, some f)

/-- A state of the scan before the given records. -/
inductive At (file : RmFile) (fd : ℤ) (pool₀ : BufferPool) (s : RmScan) : List Rid → Prop
  | done (hrid : s.rid = ⟨-1, -1⟩) (hpool : Balanced pool₀ s.pool) : At file fd pool₀ s []
  | on (hpage : 1 ≤ s.rid.pageNo ∧ s.rid.pageNo < file.hdr.numPages) (hheld : Holds fd pool₀ s) :
      At file fd pool₀ s (s.rid :: ridsFrom file (pagesLeft file s.rid.pageNo) s.rid.pageNo
        s.rid.slotNo)

theorem file_fetchPageHandle (hpage : 1 ≤ pageNo ∧ pageNo < file.hdr.numPages) :
    file.fetchPageHandle pageNo = .ok (file.pages pageNo) :=
  if_neg (by omega)

/-- `fetch_page_handle` returns just when the pool can fetch the page. -/
theorem fetchPageHandle_cases (hb : Balanced pool₀ pool)
    (hpage : 1 ≤ pageNo ∧ pageNo < file.hdr.numPages) :
    (pool₀.CanFetch ⟨fd, pageNo⟩ ∧ ∃ pool' f, pool.fetchPage ⟨fd, pageNo⟩ = (pool', some f) ∧
      fetchPageHandle file fd pool pageNo = some (file.pages pageNo, pool')) ∨
    (¬ pool₀.CanFetch ⟨fd, pageNo⟩ ∧ fetchPageHandle file fd pool pageNo = none) := by
  rw [← hb.canFetch, fetchPageHandle, file_fetchPageHandle hpage, CanFetch]
  rcases hfetch : pool.fetchPage ⟨fd, pageNo⟩ with ⟨pool', _ | f⟩
  · exact .inr ⟨by simp, rfl⟩
  · exact .inl ⟨by simp, pool', f, rfl, rfl⟩

theorem pageNo_ne_invalid (hpage : 1 ≤ pageNo) :
    (PageId.mk fd pageNo).pageNo ≠ INVALID_PAGE_ID := by
  simp only [INVALID_PAGE_ID]
  omega

/-- A round of the loop on a page that can be fetched. -/
theorem findRecord_succ (hb : Balanced pool₀ pool) (hpage : 1 ≤ pageNo ∧ pageNo < file.hdr.numPages)
    (hfetch : pool₀.CanFetch ⟨fd, pageNo⟩) :
    (∃ s, findRecord file fd later (k + 1) pageNo curr pool = some s ∧ s.rid.pageNo = pageNo ∧
      Holds fd pool₀ s ∧ ridsOn file pageNo curr = s.rid :: ridsOn file pageNo s.rid.slotNo) ∨
    (ridsOn file pageNo curr = [] ∧ ∃ pool', Balanced pool₀ pool' ∧
      findRecord file fd later (k + 1) pageNo curr pool = findRecord file fd later k
      (pageNo + 1) later pool') := by
  obtain ⟨-, pool', f, hpool, hhandle⟩ :=
    (fetchPageHandle_cases hb hpage).resolve_right fun h => h.1 hfetch
  rw [findRecord, hhandle]
  simp only [Option.bind_eq_bind, Option.bind_some]
  rcases nextBit_cases (file.pages pageNo).body file.hdr.numRecordsPerPage curr with
    ⟨hle, hnil⟩ | ⟨hlt, hcons⟩
  · rw [if_neg (by omega)]
    have hunpin := Balanced.fetch_unpin hb.partition (pageNo_ne_invalid hpage.1) hpool
    exact .inr ⟨by rw [ridsOn, hnil]; rfl, _, hb.trans hunpin, rfl⟩
  · rw [if_pos hlt]
    exact .inl ⟨_, rfl, rfl, ⟨pool, f, hb, hpool⟩, by rw [ridsOn, hcons]; rfl⟩

theorem ridsFrom_later (hlater : (later + 1).toNat = 0) (file : RmFile) (k : ℕ) (pageNo : ℤ) :
    ridsFrom file k pageNo later = ridsFrom file k pageNo (-1) := by
  cases k with
  | zero => rfl
  | succ k =>
    rw [ridsFrom, ridsFrom, ridsOn, ridsOn, slotsAfter, slotsAfter, hlater]
    rfl

/-- Over pages that can be fetched, the loop stops at the next record or at the end. -/
theorem findRecord_at (curr : ℤ) (hlater : (later + 1).toNat = 0) (hb : Balanced pool₀ pool)
    (hpage : 1 ≤ pageNo) (hk : pagesLeft file pageNo = k)
    (hfetch : ∀ q, 1 ≤ q → q < file.hdr.numPages → pool₀.CanFetch ⟨fd, q⟩) :
    ∃ s, findRecord file fd later k pageNo curr pool = some s ∧ At file fd pool₀ s
    (ridsFrom file k pageNo curr) := by
  induction k generalizing pageNo curr pool with
  | zero => exact ⟨⟨⟨-1, -1⟩, pool⟩, rfl, .done rfl hb⟩
  | succ k ih =>
    have hlt : pageNo < file.hdr.numPages := by
      rw [pagesLeft] at hk
      omega
    have hleft : pagesLeft file (pageNo + 1) = k := by
      rw [pagesLeft] at hk ⊢
      omega
    rcases findRecord_succ hb ⟨hpage, hlt⟩ (hfetch pageNo hpage hlt) with
      ⟨s, hs, hrid, hheld, hrids⟩ | ⟨hnil, pool', hb', hs⟩
    · refine ⟨s, hs, ?_⟩
      have hat : At file fd pool₀ s _ := .on (by rw [hrid]; exact ⟨hpage, hlt⟩) hheld
      rw [hrid, hk, ridsFrom] at hat
      rw [ridsFrom, hrids]
      exact hat
    · obtain ⟨s, hs', hat⟩ := ih later hb' (by omega) hleft
      rw [ridsFrom_later hlater] at hat
      rw [ridsFrom, hnil]
      exact ⟨s, hs.trans hs', hat⟩

/-- Over a page that cannot be fetched, the loop does not come to the end. -/
theorem findRecord_stuck (later curr : ℤ) (hb : Balanced pool₀ pool) (hpage : 1 ≤ pageNo)
    (hk : pagesLeft file pageNo = k) {q : ℤ} (hq : pageNo ≤ q ∧ q < file.hdr.numPages)
    (hfetch : ¬ pool₀.CanFetch ⟨fd, q⟩) : findRecord file fd later k pageNo curr pool = none ∨
      ∃ s, findRecord file fd later k pageNo curr pool = some s ∧
      (1 ≤ s.rid.pageNo ∧ s.rid.pageNo < q) ∧ Holds fd pool₀ s := by
  induction k generalizing pageNo curr pool with
  | zero =>
    rw [pagesLeft] at hk
    omega
  | succ k ih =>
    have hlt : pageNo < file.hdr.numPages := by omega
    have hleft : pagesLeft file (pageNo + 1) = k := by
      rw [pagesLeft] at hk ⊢
      omega
    by_cases hcan : pool₀.CanFetch ⟨fd, pageNo⟩
    · have hne : pageNo ≠ q := by
        rintro rfl
        exact hfetch hcan
      rcases findRecord_succ hb ⟨hpage, hlt⟩ hcan with ⟨s, hs, hrid, hheld, -⟩ | ⟨-, pool', hb', hs⟩
      · exact .inr ⟨s, hs, by omega, hheld⟩
      · rw [hs]
        exact ih later hb' (by omega) hleft (by omega)
    · have hnone := ((fetchPageHandle_cases hb ⟨hpage, hlt⟩).resolve_left fun h => hcan h.1).2
      exact .inl (by rw [findRecord, hnone]; rfl)

/-! ## The whole scan -/

/-- `next()` gives back its pin before it looks for the next record. -/
theorem next_eq {s : RmScan} (hpage : 1 ≤ s.rid.pageNo ∧ s.rid.pageNo < file.hdr.numPages)
    (hheld : Holds fd pool₀ s) : ∃ pool, Balanced pool₀ pool ∧ s.next file fd =
      findRecord file fd (-2) (pagesLeft file s.rid.pageNo) s.rid.pageNo s.rid.slotNo pool := by
  obtain ⟨pool, f, hb, hfetch⟩ := hheld
  refine ⟨_, hb.trans (Balanced.fetch_unpin hb.partition (pageNo_ne_invalid hpage.1) hfetch), ?_⟩
  rw [next, if_pos (by omega)]

theorem isEnd_of_on {s : RmScan} (hpage : 1 ≤ s.rid.pageNo) : s.isEnd = false := by
  simp only [isEnd, decide_eq_false_iff_not]
  omega

theorem visit_at {s : RmScan} {rids : List Rid} (hat : At file fd pool₀ s rids)
    (hfetch : ∀ q, 1 ≤ q → q < file.hdr.numPages → pool₀.CanFetch ⟨fd, q⟩) :
    ∃ pool', s.visit file fd (rids.length + 1) = some (rids, pool') ∧ Balanced pool₀ pool' := by
  generalize hlen : rids.length = m
  induction m generalizing s rids with
  | zero =>
    obtain rfl := List.length_eq_zero_iff.1 hlen
    cases hat with
    | done hrid hpool => exact ⟨s.pool, by simp [visit, isEnd, hrid], hpool⟩
  | succ m ih =>
    cases hat with
    | done hrid hpool => cases hlen
    | on hpage hheld =>
      obtain ⟨pool, hb, hnext⟩ := next_eq hpage hheld
      obtain ⟨s', hs', hat'⟩ :=
        findRecord_at s.rid.slotNo (show ((-2 : ℤ) + 1).toNat = 0 from rfl) hb hpage.1 rfl hfetch
      obtain ⟨pool', hvisit, hb'⟩ := ih hat' (by simpa using hlen)
      refine ⟨pool', ?_, hb'⟩
      rw [visit, isEnd_of_on hpage.1, hnext, hs']
      simp [hvisit]

theorem visit_stuck {s : RmScan} {q : ℤ} (hpage : 1 ≤ s.rid.pageNo ∧ s.rid.pageNo < q)
    (hq : q < file.hdr.numPages)
    (hheld : Holds fd pool₀ s) (hfetch : ¬ pool₀.CanFetch ⟨fd, q⟩) (n : ℕ) :
    s.visit file fd n = none := by
  induction n generalizing s with
  | zero => rfl
  | succ n ih =>
    have hlt : s.rid.pageNo < file.hdr.numPages := by omega
    obtain ⟨pool, hb, hnext⟩ := next_eq ⟨hpage.1, hlt⟩ hheld
    rw [visit, isEnd_of_on hpage.1, hnext]
    rcases findRecord_stuck (-2) s.rid.slotNo hb hpage.1 rfl ⟨by omega, hq⟩ hfetch with
      hs | ⟨s', hs, hpage', hheld'⟩
    · simp [hs]
    · simp [hs, ih hpage' hheld']

theorem enumerates_iff_canFetch (hpool : Partition pool) :
    Enumerates file fd pool ↔ ∀ q, file.DataPage q → pool.CanFetch ⟨fd, q⟩ := by
  constructor
  · rintro ⟨s, n, rids, pool', hinit, hvisit, -⟩ q ⟨hq, hlt⟩
    by_contra hfetch
    rcases findRecord_stuck (-1) (-1) (.refl hpool) le_rfl rfl ⟨hq, hlt⟩ hfetch with
      hnone | ⟨s', hs', hpage, hheld⟩
    · cases hinit.symm.trans hnone
    · cases hinit.symm.trans hs'
      cases hvisit.symm.trans (visit_stuck hpage hlt hheld hfetch n)
  · intro hpages
    have hfetch (q : ℤ) (hq : 1 ≤ q) (hlt : q < file.hdr.numPages) : pool.CanFetch ⟨fd, q⟩ :=
      hpages q ⟨hq, hlt⟩
    obtain ⟨s, hinit, hat⟩ :=
      findRecord_at (-1) (show ((-1 : ℤ) + 1).toNat = 0 from rfl) (.refl hpool) le_rfl rfl hfetch
    obtain ⟨pool', hvisit, hb⟩ := visit_at hat hfetch
    refine ⟨s, _, _, pool', hinit, hvisit, pairwise_ridsFrom, fun rid => ?_, hb.pins⟩
    have hfirst : RM_FIRST_RECORD_PAGE = 1 := rfl
    rw [mem_ridsFrom, RmFile.Live, RmFile.ValidRid, RmFile.DataPage, pagesLeft]
    constructor
    · rintro ⟨hpage, hslot, hset⟩
      exact ⟨⟨by omega, hslot⟩, hset⟩
    · rintro ⟨⟨hpage, hslot⟩, hset⟩
      exact ⟨by omega, hslot, hset⟩

/-- A scan visits the live records and leaves the pins just when the pool has a frame that is not
pinned or holds all pages of the file already. -/
theorem heap_scan_enumerates_iff (hpool : Partition pool) :
    Enumerates file fd pool ↔
      (∃ f < pool.poolSize, pool.InTable f → (pool.pages f).pinCount = 0) ∨
      ∀ q, file.DataPage q → (pool.pageTable.lookup ⟨fd, q⟩).isSome = true := by
  rw [enumerates_iff_canFetch hpool, ← findVictimPage_isSome hpool]
  simp only [canFetch_iff]
  constructor
  · intro h
    by_cases hvictim : pool.findVictimPage.isSome = true
    · exact .inl hvictim
    · exact .inr fun q hq => (h q hq).resolve_right hvictim
  · rintro (hvictim | hresident) q hq
    · exact .inr hvictim
    · exact .inl (hresident q hq)

/-! ## A file of two pages -/

/-- The second page has two records. -/
def twoPages : RmFile where
  hdr := ⟨512, 3, 7, -1, 1⟩
  pages pageNo := { body := fun i => if pageNo = 2 ∧ i = 0 then 0xa0 else 0 }
  fd2pageno := 3

/-- A pool of one frame, which is free. -/
def freeFrame : BufferPool := BufferPool.init 1 (fun _ => 0) ⟨fun _ => Block.zero, fun _ => 0⟩

/-- A pool of one frame, which a page of another file has. -/
def fullPool : BufferPool := (freeFrame.fetchPage ⟨9, 1⟩).1

theorem heap_scan_enumerates_twoPages : Enumerates twoPages 3 freeFrame :=
  (heap_scan_enumerates_iff (partition_init ..)).2 (.inl ⟨0, by decide, fun _ => rfl⟩)

/-- Without a frame for its first page, the scan does not come to the end. -/
theorem not_heap_scan_enumerates : Partition fullPool ∧ ¬ Enumerates twoPages 3 fullPool := by
  have hpool : Partition fullPool := (partition_fetchPage (partition_init ..) (by decide)).1
  refine ⟨hpool, fun h => ?_⟩
  have hpage : twoPages.DataPage 1 := ⟨by decide, by decide⟩
  exact absurd ((enumerates_iff_canFetch hpool).1 h 1 hpage) (by decide)

end RmScan

end Rmdb
