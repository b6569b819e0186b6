import Rmdb.Record.HeapMap
import Rmdb.Record.HeapScan

/-!
# Positions in a bitmap

The positions at which `RmScan` and `insert_record` read or set a bit (`record/bitmap.h`,
`record/rm_scan.cpp`). `next_bit` starts behind `curr`.  When `next()` moves on to a further page it
passes -2, so the first position there is -1, for which `get_bit` shifts by a negative count; the
constructor and `insert_record` pass -1.  The functions here are those of the scan and of the file
with the list of the positions beside their result.
-/

namespace Rmdb

namespace Bitmap

/-- `is_set` at a position of type `int`.  The bit at a negative position is read as clear. -/
def isSetAt (bm : ℕ → UInt8) (pos : ℤ) : Bool := if pos < 0 then false else isSet bm pos.toNat

/-- The loop of `next_bit` from `i` on with `n` rounds left: what it returns and the positions it
reads. -/
def nextBitLoop (bit : Bool) (bm : ℕ → UInt8) (maxN : ℕ) : ℕ → ℤ → ℤ × List ℤ
  | 0, _ => (maxN, [])
  | n + 1, i =>
    if isSetAt bm i == bit then (i, [i])
    else
      let (found, probes) := nextBitLoop bit bm maxN n (i + 1)
      (found, i :: probes)

/-- `next_bit`. -/
def nextBitProbed (bit : Bool) (bm : ℕ → UInt8) (maxN : ℕ) (curr : ℤ) : ℤ × List ℤ :=
  nextBitLoop bit bm maxN (maxN - (curr + 1)).toNat (curr + 1)

/-- All positions are those of a bitmap of `maxN` bits. -/
def InRange (maxN : ℕ) (probes : List ℤ) : Prop := ∀ p ∈ probes, 0 ≤ p ∧ p < maxN

variable {bit : Bool} {bm : ℕ → UInt8} {maxN n : ℕ} {i curr : ℤ} {ps qs : List ℤ}

theorem inRange_append : InRange maxN (ps ++ qs) ↔ InRange maxN ps ∧ InRange maxN qs :=
  List.forall_mem_append

theorem nextBitLoop_fst (h : bit = true ∨ 0 ≤ i) (hn : (maxN - i).toNat = n) :
    (nextBitLoop bit bm maxN n i).1 =
      ((List.range' i.toNat (maxN - i.toNat)).find? fun j => isSet bm j == bit).getD maxN := by
  induction n generalizing i with
  | zero =>
    have hempty : maxN - i.toNat = 0 := by omega
    simp [nextBitLoop, hempty]
  | succ n ih =>
    by_cases hneg : i < 0
    · -- positions before the bitmap are passed over
      have hbit : bit = true := h.resolve_right (by omega)
      have hnext : (i + 1).toNat = i.toNat := by omega
      have hrest := ih (i := i + 1) (.inl hbit) (by omega)
      rw [hnext] at hrest
      simp only [nextBitLoop, isSetAt, if_pos hneg, hbit]
      subst hbit
      exact hrest
    · have hlen : maxN - i.toNat = (maxN - (i.toNat + 1)) + 1 := by omega
      have hnext : (i + 1).toNat = i.toNat + 1 := by omega
      have hrest := ih (i := i + 1) (.inr (by omega)) (by omega)
      rw [hnext] at hrest
      rw [hlen, List.range'_succ, List.find?_cons]
      simp only [nextBitLoop, isSetAt, if_neg hneg]
      cases hset : isSet bm i.toNat == bit with
      | true => simp; omega
      | false => simpa using hrest

/-- The position that `next_bit` returns. -/
theorem nextBitProbed_fst (h : bit = true ∨ -1 ≤ curr) :
    (nextBitProbed bit bm maxN curr).1 = nextBit bit bm maxN curr :=
  nextBitLoop_fst (h.imp_right fun hcurr => by omega) rfl

theorem mem_nextBitLoop {p : ℤ} (hp : p ∈ (nextBitLoop bit bm maxN n i).2) : i ≤ p ∧ p < i + n := by
  induction n generalizing i with
  | zero => cases hp
  | succ n ih =>
    unfold nextBitLoop at hp
    split at hp
    · obtain rfl := List.mem_singleton.mp hp
      omega
    · rcases List.mem_cons.mp hp with rfl | hp
      · omega
      · have := ih hp
        omega

theorem self_mem_nextBitLoop : i ∈ (nextBitLoop bit bm maxN (n + 1) i).2 := by
  unfold nextBitLoop
  split
  · exact List.mem_singleton_self i
  · exact List.mem_cons_self

/-- `next_bit` stays in the bitmap if and only if it does not start before it. -/
theorem nextBitProbed_inRange : InRange maxN (nextBitProbed bit bm maxN curr).2 ↔ -1 ≤ curr := by
  constructor
  · intro h
    by_contra hcurr
    obtain ⟨n, hn⟩ : ∃ n, ((maxN : ℤ) - (curr + 1)).toNat = n + 1 :=
      ⟨((maxN : ℤ) - (curr + 1)).toNat - 1, by omega⟩
    rw [nextBitProbed, hn] at h
    have := h (curr + 1) self_mem_nextBitLoop
    omega
  · intro hcurr p hp
    have := mem_nextBitLoop hp
    omega

end Bitmap

/-! ## The scan -/

namespace RmScan

open BufferPool Bitmap

section
variable (file : RmFile) (fd : ℤ)

/-- The loop of the constructor and of `next()`. -/
def findRecordProbed (later : ℤ) : ℕ → ℤ → ℤ → BufferPool → Option (RmScan × List ℤ)
  | 0, _, _, pool => some (⟨⟨-1, -1⟩, pool⟩, [])
  | k + 1, pageNo, curr, pool => do
    let (page, pool) ← fetchPageHandle file fd pool pageNo
    let (slotNo, probes) := nextBitProbed true page.body file.hdr.numRecordsPerPage curr
    if slotNo < file.hdr.numRecordsPerPage then return (⟨⟨pageNo, slotNo⟩, pool⟩, probes)
    else do
      let (s, more) ← findRecordProbed later k (pageNo + 1) later
        (pool.unpinPage ⟨fd, pageNo⟩ false).1
      return (s, probes ++ more)

/-- The constructor. -/
def initProbed (pool : BufferPool) : Option (RmScan × List ℤ) :=
  findRecordProbed file fd (-1) (pagesLeft file RM_FIRST_RECORD_PAGE) RM_FIRST_RECORD_PAGE (-1) pool

def nextProbed (s : RmScan) : Option (RmScan × List ℤ) :=
  let pool := if 0 ≤ s.rid.pageNo ∧ s.rid.pageNo < file.hdr.numPages then
      (s.pool.unpinPage ⟨fd, s.rid.pageNo⟩ false).1
    else s.pool
  findRecordProbed file fd (-2) (pagesLeft file s.rid.pageNo) s.rid.pageNo s.rid.slotNo pool

/-- `next()` until `is_end()`, at most `n` times. -/
def visitProbed : ℕ → RmScan → Option (List Rid × List ℤ × BufferPool)
  | 0, _ => none
  | n + 1, s =>
    if s.isEnd then some ([], [], s.pool)
    else do
      let (s', probes) ← s.nextProbed file fd
      let (rids, more, pool) ← visitProbed n s'
      return (s.rid :: rids, probes ++ more, pool)

end

variable {file : RmFile} {fd : ℤ} {pool pool' : BufferPool} {n k : ℕ} {pageNo curr later : ℤ}
  {s s' : RmScan}
  {ps ps' : List ℤ} {rids : List Rid}

/-! ### Without the positions, these are the functions of the scan -/

theorem findRecordProbed_fst (later : ℤ) (k : ℕ) (pageNo curr : ℤ) (pool : BufferPool) :
    (findRecordProbed file fd later k pageNo curr pool).map Prod.fst =
    findRecord file fd later k pageNo curr pool := by
  induction k generalizing pageNo curr pool with
  | zero => rfl
  | succ k ih =>
    rw [findRecordProbed, findRecord]
    cases hfetch : fetchPageHandle file fd pool pageNo with
    | none => rfl
    | some res =>
      obtain ⟨page, pool₁⟩ := res
      have hfst : (nextBitProbed true page.body file.hdr.numRecordsPerPage curr).1 = _ :=
        nextBitProbed_fst (.inl rfl)
      simp only [Option.bind_eq_bind, Option.bind_some, hfst, Int.ofNat_lt, ← ih]
      by_cases hlt : nextBit true page.body file.hdr.numRecordsPerPage curr <
        file.hdr.numRecordsPerPage
      · simp [hlt]
      · simp only [if_neg hlt]
        cases findRecordProbed file fd later k (pageNo + 1) later
          (pool₁.unpinPage ⟨fd, pageNo⟩ false).1 with
        | none => rfl
        | some res => rfl

theorem initProbed_fst (pool : BufferPool) :
    (initProbed file fd pool).map Prod.fst = init file fd pool :=
  findRecordProbed_fst ..

theorem nextProbed_fst (s : RmScan) : (s.nextProbed file fd).map Prod.fst = s.next file fd :=
  findRecordProbed_fst ..

theorem visitProbed_fst (n : ℕ) (s : RmScan) :
    (s.visitProbed file fd n).map (fun r => (r.1, r.2.2)) = s.visit file fd n := by
  induction n generalizing s with
  | zero => rfl
  | succ n ih =>
    rw [visitProbed, visit]
    cases hend : s.isEnd with
    | true => rfl
    | false =>
      rw [← nextProbed_fst]
      cases hnext : s.nextProbed file fd with
      | none => rfl
      | some res =>
        have hrest := ih res.1
        simp only [Bool.false_eq_true, if_false, Option.map_some, Option.bind_eq_bind,
          Option.bind_some, ← hrest]
        cases res.1.visitProbed file fd n with
        | none => rfl
        | some res => rfl

/-! ### The positions of one step -/

theorem fetchPageHandle_some {page : RmPage}
    (h : fetchPageHandle file fd pool pageNo = some (page, pool')) :
    page = file.pages pageNo := by
  unfold fetchPageHandle RmFile.fetchPageHandle at h
  split at h
  · next page' pool'' f hpage hpool =>
    split at hpage
    · cases hpage
    · cases hpage
      cases h
      rfl
  · cases h

/-- A round of the loop ends at a record of the page, or there is none and it goes on to the next
page. -/
theorem findRecordProbed_succ (h : findRecordProbed file fd later (k + 1) pageNo curr pool =
      some (s, ps)) :
    ∃ probes, (InRange file.hdr.numRecordsPerPage probes ↔ -1 ≤ curr) ∧
      ((s.rid.pageNo = pageNo ∧ 0 ≤ s.rid.slotNo ∧ ps = probes ∧
          ridsOn file pageNo curr = s.rid :: ridsOn file pageNo s.rid.slotNo) ∨
        (ridsOn file pageNo curr = [] ∧ ∃ pool' more, ps = probes ++ more ∧
          findRecordProbed file fd later k (pageNo + 1) later pool' = some (s, more))) := by
  rw [findRecordProbed] at h
  cases hfetch : fetchPageHandle file fd pool pageNo with
  | none =>
    rw [hfetch] at h
    cases h
  | some res =>
    obtain ⟨page, pool₁⟩ := res
    obtain rfl := fetchPageHandle_some hfetch
    have hfst :
        (nextBitProbed true (file.pages pageNo).body file.hdr.numRecordsPerPage curr).1 = _ :=
      nextBitProbed_fst (.inl rfl)
    simp only [hfetch, Option.bind_eq_bind, Option.bind_some, hfst, Int.ofNat_lt] at h
    refine ⟨(nextBitProbed true (file.pages pageNo).body file.hdr.numRecordsPerPage curr).2,
      nextBitProbed_inRange, ?_⟩
    rcases nextBit_cases (file.pages pageNo).body file.hdr.numRecordsPerPage curr with
      ⟨hle, hnil⟩ | ⟨hlt, hcons⟩
    · rw [if_neg (by omega)] at h
      obtain ⟨⟨s', more⟩, hmore, hres⟩ := Option.bind_eq_some_iff.mp h
      cases hres
      exact .inr ⟨by rw [ridsOn, hnil]; rfl, _, more, rfl, hmore⟩
    · rw [if_pos hlt] at h
      cases h
      exact .inl ⟨rfl, Int.natCast_nonneg _, rfl, by rw [ridsOn, hcons]; rfl⟩

/-- The loop leaves the bitmap when it begins before it, or goes on to a further page before the
bitmap. -/
theorem inRange_findRecordProbed
    (h : findRecordProbed file fd later k pageNo curr pool = some (s, ps)) :
    InRange file.hdr.numRecordsPerPage ps ↔
      (k = 0 ∨ -1 ≤ curr) ∧ (-1 ≤ later ∨ k ≤ 1 ∨ ridsOn file pageNo curr ≠ []) := by
  induction k generalizing pageNo curr pool ps with
  | zero =>
    cases h
    exact iff_of_true (List.forall_mem_nil _) ⟨.inl rfl, .inr (.inl (by omega))⟩
  | succ k ih =>
    obtain ⟨probes, hprobes, ⟨-, -, rfl, hcons⟩ | ⟨hnil, pool', more, rfl, hmore⟩⟩ :=
      findRecordProbed_succ h
    · rw [hprobes, hcons]
      simp
    · rw [inRange_append, hprobes, ih hmore, hnil]
      constructor
      · rintro ⟨hcurr, hk, -⟩
        exact ⟨.inr hcurr, by omega⟩
      · rintro ⟨hcurr, hlater | hk | hne⟩
        · exact ⟨by omega, .inr hlater, .inl hlater⟩
        · exact ⟨by omega, .inl (by omega), .inr (.inl (by omega))⟩
        · exact absurd rfl hne

/-- The scan stands before the given records. -/
inductive Stands (file : RmFile) (s : RmScan) : List Rid → Prop
  | done (hrid : s.rid = ⟨-1, -1⟩) : Stands file s []
  | on (hpage : 1 ≤ s.rid.pageNo ∧ s.rid.pageNo < file.hdr.numPages) (hslot : 0 ≤ s.rid.slotNo) :
      Stands file s (s.rid :: ridsFrom file (pagesLeft file s.rid.pageNo) s.rid.pageNo s.rid.slotNo)

theorem stands_findRecordProbed
    (h : findRecordProbed file fd later k pageNo curr pool = some (s, ps))
    (hlater : (later + 1).toNat = 0) (hpage : 1 ≤ pageNo) (hk : pagesLeft file pageNo = k) :
    Stands file s (ridsFrom file k pageNo curr) := by
  induction k generalizing pageNo curr pool ps with
  | zero =>
    cases h
    exact .done rfl
  | succ k ih =>
    rw [pagesLeft] at hk
    obtain ⟨probes, -, ⟨hrid, hslot, -, hcons⟩ | ⟨hnil, pool', more, -, hmore⟩⟩ :=
      findRecordProbed_succ h
    · have hon : Stands file s _ := .on (by omega) hslot
      have hleft : pagesLeft file pageNo = k + 1 := by rw [pagesLeft]; omega
      rw [hrid, hleft, ridsFrom] at hon
      rw [ridsFrom, hcons]
      exact hon
    · have hrest := ih hmore (by omega) (by rw [pagesLeft]; omega)
      rw [ridsFrom_later hlater] at hrest
      rw [ridsFrom, hnil]
      exact hrest

/-! ### The positions of a scan -/

/-- A scan that comes to its end has visited the records before which it stood, and it left the
bitmap if and only if one of them is not on the last page. -/
theorem inRange_visitProbed {rids' : List Rid} (hs : Stands file s rids')
    (h : s.visitProbed file fd n = some (rids, ps, pool')) :
    rids = rids' ∧ (InRange file.hdr.numRecordsPerPage ps ↔ ∀ rid ∈ rids, rid.pageNo + 1 =
      file.hdr.numPages) := by
  induction n generalizing s rids ps rids' with
  | zero => cases h
  | succ n ih =>
    cases hs with
    | done hrid =>
      have hend : s.isEnd = true := by simp [isEnd, hrid]
      rw [visitProbed, if_pos hend] at h
      cases h
      exact ⟨rfl, iff_of_true (List.forall_mem_nil _) (List.forall_mem_nil _)⟩
    | on hpage hslot =>
      rw [visitProbed, isEnd_of_on hpage.1, if_neg Bool.false_ne_true] at h
      obtain ⟨⟨s', probes⟩, hnext, h⟩ := Option.bind_eq_some_iff.mp h
      obtain ⟨⟨rids'', more, pool''⟩, hmore, hres⟩ := Option.bind_eq_some_iff.mp h
      cases hres
      have hstep := inRange_findRecordProbed hnext
      obtain ⟨rfl, hrest⟩ := ih (stands_findRecordProbed hnext rfl hpage.1 rfl) hmore
      refine ⟨rfl, ?_⟩
      obtain ⟨k, hk⟩ : ∃ k, pagesLeft file s.rid.pageNo = k + 1 :=
          ⟨pagesLeft file s.rid.pageNo - 1, by
        rw [pagesLeft]
        omega⟩
      have hlast : k = 0 ↔ s.rid.pageNo + 1 = file.hdr.numPages := by
        rw [pagesLeft] at hk
        omega
      rw [inRange_append, hstep, hrest, List.forall_mem_cons, hk, ridsFrom, ← hlast]
      constructor
      · rintro ⟨⟨-, hlater | hk | hne⟩, hall⟩
        · omega
        · exact ⟨by omega, hall⟩
        · -- a further record of this page is on the last page
          obtain ⟨rid, hrid⟩ := List.exists_mem_of_ne_nil _ hne
          have hpage' : rid.pageNo = s.rid.pageNo := by
            obtain ⟨i, -, rfl⟩ := List.mem_map.mp hrid
            rfl
          have hrid' := hall rid (List.mem_append_left _ hrid)
          rw [hpage', ← hlast] at hrid'
          exact ⟨hrid', hall⟩
      · rintro ⟨hk, hall⟩
        exact ⟨⟨.inr (by omega), .inr (.inl (by omega))⟩, hall⟩

theorem mem_ridsFrom_first {rid : Rid} :
    rid ∈ ridsFrom file (pagesLeft file RM_FIRST_RECORD_PAGE) RM_FIRST_RECORD_PAGE (-1) ↔
    file.Live rid := by
  have hfirst : RM_FIRST_RECORD_PAGE = 1 := rfl
  rw [mem_ridsFrom, RmFile.Live, RmFile.ValidRid, RmFile.DataPage, pagesLeft]
  constructor
  · rintro ⟨hpage, hslot, hset⟩
    exact ⟨⟨by omega, hslot⟩, hset⟩
  · rintro ⟨⟨hpage, hslot⟩, hset⟩
    exact ⟨by omega, hslot, hset⟩

/-- A complete scan stays in the bitmaps if and only if all records are on the last page. -/
theorem inRange_scan_iff (hinit : initProbed file fd pool = some (s, ps))
    (hvisit : s.visitProbed file fd n = some (rids, ps', pool')) :
    InRange file.hdr.numRecordsPerPage (ps ++ ps') ↔ ∀ rid, file.Live rid →
    rid.pageNo + 1 = file.hdr.numPages := by
  have hfirst : InRange file.hdr.numRecordsPerPage ps :=
    (inRange_findRecordProbed hinit).mpr ⟨.inr (by omega), .inl (by omega)⟩
  obtain ⟨rfl, hrest⟩ :=
    inRange_visitProbed (stands_findRecordProbed hinit rfl (by decide) rfl) hvisit
  rw [inRange_append, hrest]
  constructor
  · exact fun h rid hrid => h.2 rid (mem_ridsFrom_first.mpr hrid)
  · exact fun h => ⟨hfirst, fun rid hrid => h rid (mem_ridsFrom_first.mp hrid)⟩

/-- A scan with a free frame comes to its end. -/
theorem exists_complete_scan (file : RmFile) (fd : ℤ) :
    ∃ s ps n rids ps' pool', initProbed file fd freeFrame = some (s, ps) ∧
      s.visitProbed file fd n = some (rids, ps', pool') := by
  have hpages (q : ℤ) (_ : file.DataPage q) : freeFrame.CanFetch ⟨fd, q⟩ :=
    canFetch_iff.mpr (.inr rfl)
  obtain ⟨s, n, rids, pool', hinit, hvisit, -⟩ :=
    (enumerates_iff_canFetch (partition_init ..)).mpr hpages
  have hinit := (initProbed_fst freeFrame).trans hinit
  obtain ⟨⟨s', ps⟩, hstart, rfl⟩ := Option.map_eq_some_iff.mp hinit
  have hvisit := (visitProbed_fst n s').trans hvisit
  obtain ⟨⟨rids', ps', pool''⟩, hrun, -⟩ := Option.map_eq_some_iff.mp hvisit
  exact ⟨s', ps, n, rids', ps', pool'', hstart, hrun⟩

end RmScan

/-! ## `insert_record` -/

namespace RmFile

open Bitmap RmScan

/-- `insert_record` with the positions that `first_bit` reads and the one that is set. -/
def insertRecordProbed (f : RmFile) (buf : Bytes) : Except RmError (RmFile × Rid × List ℤ) := do
  let (f, pageNo) ← f.createPageHandle
  let (slotNo, probes) := nextBitProbed false (f.pages pageNo).body f.hdr.numRecordsPerPage (-1)
  let (f, rid) := f.insertInto pageNo buf
  return (f, rid, probes ++ [slotNo])

/-- The chain of free pages is exact: the pages with room, each once. -/
def ChainExact (f : RmFile) : Prop :=
  ∃ l : List ℤ, l.Nodup ∧ FreeChain f.nextFree f.hdr.firstFreePageNo l ∧ ∀ p, p ∈ l ↔ f.HasRoom p

/-- All positions at which a complete scan or `insert_record` reads or sets a bit are in the
bitmap. -/
def ProbesInRange (f : RmFile) : Prop :=
  (∀ fd pool s ps n rids ps' pool', initProbed f fd pool = some (s, ps) →
    s.visitProbed f fd n = some (rids, ps', pool') → InRange f.hdr.numRecordsPerPage (ps ++ ps')) ∧
  (f.ChainExact → ∀ buf f' rid ps, f.insertRecordProbed buf = .ok (f', rid, ps) →
    InRange f.hdr.numRecordsPerPage ps)

variable {f f' : RmFile} {rid : Rid} {buf : Bytes} {p : ℤ} {ps : List ℤ}

theorem insertRecordProbed_fst (f : RmFile) (buf : Bytes) :
    (f.insertRecordProbed buf).map (fun r => (r.1, r.2.1)) = f.insertRecord buf := by
  rw [insertRecordProbed, insertRecord]
  cases f.createPageHandle with
  | error e => rfl
  | ok res => rfl

/-- `create_page_handle` finds a page with a clear bit. -/
theorem createPageHandle_clear (hchain : f.ChainExact) (hpos : 0 < f.hdr.numRecordsPerPage)
    (h : f.createPageHandle = .ok (f', p)) :
    f'.hdr.numRecordsPerPage = f.hdr.numRecordsPerPage ∧
      ∃ slot < f.hdr.numRecordsPerPage, isSet (f'.pages p).body slot = false := by
  unfold createPageHandle at h
  split at h
  · cases h
    refine ⟨rfl, 0, hpos, ?_⟩
    simp [setPage, isSet, Bitmap.init]
  · next hfirst =>
    obtain ⟨l, -, hl, hmem⟩ := hchain
    cases l with
    | nil => exact absurd hl hfirst
    | cons q l =>
      have hroom := (hmem q).mp List.mem_cons_self
      rw [hl.1, fetchPageHandle_eq hroom.1] at h
      cases h
      exact ⟨rfl, hroom.2⟩

/-- `insert_record` stays in the bitmap. -/
theorem inRange_insertRecordProbed (hchain : f.ChainExact) (hpos : 0 < f.hdr.numRecordsPerPage)
    (h : f.insertRecordProbed buf = .ok (f', rid, ps)) : InRange f.hdr.numRecordsPerPage ps := by
  rw [insertRecordProbed] at h
  cases hpage : f.createPageHandle with
  | error e =>
    rw [hpage] at h
    cases h
  | ok res =>
    obtain ⟨f₁, p⟩ := res
    obtain ⟨hper, hclear⟩ := createPageHandle_clear hchain hpos hpage
    have hprobes : ps = (nextBitProbed false (f₁.pages p).body f.hdr.numRecordsPerPage (-1)).2 ++
        [(nextBitProbed false (f₁.pages p).body f.hdr.numRecordsPerPage (-1)).1] := by
      rw [hpage] at h
      cases h
      rw [hper]
      rfl
    have hslot := (firstBit_false hclear).1
    have hfst : (nextBitProbed false (f₁.pages p).body f.hdr.numRecordsPerPage (-1)).1 =
        firstBit false (f₁.pages p).body f.hdr.numRecordsPerPage := nextBitProbed_fst (.inr le_rfl)
    rw [hprobes, inRange_append, hfst]
    refine ⟨nextBitProbed_inRange.mpr le_rfl, fun q hq => ?_⟩
    obtain rfl := List.mem_singleton.mp hq
    omega

/-- The positions are in range if and only if all records are on the last page. -/
theorem probes_in_range_iff (f : RmFile) (hpos : 0 < f.hdr.numRecordsPerPage) :
    f.ProbesInRange ↔ ∀ rid, f.Live rid → rid.pageNo + 1 = f.hdr.numPages := by
  constructor
  · intro h
    obtain ⟨s, ps, n, rids, ps', pool', hinit, hvisit⟩ := exists_complete_scan f 0
    exact (inRange_scan_iff hinit hvisit).mp (h.1 0 _ s ps n rids ps' pool' hinit hvisit)
  · intro h
    refine ⟨fun fd pool s ps n rids ps' pool' hinit hvisit => (inRange_scan_iff hinit hvisit).mpr h,
      ?_⟩
    exact fun hchain buf f' rid ps hrun => inRange_insertRecordProbed hchain hpos hrun

/-- The records of `twoPages` are on its last page. -/
theorem probes_in_range_twoPages : twoPages.ProbesInRange := by
  refine (probes_in_range_iff twoPages (by decide)).mpr fun rid hrid => ?_
  obtain ⟨⟨hpage, -⟩, hset⟩ := hrid
  have hpages : twoPages.hdr.numPages = 3 := rfl
  have hsecond : rid.pageNo = 2 := by
    by_contra hne
    have hclear : twoPages.pages rid.pageNo = { body := fun _ => 0 } := by simp [twoPages, hne]
    simp [hclear, isSet] at hset
  rw [hsecond, hpages]
  rfl

/-- A file with eight records, the first seven of which fill its first page. -/
def eightRecords : RmFile where
  hdr := ⟨512, 3, 7, 2, 1⟩
  pages pageNo :=
    if pageNo = 1 then
      { nextFreePageNo := -1, numRecords := 7, body := fun i => if i = 0 then 0xfe else 0 }
    else { nextFreePageNo := -1, numRecords := 1, body := fun i => if i = 0 then 0x80 else 0 }
  fd2pageno := 3

/-- The scan of eight records goes on to the second page. -/
theorem not_probes_in_range : ¬ ∀ f : RmFile, f.hdr.WellFormed → f.ProbesInRange := by
  intro hall
  have hrange := hall eightRecords ⟨by decide, by decide, by decide⟩
  obtain ⟨s, ps, n, rids, ps', pool', hinit, hvisit⟩ := exists_complete_scan eightRecords 0
  have hlast := (inRange_scan_iff hinit hvisit).mp (hrange.1 0 _ s ps n rids ps' pool' hinit hvisit)
  have hlive : eightRecords.Live ⟨1, 0⟩ :=
    ⟨⟨⟨by decide, by decide⟩, by decide, by decide⟩, by decide⟩
  exact absurd (hlast ⟨1, 0⟩ hlive) (by decide)

end RmFile

end Rmdb
