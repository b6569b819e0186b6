import Mathlib.Data.List.Nodup
import Rmdb.Lib.Run
import Rmdb.Storage.BufferPool

/-!
# Every frame of the pool is free, evictable or pinned

`page_table_`, `free_list_`, `LRUlist_`, `LRUhash_` and the pin counts of the frames agree after
every sequence of public operations.  `Loads` says what bringing a page into the pool does, for both
`fetch_page` and `new_page`; the invariant is `Partition`, and `FramesClassified` reads it back as
the three classes of frames.
-/

namespace Rmdb

namespace BufferPool

variable {s s' v : BufferPool} {p q : PageId} {f g : FrameId} {data : Block} {lost : Set FrameId}

/-! ## What the operations do -/

/-- The disk after the page in frame `f` has left the pool. -/
def evicted (s : BufferPool) (f : FrameId) : PageId → Block :=
  if (s.pages f).isDirty then Function.update s.disk.blocks (s.pages f).id (s.pages f).data
  else s.disk.blocks

/-- `s'` is `s` with page `p`, holding `data`, brought into the victim frame `f` and pinned once. -/
structure Loads (s : BufferPool) (f : FrameId) (p : PageId) (data : Block) (s' : BufferPool) :
    Prop where
  victim : ∃ v, s.findVictimPage = some (f, v) ∧ s'.freeList = v.freeList ∧
    s'.replacer = v.replacer.pin f
  poolSize : s'.poolSize = s.poolSize
  pages : s'.pages = Function.update s.pages f { id := p, data := data, pinCount := 1 }
  lookup : ∀ q, s'.pageTable.lookup q =
    if q = p then some f else if q = (s.pages f).id then none else s.pageTable.lookup q
  blocks : s'.disk.blocks = s.evicted f

theorem lookup_insert_erase (t : AList fun _ : PageId => FrameId) (p q r : PageId) (f : FrameId) :
    ((t.erase r).insert p f).lookup q =
      if q = p then some f else if q = r then none else t.lookup q := by
  by_cases hp : q = p
  · subst hp
    simp
  · rw [AList.lookup_insert_ne hp, if_neg hp]
    by_cases hr : q = r
    · subst hr
      simp
    · rw [AList.lookup_erase_ne hr, if_neg hr]

theorem findVictimPage_eq (h : s.findVictimPage = some (f, v)) :
    ∃ free rep, v = { s with freeList := free, replacer := rep } := by
  unfold findVictimPage at h
  split at h
  · cases h
    exact ⟨_, _, rfl⟩
  · obtain ⟨w, -, hw⟩ := Option.map_eq_some_iff.1 h
    cases hw
    exact ⟨_, _, rfl⟩

theorem fetchPage_hit (h : s.pageTable.lookup p = some f) :
    s.fetchPage p = ({ s with replacer := s.replacer.pin f }.setFrame f
      { s.pages f with pinCount := (s.pages f).pinCount + 1 }, some f) := by
  simp only [fetchPage, h]

theorem fetchPage_none (h : s.pageTable.lookup p = none) (hv : s.findVictimPage = none) :
    s.fetchPage p = (s, none) := by
  simp only [fetchPage, h, hv]

theorem fetchPage_miss (h : s.pageTable.lookup p = none) (hv : s.findVictimPage = some (f, v)) :
    (s.fetchPage p).2 = some f ∧ Loads s f p (s.evicted f p) (s.fetchPage p).1 := by
  obtain ⟨free, rep, rfl⟩ := findVictimPage_eq hv
  refine ⟨by simp only [fetchPage, h, hv], ?_⟩
  simp only [fetchPage, h, hv]
  -- a dirty victim goes through `update_page`, which already enters `p` into the table
  by_cases hd : (s.pages f).isDirty
  · refine ⟨⟨_, hv, ?_, ?_⟩, ?_, ?_, fun q => ?_, ?_⟩
    · simp [hd, updatePage, writePage, setFrame]
    · simp [hd, updatePage, writePage, setFrame]
    · simp [hd, updatePage, writePage, setFrame]
    · simp [hd, updatePage, writePage, setFrame, evicted]
    · simp only [hd, if_true, updatePage, writePage, setFrame, Function.update_self]
      rw [lookup_insert_erase, lookup_insert_erase]
      split <;> simp_all
    · simp [hd, updatePage, writePage, setFrame, evicted]
  · refine ⟨⟨_, hv, ?_, ?_⟩, ?_, ?_, fun q => ?_, ?_⟩ <;>
      simp [hd, setFrame, evicted, lookup_insert_erase]

theorem newPage_none (fd : ℤ) (hv : s.findVictimPage = none) : s.newPage fd = (s, none) := by
  simp only [newPage, hv]

theorem newPage_some (fd : ℤ) (hv : s.findVictimPage = some (f, v)) :
    (s.newPage fd).2 = some f ∧ Loads s f (s.newPageId fd) Block.zero (s.newPage fd).1 := by
  obtain ⟨free, rep, rfl⟩ := findVictimPage_eq hv
  refine ⟨by simp only [newPage, hv], ?_⟩
  simp only [newPage, hv]
  have hlookup (q : PageId) := lookup_insert_erase s.pageTable (s.newPageId fd) q (s.pages f).id f
  by_cases hd : (s.pages f).isDirty
  · simp only [hd, if_true]
    refine ⟨⟨_, hv, rfl, rfl⟩, rfl, rfl, hlookup, ?_⟩
    simp [hd, writePage, allocatePage, setFrame, evicted]
  · simp only [hd]
    refine ⟨⟨_, hv, rfl, rfl⟩, rfl, rfl, hlookup, ?_⟩
    simp [hd, allocatePage, setFrame, evicted]

/-! ## The invariant -/

/-- The page that frame `f` names is mapped to `f`. -/
def InTable (s : BufferPool) (f : FrameId) : Prop :=
  s.pageTable.lookup (s.pages f).id = some f

/-- The containers of the pool agree with one another, and the frames of `lost` are in none of
them. -/
structure Partition (s : BufferPool) (lost : Set FrameId := ∅) : Prop where
  lost_out : ∀ {f}, f ∈ lost → ¬ s.InTable f
  table : ∀ {p f}, s.pageTable.lookup p = some f →
    f < s.poolSize ∧ (s.pages f).id = p ∧ p.pageNo ≠ INVALID_PAGE_ID
  unmapped_id : ∀ {f}, f < s.poolSize → f ∉ lost → ¬ s.InTable f →
    (s.pages f).id.pageNo = INVALID_PAGE_ID
  free_nodup : s.freeList.Nodup
  mem_free : ∀ {f}, f ∈ s.freeList ↔ f < s.poolSize ∧ f ∉ lost ∧ ¬ s.InTable f
  lru_nodup : s.replacer.lruList.Nodup
  mem_lru : ∀ {f}, f ∈ s.replacer.lruList ↔ s.InTable f ∧ (s.pages f).pinCount = 0
  mem_hash : ∀ {f}, f ∈ s.replacer.lruHash ↔ f ∈ s.replacer.lruList
  maxSize : s.replacer.maxSize = s.poolSize

namespace Partition

theorem inTable_of_lookup (hs : Partition s lost) (h : s.pageTable.lookup p = some f) :
    s.InTable f := by
  rw [InTable, (hs.table h).2.1]
  exact h

theorem lt_of_inTable (hs : Partition s lost) (h : s.InTable f) : f < s.poolSize :=
  (hs.table h).1

theorem lt_of_mem_lru (hs : Partition s lost) (h : f ∈ s.replacer.lruList) : f < s.poolSize :=
  hs.lt_of_inTable (hs.mem_lru.1 h).1

theorem inTable_iff (hs : Partition s lost) : s.InTable f ↔ ∃ p, s.pageTable.lookup p = some f :=
  ⟨fun h => ⟨_, h⟩, fun ⟨_, h⟩ => hs.inTable_of_lookup h⟩

/-- Two frames never hold pages of one id, unless both are free. -/
theorem id_ne (hs : Partition s lost) (hf : f < s.poolSize) (hkept : f ∉ lost) (hg : s.InTable g)
    (hne : g ≠ f) :
    (s.pages g).id ≠ (s.pages f).id := by
  intro heq
  by_cases h : s.InTable f
  · rw [InTable, ← heq, hg] at h
    exact hne (Option.some.inj h)
  · exact (hs.table hg).2.2 (heq ▸ hs.unmapped_id hf hkept h)

/-- The replacer's `pin` takes the frame out of list and hash. -/
theorem pin_lruList (hs : Partition s lost) (f : FrameId) :
    (s.replacer.pin f).lruList = s.replacer.lruList.erase f := by
  unfold LRUReplacer.pin
  split
  · rfl
  · rename_i h
    exact (List.erase_of_not_mem (mt hs.mem_hash.2 h)).symm

theorem pin_lruHash (r : LRUReplacer) (f : FrameId) : (r.pin f).lruHash = r.lruHash.erase f := by
  unfold LRUReplacer.pin
  split
  · rfl
  · rename_i h
    exact (Finset.erase_eq_of_notMem h).symm

theorem pin_maxSize (r : LRUReplacer) (f : FrameId) : (r.pin f).maxSize = r.maxSize := by
  unfold LRUReplacer.pin
  split <;> rfl

/-- What the victim is, and that it leaves its list. -/
theorem victim (hs : Partition s lost) (hv : s.findVictimPage = some (f, v)) :
    f < s.poolSize ∧ (s.InTable f → (s.pages f).pinCount = 0) ∧
      v.freeList = s.freeList.erase f ∧ (v.replacer.pin f).lruList = s.replacer.lruList.erase f ∧
      (v.replacer.pin f).lruHash = s.replacer.lruHash.erase f ∧
      (v.replacer.pin f).maxSize = s.poolSize := by
  rw [pin_maxSize]
  unfold findVictimPage at hv
  split at hv
  · rename_i g rest hfree
    cases hv
    have hf := hs.mem_free.1 (hfree ▸ List.mem_cons_self)
    refine ⟨hf.1, fun h => absurd h hf.2.2, by simp [hfree], hs.pin_lruList f, pin_lruHash _ f,
      hs.maxSize⟩
  · rename_i hfree
    obtain ⟨w, hw, hweq⟩ := Option.map_eq_some_iff.1 hv
    cases hweq
    unfold LRUReplacer.victim at hw
    split at hw
    · cases hw
    · rename_i g rest hlru
      cases hw
      have hf := hs.mem_lru.1 (hlru ▸ List.mem_cons_self)
      have hpin : g ∉ s.replacer.lruHash.erase g := Finset.notMem_erase g _
      simp only [LRUReplacer.pin, if_neg hpin]
      exact ⟨hs.lt_of_inTable hf.1, fun _ => hf.2, by simp [hfree], by simp [hlru],
        trivial, hs.maxSize⟩

/-- A lost frame is no victim. -/
theorem victim_kept (hs : Partition s lost) (hv : s.findVictimPage = some (f, v)) : f ∉ lost := by
  unfold findVictimPage at hv
  split at hv
  · next hfree =>
    cases hv
    exact (hs.mem_free.1 (hfree ▸ List.mem_cons_self)).2.1
  · obtain ⟨w, hw, hweq⟩ := Option.map_eq_some_iff.1 hv
    cases hweq
    unfold LRUReplacer.victim at hw
    split at hw
    · cases hw
    · next hlru =>
      cases hw
      exact fun hlost => hs.lost_out hlost (hs.mem_lru.1 (hlru ▸ List.mem_cons_self)).1

/-- The replacer does not know the victim any more. -/
theorem victim_unpinned (hs : Partition s lost) (hv : s.findVictimPage = some (f, v)) :
    f ∉ v.replacer.lruHash := by
  unfold findVictimPage at hv
  split at hv
  · next hfree =>
    cases hv
    have hf := hs.mem_free.1 (hfree ▸ List.mem_cons_self)
    exact fun hhash => hf.2.2 (hs.mem_lru.1 (hs.mem_hash.1 hhash)).1
  · obtain ⟨w, hw, hweq⟩ := Option.map_eq_some_iff.1 hv
    cases hweq
    unfold LRUReplacer.victim at hw
    split at hw
    · cases hw
    · cases hw
      exact Finset.notMem_erase _ _

theorem findVictimPage_eq_none (hs : Partition s) :
    s.findVictimPage = none ↔ ∀ f < s.poolSize, s.InTable f ∧ 0 < (s.pages f).pinCount := by
  have hnone : s.findVictimPage = none ↔ s.freeList = [] ∧ s.replacer.lruList = [] := by
    unfold findVictimPage LRUReplacer.victim
    rcases s.freeList with _ | ⟨f, rest⟩ <;> rcases s.replacer.lruList with _ | ⟨g, rest'⟩ <;> simp
  rw [hnone, List.eq_nil_iff_forall_not_mem, List.eq_nil_iff_forall_not_mem]
  constructor
  · rintro ⟨hfree, hlru⟩ f hf
    have hin : s.InTable f := by
      by_contra h
      exact hfree f (hs.mem_free.2 ⟨hf, Set.notMem_empty f, h⟩)
    exact ⟨hin, Nat.pos_of_ne_zero fun h => hlru f (hs.mem_lru.2 ⟨hin, h⟩)⟩
  · intro h
    refine ⟨fun f hf => ?_, fun f hf => ?_⟩
    · exact (hs.mem_free.1 hf).2.2 (h f (hs.mem_free.1 hf).1).1
    · exact (h f (hs.lt_of_mem_lru hf)).2.ne' (hs.mem_lru.1 hf).2

end Partition

/-! ## Every operation keeps the invariant -/

theorem partition_init (n : ℕ) (junkFd : FrameId → ℤ) (disk : DiskManager) :
    Partition (init n junkFd disk) where
  lost_out h := absurd h (Set.notMem_empty _)
  table h := by simp [init] at h
  unmapped_id _ _ _ := rfl
  free_nodup := List.nodup_range
  mem_free := by simp [init, InTable]
  lru_nodup := List.nodup_nil
  mem_lru := by simp [init, InTable]
  mem_hash := by simp [init]
  maxSize := rfl

/-- As long as the frames keep their ids and the table and the free list stay, only the replacer has
to be looked at. -/
theorem Partition.of_ids (hs : Partition s lost) (hsize : s'.poolSize = s.poolSize)
    (htable : s'.pageTable = s.pageTable) (hfree : s'.freeList = s.freeList)
    (hid : ∀ f, (s'.pages f).id = (s.pages f).id) (hnodup : s'.replacer.lruList.Nodup)
    (hlru : ∀ f, f ∈ s'.replacer.lruList ↔ s.InTable f ∧ (s'.pages f).pinCount = 0)
    (hhash : ∀ f, f ∈ s'.replacer.lruHash ↔ f ∈ s'.replacer.lruList)
    (hmax : s'.replacer.maxSize = s.poolSize) : Partition s' lost := by
  have hin (f : FrameId) : s'.InTable f ↔ s.InTable f := by
    rw [InTable, InTable, htable, hid f]
  refine ⟨fun hlost => mt (hin _).1 (hs.lost_out hlost), ?_, ?_, hfree ▸ hs.free_nodup, ?_, hnodup,
    ?_, hhash _, hsize ▸ hmax⟩
  · intro p f h
    rw [hsize, hid f]
    exact hs.table (htable ▸ h)
  · intro f hf hkept h
    rw [hid f]
    exact hs.unmapped_id (hsize ▸ hf) hkept (mt (hin f).2 h)
  · intro f
    rw [hfree, hsize, hin, hs.mem_free]
  · intro f
    rw [hlru, hin]

/-- The invariant only reads the ids and the pin counts of the frames. -/
theorem Partition.congr (hs : Partition s lost) (hsize : s'.poolSize = s.poolSize)
    (htable : s'.pageTable = s.pageTable) (hfree : s'.freeList = s.freeList)
    (hrep : s'.replacer = s.replacer)
    (hpages : ∀ f, (s'.pages f).id = (s.pages f).id ∧
      (s'.pages f).pinCount = (s.pages f).pinCount) :
    Partition s' lost := by
  refine hs.of_ids hsize htable hfree (fun f => (hpages f).1) ?_ (fun f => ?_) (fun f => ?_) ?_
  · exact hrep ▸ hs.lru_nodup
  · rw [hrep, (hpages f).2, hs.mem_lru]
  · rw [hrep, hs.mem_hash]
  · rw [hrep, hs.maxSize]

namespace Loads

theorem pages_self (h : Loads s f p data s') :
    s'.pages f = { id := p, data := data, pinCount := 1 } := by
  rw [h.pages, Function.update_self]

theorem pages_of_ne (h : Loads s f p data s') (hg : g ≠ f) : s'.pages g = s.pages g := by
  rw [h.pages, Function.update_of_ne hg]

theorem lookup_self (h : Loads s f p data s') : s'.pageTable.lookup p = some f := by
  rw [h.lookup, if_pos rfl]

/-- The pages that are mapped afterwards. -/
theorem lookup_eq_some (h : Loads s f p data s') (hs : Partition s lost)
    (hl : s'.pageTable.lookup q = some g) :
    q = p ∧ g = f ∨ q ≠ p ∧ q ≠ (s.pages f).id ∧ g ≠ f ∧ s.pageTable.lookup q = some g := by
  rw [h.lookup] at hl
  split at hl
  · rename_i hq
    exact .inl ⟨hq, (Option.some.inj hl).symm⟩
  · rename_i hp
    split at hl
    · cases hl
    · rename_i hq
      refine .inr ⟨hp, hq, ?_, hl⟩
      rintro rfl
      exact hq (hs.table hl).2.1.symm

/-- The pages that are not mapped afterwards. -/
theorem lookup_eq_none (h : Loads s f p data s') (hs : Partition s lost) (hf : f < s.poolSize)
    (hl : s'.pageTable.lookup q = none) :
    s.pageTable.lookup q = none ∨ s.InTable f ∧ q = (s.pages f).id := by
  obtain ⟨v, hv, -, -⟩ := h.victim
  rw [h.lookup] at hl
  split at hl
  · cases hl
  · split at hl
    · rename_i hq
      by_cases hin : s.InTable f
      · exact .inr ⟨hin, hq⟩
      · left
        by_contra hne
        obtain ⟨g, hg⟩ := Option.ne_none_iff_exists'.1 hne
        exact (hs.table hg).2.2 (hq ▸ hs.unmapped_id hf (hs.victim_kept hv) hin)
    · exact .inl hl

/-- A page that stays mapped: it is not the one that was brought in, nor in the victim frame. -/
theorem lookup_of_ne (h : Loads s f p data s') (hs : Partition s lost) (hf : f < s.poolSize)
    (hnew : s.pageTable.lookup p = none) (hl : s.pageTable.lookup q = some g) (hg : g ≠ f) :
    s'.pageTable.lookup q = some g := by
  have hp : q ≠ p := by
    rintro rfl
    rw [hnew] at hl
    cases hl
  obtain ⟨v, hv, -, -⟩ := h.victim
  have hid := (hs.table hl).2.1
  have hne := hs.id_ne hf (hs.victim_kept hv) (hs.inTable_of_lookup hl) hg
  rw [hid] at hne
  rw [h.lookup, if_neg hp, if_neg hne, hl]

theorem inTable_self (h : Loads s f p data s') : s'.InTable f := by
  rw [InTable, h.pages_self]
  exact h.lookup_self

theorem inTable_of_ne (h : Loads s f p data s') (hs : Partition s lost) (hf : f < s.poolSize)
    (hnew : s.pageTable.lookup p = none) (hg : g ≠ f) : s'.InTable g ↔ s.InTable g := by
  rw [InTable, h.pages_of_ne hg]
  constructor
  · intro hl
    rcases h.lookup_eq_some hs hl with ⟨-, hgf⟩ | ⟨-, -, -, hl⟩
    · exact absurd hgf hg
    · exact hl
  · intro hl
    exact h.lookup_of_ne hs hf hnew hl hg

theorem partition (h : Loads s f p data s') (hs : Partition s lost)
    (hp : p.pageNo ≠ INVALID_PAGE_ID) (hnew : s.pageTable.lookup p = none) : Partition s' lost := by
  obtain ⟨v, hv, hfree, hrep⟩ := h.victim
  have hkept := hs.victim_kept hv
  obtain ⟨hf, -, hvfree, hlru, hhash, hmax⟩ := hs.victim hv
  rw [hvfree] at hfree
  rw [← hrep] at hlru hhash hmax
  have hing {g : FrameId} (hg : g ≠ f) := h.inTable_of_ne hs hf hnew hg
  refine ⟨?_, ?_, ?_, ?_, ?_, ?_, ?_, ?_, ?_⟩
  · intro g hlost
    have hg : g ≠ f := fun heq => hkept (heq ▸ hlost)
    exact mt (hing hg).1 (hs.lost_out hlost)
  · intro q g hl
    rw [h.poolSize]
    rcases h.lookup_eq_some hs hl with ⟨rfl, rfl⟩ | ⟨-, -, hg, hl⟩
    · rw [h.pages_self]
      exact ⟨hf, rfl, hp⟩
    · rw [h.pages_of_ne hg]
      exact hs.table hl
  · intro g hg hgkept hnot
    have hne : g ≠ f := by
      rintro rfl
      exact hnot h.inTable_self
    rw [h.pages_of_ne hne]
    exact hs.unmapped_id (h.poolSize ▸ hg) hgkept (mt (hing hne).2 hnot)
  · exact hfree ▸ hs.free_nodup.erase f
  · intro g
    rw [hfree, hs.free_nodup.mem_erase_iff, hs.mem_free, h.poolSize]
    by_cases hg : g = f
    · subst hg
      simp [h.inTable_self]
    · simp [hg, hing hg]
  · exact hlru ▸ hs.lru_nodup.erase f
  · intro g
    rw [hlru, hs.lru_nodup.mem_erase_iff, hs.mem_lru]
    by_cases hg : g = f
    · subst hg
      simp [h.pages_self]
    · simp [hg, hing hg, h.pages_of_ne hg]
  · intro g
    rw [hhash, hlru, Finset.mem_erase, hs.mem_hash, hs.lru_nodup.mem_erase_iff]
  · rw [hmax, h.poolSize]

end Loads

theorem setFrame_id {page : Frame} (h : page.id = (s.pages f).id) (g : FrameId) :
    ((s.setFrame f page).pages g).id = (s.pages g).id := by
  by_cases hg : g = f
  · subst hg
    simpa [setFrame] using h
  · simp [setFrame, hg]

theorem setFrame_pinCount {page : Frame} (h : page.pinCount = (s.pages f).pinCount) (g : FrameId) :
    ((s.setFrame f page).pages g).pinCount = (s.pages g).pinCount := by
  by_cases hg : g = f
  · subst hg
    simpa [setFrame] using h
  · simp [setFrame, hg]

theorem Partition.hit (hs : Partition s lost) (f : FrameId) :
    Partition ({ s with replacer := s.replacer.pin f }.setFrame f
      { s.pages f with pinCount := (s.pages f).pinCount + 1 }) lost := by
  refine hs.of_ids rfl rfl rfl (fun g => setFrame_id (by rfl) g) ?_ (fun g => ?_) (fun g => ?_) ?_
  · exact hs.pin_lruList f ▸ hs.lru_nodup.erase f
  · change g ∈ (s.replacer.pin f).lruList ↔ _
    rw [hs.pin_lruList, hs.lru_nodup.mem_erase_iff, hs.mem_lru]
    by_cases hg : g = f
    · subst hg
      simp [setFrame]
    · simp [setFrame, hg]
  · change g ∈ (s.replacer.pin f).lruHash ↔ g ∈ (s.replacer.pin f).lruList
    rw [hs.pin_lruList, Partition.pin_lruHash, Finset.mem_erase, hs.mem_hash,
      hs.lru_nodup.mem_erase_iff]
  · exact (Partition.pin_maxSize _ f).trans hs.maxSize

/-- The replacer never refuses a frame for want of room: its list holds frames of the pool. -/
theorem Partition.lru_length_lt (hs : Partition s lost) (hf : f < s.poolSize)
    (h : f ∉ s.replacer.lruList) : s.replacer.lruList.length < s.poolSize := by
  have hnodup : (f :: s.replacer.lruList).Nodup := List.nodup_cons.2 ⟨h, hs.lru_nodup⟩
  have hsub : f :: s.replacer.lruList ⊆ List.range s.poolSize := by
    intro g hg
    rcases List.mem_cons.1 hg with rfl | hg
    · exact List.mem_range.2 hf
    · exact List.mem_range.2 (hs.lt_of_mem_lru hg)
  have hlen := (hnodup.subperm hsub).length_le
  rwa [List.length_cons, List.length_range] at hlen

/-- A frame whose last pin goes joins the list at its end. -/
theorem Partition.unpin_eq (hs : Partition s lost) (hl : s.InTable f)
    (hpin : 0 < (s.pages f).pinCount) :
    s.replacer.unpin f = { s.replacer with
      lruList := s.replacer.lruList ++ [f], lruHash := insert f s.replacer.lruHash } := by
  have hlru : f ∉ s.replacer.lruList := fun h => hpin.ne' (hs.mem_lru.1 h).2
  have hlen := hs.lru_length_lt (hs.lt_of_inTable hl) hlru
  rw [LRUReplacer.unpin, if_neg (mt hs.mem_hash.1 hlru), if_neg]
  rw [hs.maxSize]
  omega

/-- `unpin_page` of a pinned page, by what remains of its pins. -/
theorem unpinPage_eq (isDirty : Bool) (hl : s.pageTable.lookup p = some f)
    (hpin : 0 < (s.pages f).pinCount) :
    s.unpinPage p isDirty =
      ({ s with replacer := if (s.pages f).pinCount = 1 then s.replacer.unpin f else s.replacer
        }.setFrame f { s.pages f with
          pinCount := (s.pages f).pinCount - 1
          isDirty := isDirty || (s.pages f).isDirty }, true) := by
  have hne : ¬ (s.pages f).pinCount ≤ 0 := by omega
  have hone : (s.pages f).pinCount - 1 = 0 ↔ (s.pages f).pinCount = 1 := by omega
  simp only [unpinPage, hl, if_neg hne, hone]
  cases isDirty <;> split <;> simp

theorem unpinPage_idle (isDirty : Bool)
    (h : ∀ f, s.pageTable.lookup p = some f → (s.pages f).pinCount = 0) :
    s.unpinPage p isDirty = (s, false) := by
  unfold unpinPage
  split
  · rfl
  · rename_i f hl
    simp [h f hl]

theorem Partition.unpin (hs : Partition s lost) (hl : s.InTable f) (hpin : 0 < (s.pages f).pinCount)
    (d : Bool) : Partition
      ({ s with replacer := if (s.pages f).pinCount = 1 then s.replacer.unpin f else s.replacer
        }.setFrame f { s.pages f with pinCount := (s.pages f).pinCount - 1, isDirty := d })
          lost := by
  have hlru : f ∉ s.replacer.lruList := fun h => hpin.ne' (hs.mem_lru.1 h).2
  by_cases hone : (s.pages f).pinCount = 1
  · rw [if_pos hone, hs.unpin_eq hl hpin]
    refine hs.of_ids rfl rfl rfl (fun g => setFrame_id (by rfl) g) ?_ (fun g => ?_) (fun g => ?_) ?_
    · exact List.nodup_append.2 ⟨hs.lru_nodup, List.nodup_singleton f, by grind⟩
    · by_cases hg : g = f
      · subst hg
        simp [setFrame, hone, hl]
      · simp [setFrame, hg, hs.mem_lru]
    · simp [setFrame, hs.mem_hash, or_comm]
    · exact hs.maxSize
  · rw [if_neg hone]
    refine hs.of_ids rfl rfl rfl (fun g => setFrame_id (by rfl) g) hs.lru_nodup (fun g => ?_)
      (fun g => hs.mem_hash) hs.maxSize
    by_cases hg : g = f
    · subst hg
      have hne : (s.pages g).pinCount - 1 ≠ 0 := by omega
      simp [setFrame, hne, hlru]
    · simp [setFrame, hg, hs.mem_lru]

theorem release_lookup (s : BufferPool) (p q : PageId) (f : FrameId) (pins : ℕ) :
    (s.release p f pins).pageTable.lookup q = if q = p then none else s.pageTable.lookup q := by
  change (s.pageTable.erase p).lookup q = _
  by_cases hq : q = p
  · subst hq
    simp
  · rw [AList.lookup_erase_ne hq, if_neg hq]

theorem release_inTable_of_ne (hl : s.pageTable.lookup p = some f) (pins : ℕ) (hg : g ≠ f) :
    (s.release p f pins).InTable g ↔ s.InTable g := by
  have hpages : (s.release p f pins).pages g = s.pages g := Function.update_of_ne hg _ _
  rw [InTable, hpages, release_lookup]
  split
  · rename_i hgp
    rw [InTable, hgp, hl]
    simp [hg.symm]
  · rfl

theorem Partition.release (hs : Partition s lost) (hl : s.pageTable.lookup p = some f) (pins : ℕ) :
    Partition (s.release p f pins) lost := by
  have hf := hs.inTable_of_lookup hl
  have hid := (hs.table hl).2.1
  have hinf : ¬ (s.release p f pins).InTable f := by
    have hpages : ((s.release p f pins).pages f).id = ⟨INVALID_PAGE_ID, INVALID_PAGE_ID⟩ := by
      simp [BufferPool.release, setFrame]
    rw [InTable, hpages, release_lookup]
    split
    · simp
    · exact fun h => (hs.table h).2.2 rfl
  have hing {g : FrameId} (hg : g ≠ f) := release_inTable_of_ne hl pins hg
  have hlru : (s.release p f pins).replacer.lruList = s.replacer.lruList.erase f := hs.pin_lruList f
  have hkept : f ∉ lost := fun hlost => hs.lost_out hlost hf
  refine ⟨?_, ?_, ?_, ?_, ?_, ?_, ?_, ?_, ?_⟩
  · intro g hlost
    have hg : g ≠ f := fun heq => hkept (heq ▸ hlost)
    exact mt (hing hg).1 (hs.lost_out hlost)
  · intro q g h
    rw [release_lookup] at h
    split at h
    · cases h
    · rename_i hqp
      have hg : g ≠ f := by
        rintro rfl
        exact hqp ((hs.table h).2.1.symm.trans hid)
      simp only [BufferPool.release, setFrame, Function.update_of_ne hg]
      exact hs.table h
  · intro g hg hgkept h
    by_cases hgf : g = f
    · subst hgf
      simp [BufferPool.release, setFrame]
    · simp only [BufferPool.release, setFrame, Function.update_of_ne hgf]
      exact hs.unmapped_id hg hgkept (mt (hing hgf).2 h)
  · refine List.nodup_append.2 ⟨hs.free_nodup, List.nodup_singleton f, ?_⟩
    have hfree : f ∉ s.freeList := fun h => (hs.mem_free.1 h).2.2 hf
    intro a ha b hb hab
    rw [List.mem_singleton.1 hb] at hab
    exact hfree (hab ▸ ha)
  · intro g
    change g ∈ s.freeList ++ [f] ↔ g < s.poolSize ∧ g ∉ lost ∧ _
    rw [List.mem_append, List.mem_singleton, hs.mem_free]
    by_cases hg : g = f
    · subst hg
      simp [hinf, hkept, hs.lt_of_inTable hf]
    · simp [hg, hing hg]
  · exact hlru ▸ hs.lru_nodup.erase f
  · intro g
    rw [hlru, hs.lru_nodup.mem_erase_iff, hs.mem_lru]
    by_cases hg : g = f
    · subst hg
      simp [hinf]
    · rw [hing hg]
      simp [BufferPool.release, setFrame, hg]
  · intro g
    rw [hlru, hs.lru_nodup.mem_erase_iff]
    change g ∈ (s.replacer.pin f).lruHash ↔ _
    rw [Partition.pin_lruHash, Finset.mem_erase, hs.mem_hash]
  · exact (Partition.pin_maxSize _ f).trans hs.maxSize

theorem Partition.writeBack (hs : Partition s lost) (p : PageId) (f : FrameId) :
    Partition (s.writeBack p f) lost :=
  hs.congr rfl rfl rfl rfl fun g => ⟨setFrame_id (by rfl) g, setFrame_pinCount (by rfl) g⟩

theorem Partition.writePage (hs : Partition s lost) (p : PageId) (data : Block) :
    Partition (s.writePage p data) lost :=
  hs.congr rfl rfl rfl rfl fun _ => ⟨rfl, rfl⟩

end BufferPool

/-! ## The public operations -/

/-- A call of a public operation of `BufferPoolManager`. -/
inductive PoolOp
  | fetchPage (p : PageId)
  | unpinPage (p : PageId) (isDirty : Bool)
  | flushPage (p : PageId)
  | newPage (fd : ℤ)
  | deletePage (p : PageId)
  | flushAllPages (fd : ℤ)
  | flushAllDirtyPages
  | removeAllPages (fd : ℤ)
  | markDirty (f : FrameId)
deriving DecidableEq

namespace PoolOp

open BufferPool

variable {s : BufferPool}

/-- The pool after the call. -/
def apply (s : BufferPool) : PoolOp → BufferPool
  | .fetchPage p => (s.fetchPage p).1
  | .unpinPage p isDirty => (s.unpinPage p isDirty).1
  | .flushPage p => (s.flushPage p).1
  | .newPage fd => (s.newPage fd).1
  | .deletePage p => (s.deletePage p).1
  | .flushAllPages fd => s.flushAllPages fd
  | .flushAllDirtyPages => s.flushAllDirtyPages
  | .removeAllPages fd => s.removeAllPages fd
  | .markDirty f => s.markDirty f

/-- The number that `allocate_page` hands out is fresh and the pages asked for can be read:
there is no page `INVALID_PAGE_ID` on disk. -/
def Legal (s : BufferPool) : PoolOp → Prop
  | .fetchPage p => p.pageNo ≠ INVALID_PAGE_ID
  | .newPage fd =>
      (s.newPageId fd).pageNo ≠ INVALID_PAGE_ID ∧ s.pageTable.lookup (s.newPageId fd) = none
  | _ => True

end PoolOp

namespace BufferPool

variable {s : BufferPool} {op : PoolOp} {lost : Set FrameId}

/-- What an operation does to the LRU list: it loses frames, or it gains at its end the one frame
whose pin count the operation took to zero. -/
def LruStep (s s' : BufferPool) : Prop :=
  s'.replacer.lruList.Sublist s.replacer.lruList ∨
    ∃ f, s'.replacer.lruList = s.replacer.lruList ++ [f] ∧ 0 < (s.pages f).pinCount ∧
      (s'.pages f).pinCount = 0

theorem Loads.lruStep {s' : BufferPool} {f : FrameId} {p : PageId} {data : Block}
    (h : Loads s f p data s') (hs : Partition s lost) : LruStep s s' := by
  obtain ⟨v, hv, -, hrep⟩ := h.victim
  left
  rw [hrep, (hs.victim hv).2.2.2.1]
  exact List.erase_sublist

theorem partition_fetchPage (hs : Partition s lost) {p : PageId} (hp : p.pageNo ≠ INVALID_PAGE_ID) :
    Partition (s.fetchPage p).1 lost ∧ LruStep s (s.fetchPage p).1 := by
  cases hl : s.pageTable.lookup p with
  | some f =>
    rw [fetchPage_hit hl]
    refine ⟨hs.hit f, .inl ?_⟩
    change (s.replacer.pin f).lruList.Sublist _
    rw [hs.pin_lruList]
    exact List.erase_sublist
  | none =>
    cases hv : s.findVictimPage with
    | none =>
      rw [fetchPage_none hl hv]
      exact ⟨hs, .inl (List.Sublist.refl _)⟩
    | some w =>
      have hload := (fetchPage_miss hl hv).2
      exact ⟨hload.partition hs hp hl, hload.lruStep hs⟩

theorem partition_newPage (hs : Partition s lost) {fd : ℤ} (hlegal : PoolOp.Legal s (.newPage fd)) :
    Partition (s.newPage fd).1 lost ∧ LruStep s (s.newPage fd).1 := by
  cases hv : s.findVictimPage with
  | none =>
    rw [newPage_none fd hv]
    exact ⟨hs, .inl (List.Sublist.refl _)⟩
  | some w =>
    have hload := (newPage_some fd hv).2
    exact ⟨hload.partition hs hlegal.1 hlegal.2, hload.lruStep hs⟩

theorem partition_unpinPage (hs : Partition s lost) (p : PageId) (d : Bool) :
    Partition (s.unpinPage p d).1 lost ∧ LruStep s (s.unpinPage p d).1 := by
  by_cases h : ∀ f, s.pageTable.lookup p = some f → (s.pages f).pinCount = 0
  · rw [unpinPage_idle d h]
    exact ⟨hs, .inl (List.Sublist.refl _)⟩
  · push Not at h
    obtain ⟨f, hl, hne⟩ := h
    have hpin : 0 < (s.pages f).pinCount := Nat.pos_of_ne_zero hne
    have hin := hs.inTable_of_lookup hl
    rw [unpinPage_eq d hl hpin]
    refine ⟨hs.unpin hin hpin _, ?_⟩
    by_cases hone : (s.pages f).pinCount = 1
    · refine .inr ⟨f, ?_, hpin, ?_⟩
      · simp only [if_pos hone, hs.unpin_eq hin hpin, setFrame]
      · simp [setFrame, hone]
    · simp only [if_neg hone]
      exact .inl (List.Sublist.refl _)

theorem Partition.release_lru (hs : Partition s lost) (p : PageId) (f : FrameId) (pins : ℕ) :
    (s.release p f pins).replacer.lruList.Sublist s.replacer.lruList := by
  change (s.replacer.pin f).lruList.Sublist _
  rw [hs.pin_lruList]
  exact List.erase_sublist

theorem partition_deletePage (hs : Partition s lost) (p : PageId) :
    Partition (s.deletePage p).1 lost ∧ LruStep s (s.deletePage p).1 := by
  unfold deletePage
  split
  · exact ⟨hs, .inl (List.Sublist.refl _)⟩
  · rename_i f hl
    split
    · exact ⟨hs, .inl (List.Sublist.refl _)⟩
    · dsimp only
      split
      · have hw := hs.writePage p (s.pages f).data
        exact ⟨hw.release hl _, .inl (hw.release_lru p f _)⟩
      · exact ⟨hs.release hl _, .inl (hs.release_lru p f _)⟩

/-- A loop over table entries each of whose rounds writes a page back or does nothing. -/
theorem partition_foldl_writeBack (hs : Partition s lost) (C : BufferPool → PageId → FrameId → Prop)
    [∀ s p f, Decidable (C s p f)] (entries : List (Sigma fun _ : PageId => FrameId)) :
    Partition (entries.foldl (fun s e => if C s e.1 e.2 then s.writeBack e.1 e.2 else s) s) lost ∧
      (entries.foldl (fun s e => if C s e.1 e.2 then s.writeBack e.1 e.2 else s) s).replacer =
        s.replacer := by
  induction entries generalizing s with
  | nil => exact ⟨hs, rfl⟩
  | cons e entries ih =>
    rw [List.foldl_cons]
    split
    · exact ih (hs.writeBack e.1 e.2)
    · exact ih hs

theorem partition_removePages (hs : Partition s lost) (pages : List PageId) :
    Partition (pages.foldl removePage s) lost ∧
      (pages.foldl removePage s).replacer.lruList.Sublist s.replacer.lruList := by
  induction pages generalizing s with
  | nil => exact ⟨hs, List.Sublist.refl _⟩
  | cons p pages ih =>
    rw [List.foldl_cons]
    cases hl : s.pageTable.lookup p with
    | none =>
      have hremove : s.removePage p = s := by simp only [removePage, hl]
      rw [hremove]
      exact ih hs
    | some f =>
      have hremove : s.removePage p = s.release p f 0 := by simp only [removePage, hl]
      rw [hremove]
      obtain ⟨hpart, hsub⟩ := ih (hs.release hl 0)
      exact ⟨hpart, hsub.trans (hs.release_lru p f 0)⟩

/-- Every public operation keeps the invariant and treats the LRU list as a queue. -/
theorem partition_apply (hs : Partition s lost) (hlegal : op.Legal s) :
    Partition (op.apply s) lost ∧ LruStep s (op.apply s) := by
  cases op with
  | fetchPage p => exact partition_fetchPage hs hlegal
  | unpinPage p d => exact partition_unpinPage hs p d
  | flushPage p =>
    simp only [PoolOp.apply, flushPage]
    split
    · exact ⟨hs, .inl (List.Sublist.refl _)⟩
    · exact ⟨hs.writeBack _ _, .inl (List.Sublist.refl _)⟩
  | newPage fd => exact partition_newPage hs hlegal
  | deletePage p => exact partition_deletePage hs p
  | flushAllPages fd =>
    obtain ⟨hpart, hrep⟩ := partition_foldl_writeBack hs
      (fun _ p _ => p.fd = fd) s.pageTable.entries
    exact ⟨hpart, .inl (hrep ▸ List.Sublist.refl _)⟩
  | flushAllDirtyPages =>
    obtain ⟨hpart, hrep⟩ :=
      partition_foldl_writeBack hs (fun s _ f => (s.pages f).isDirty) s.pageTable.entries
    exact ⟨hpart, .inl (hrep ▸ List.Sublist.refl _)⟩
  | removeAllPages fd =>
    obtain ⟨hpart, hsub⟩ := partition_removePages hs (s.pageTable.keys.filter fun p => p.fd = fd)
    exact ⟨hpart, .inl hsub⟩
  | markDirty f =>
    refine ⟨hs.congr rfl rfl rfl rfl fun g => ?_, .inl (List.Sublist.refl _)⟩
    exact ⟨setFrame_id (by rfl) g, setFrame_pinCount (by rfl) g⟩

theorem poolSize_foldl {α : Type*} (step : BufferPool → α → BufferPool)
    (h : ∀ s a, (step s a).poolSize = s.poolSize) (l : List α) :
    (l.foldl step s).poolSize = s.poolSize := by
  induction l generalizing s with
  | nil => rfl
  | cons a l ih => rw [List.foldl_cons, ih, h]

/-- No operation changes `pool_size_`. -/
theorem poolSize_apply (s : BufferPool) (op : PoolOp) : (op.apply s).poolSize = s.poolSize := by
  cases op with
  | fetchPage p =>
    cases hl : s.pageTable.lookup p with
    | some f => simp only [PoolOp.apply, fetchPage_hit hl, setFrame]
    | none =>
      cases hv : s.findVictimPage with
      | none => simp only [PoolOp.apply, fetchPage_none hl hv]
      | some w => exact (fetchPage_miss hl hv).2.poolSize
  | unpinPage p d =>
    simp only [PoolOp.apply, unpinPage]
    split
    · rfl
    · split
      · rfl
      · simp only [setFrame]
        split <;> rfl
  | flushPage p =>
    simp only [PoolOp.apply, flushPage]
    split <;> rfl
  | newPage fd =>
    cases hv : s.findVictimPage with
    | none => simp only [PoolOp.apply, newPage_none fd hv]
    | some w => exact (newPage_some fd hv).2.poolSize
  | deletePage p =>
    simp only [PoolOp.apply, deletePage]
    split
    · rfl
    · split
      · rfl
      · simp only [release, setFrame]
        split <;> rfl
  | flushAllPages fd =>
    refine poolSize_foldl _ (fun s e => ?_) _
    split <;> rfl
  | flushAllDirtyPages =>
    refine poolSize_foldl _ (fun s e => ?_) _
    split <;> rfl
  | removeAllPages fd =>
    refine poolSize_foldl _ (fun s p => ?_) _
    unfold removePage
    split <;> rfl
  | markDirty f => rfl

/-! ## The three classes of frames -/

/-- The classes of frames. -/
inductive FrameClass
  | free
  | evictable
  | pinned
deriving DecidableEq

/-- What it means for frame `f` to be in a class. -/
def HasClass (s : BufferPool) (f : FrameId) : FrameClass → Prop
  | .free => (∀ p, s.pageTable.lookup p ≠ some f) ∧ s.freeList.count f = 1
  | .evictable => (∃ p, s.pageTable.lookup p = some f) ∧ (s.pages f).pinCount = 0 ∧
      s.replacer.lruList.count f = 1 ∧ f ∈ s.replacer.lruHash
  | .pinned => (∃ p, s.pageTable.lookup p = some f) ∧ 0 < (s.pages f).pinCount ∧
      f ∉ s.freeList ∧ f ∉ s.replacer.lruList ∧ f ∉ s.replacer.lruHash

/-- The page table is injective and agrees with the ids of the frames, every frame has exactly one
class, and only frames without a page are listed as free and only unpinned ones as evictable. -/
structure FramesClassified (s : BufferPool) : Prop where
  frame_unique : ∀ p q f, s.pageTable.lookup p = some f → s.pageTable.lookup q = some f → p = q
  frame_id : ∀ p f, s.pageTable.lookup p = some f → f < s.poolSize ∧ (s.pages f).id = p
  class_unique : ∀ f < s.poolSize, ∃! c, s.HasClass f c
  class_of_free : ∀ f ∈ s.freeList, f < s.poolSize ∧ s.HasClass f .free
  class_of_lru : ∀ f ∈ s.replacer.lruList, f < s.poolSize ∧ s.HasClass f .evictable
  class_of_hash : ∀ f ∈ s.replacer.lruHash, f < s.poolSize ∧ s.HasClass f .evictable

namespace Partition

variable {f : FrameId}

theorem hasClass_free_iff (hs : Partition s lost) : s.HasClass f .free ↔ f ∈ s.freeList := by
  constructor
  · intro h
    exact List.count_pos_iff.1 (by rw [h.2]; exact Nat.one_pos)
  · intro h
    refine ⟨fun p hp => ?_, List.count_eq_one_of_mem hs.free_nodup h⟩
    exact (hs.mem_free.1 h).2.2 (hs.inTable_of_lookup hp)

theorem hasClass_evictable_iff (hs : Partition s lost) :
    s.HasClass f .evictable ↔ f ∈ s.replacer.lruList := by
  constructor
  · intro h
    exact hs.mem_lru.2 ⟨hs.inTable_iff.2 h.1, h.2.1⟩
  · intro h
    obtain ⟨hin, hpin⟩ := hs.mem_lru.1 h
    exact ⟨hs.inTable_iff.1 hin, hpin, List.count_eq_one_of_mem hs.lru_nodup h, hs.mem_hash.2 h⟩

theorem hasClass_pinned_iff (hs : Partition s lost) :
    s.HasClass f .pinned ↔ s.InTable f ∧ 0 < (s.pages f).pinCount := by
  constructor
  · intro h
    exact ⟨hs.inTable_iff.2 h.1, h.2.1⟩
  · rintro ⟨hin, hpin⟩
    have hlru : f ∉ s.replacer.lruList := fun h => hpin.ne' (hs.mem_lru.1 h).2
    exact ⟨hs.inTable_iff.1 hin, hpin, fun h => (hs.mem_free.1 h).2.2 hin, hlru,
      mt hs.mem_hash.1 hlru⟩

theorem existsUnique_class (hs : Partition s) (hf : f < s.poolSize) : ∃! c, s.HasClass f c := by
  have hfree := hs.hasClass_free_iff (f := f)
  have hlru := hs.hasClass_evictable_iff (f := f)
  have hpin := hs.hasClass_pinned_iff (f := f)
  rw [hs.mem_free, ← and_assoc, and_iff_left (Set.notMem_empty f)] at hfree
  rw [hs.mem_lru] at hlru
  by_cases hin : s.InTable f
  · rcases Nat.eq_zero_or_pos (s.pages f).pinCount with h0 | h0
    · refine ⟨.evictable, hlru.2 ⟨hin, h0⟩, fun c hc => ?_⟩
      cases c with
      | free => exact absurd hin (hfree.1 hc).2
      | evictable => rfl
      | pinned => exact absurd h0 (hpin.1 hc).2.ne'
    · refine ⟨.pinned, hpin.2 ⟨hin, h0⟩, fun c hc => ?_⟩
      cases c with
      | free => exact absurd hin (hfree.1 hc).2
      | evictable => exact absurd (hlru.1 hc).2 h0.ne'
      | pinned => rfl
  · refine ⟨.free, hfree.2 ⟨hf, hin⟩, fun c hc => ?_⟩
    cases c with
    | free => rfl
    | evictable => exact absurd (hlru.1 hc).1 hin
    | pinned => exact absurd (hpin.1 hc).1 hin

theorem framesClassified (hs : Partition s) : s.FramesClassified where
  frame_unique _ _ _ hp hq := (hs.table hp).2.1.symm.trans (hs.table hq).2.1
  frame_id _ _ h := ⟨(hs.table h).1, (hs.table h).2.1⟩
  class_unique _ hf := hs.existsUnique_class hf
  class_of_free _ hf := ⟨(hs.mem_free.1 hf).1, hs.hasClass_free_iff.2 hf⟩
  class_of_lru _ hf := ⟨hs.lt_of_mem_lru hf, hs.hasClass_evictable_iff.2 hf⟩
  class_of_hash _ hf :=
    ⟨hs.lt_of_mem_lru (hs.mem_hash.1 hf), hs.hasClass_evictable_iff.2 (hs.mem_hash.1 hf)⟩

theorem findVictimPage_eq_none_iff (hs : Partition s) :
    s.findVictimPage = none ↔ ∀ f < s.poolSize, s.HasClass f .pinned := by
  rw [hs.findVictimPage_eq_none]
  exact forall₂_congr fun f _ => hs.hasClass_pinned_iff.symm

theorem newPage_eq_none_iff (hs : Partition s) (fd : ℤ) :
    (s.newPage fd).2 = none ↔ ∀ f < s.poolSize, s.HasClass f .pinned := by
  rw [← hs.findVictimPage_eq_none_iff]
  cases hv : s.findVictimPage with
  | none => simp [newPage_none fd hv]
  | some w => simp [(newPage_some fd hv).1]

theorem fetchPage_eq_none_iff (hs : Partition s) {p : PageId} (hl : s.pageTable.lookup p = none) :
    (s.fetchPage p).2 = none ↔ ∀ f < s.poolSize, s.HasClass f .pinned := by
  rw [← hs.findVictimPage_eq_none_iff]
  cases hv : s.findVictimPage with
  | none => simp [fetchPage_none hl hv]
  | some w => simp [(fetchPage_miss hl hv).1]

end Partition

end BufferPool

/-! ## Whole runs -/

/-- A pool together with the number of calls so far and, for each frame, the call at which its pin
count last dropped to zero. -/
structure TimedPool where
  pool : BufferPool
  clock : ℕ := 0
  droppedAt : FrameId → ℕ := fun _ => 0

namespace TimedPool

open BufferPool

variable {t t' : TimedPool} {op : PoolOp} {ops : List PoolOp}

/-- The state after a call. -/
def after (t : TimedPool) (op : PoolOp) : TimedPool where
  pool := op.apply t.pool
  clock := t.clock + 1
  droppedAt f :=
    if 0 < (t.pool.pages f).pinCount ∧ ((op.apply t.pool).pages f).pinCount = 0 then t.clock
    else t.droppedAt f

/-- One legal call. -/
def Step (t : TimedPool) (op : PoolOp) (t' : TimedPool) : Prop :=
  op.Legal t.pool ∧ t' = t.after op

/-- The invariant of the runs: the containers agree and the LRU list is in order of the drops. -/
structure Ordered (t : TimedPool) : Prop where
  partition : Partition t.pool
  before : ∀ f ∈ t.pool.replacer.lruList, t.droppedAt f < t.clock
  sorted : t.pool.replacer.lruList.Pairwise fun f g => t.droppedAt f < t.droppedAt g

theorem Ordered.step (h : Step t op t') (ht : Ordered t) : Ordered t' := by
  obtain ⟨hlegal, rfl⟩ := h
  obtain ⟨hpart, hlru⟩ := partition_apply ht.partition hlegal
  -- a frame that already was in the list has no pin to lose
  have hold {f : FrameId} (hf : f ∈ t.pool.replacer.lruList) :
      (t.after op).droppedAt f = t.droppedAt f := by
    have hpin := (ht.partition.mem_lru.1 hf).2
    simp [after, hpin]
  have hsorted : t.pool.replacer.lruList.Pairwise
      fun f g => (t.after op).droppedAt f < (t.after op).droppedAt g := by
    refine ht.sorted.imp_of_mem fun hf hg hlt => ?_
    rwa [hold hf, hold hg]
  rcases hlru with hsub | ⟨f, heq, hpos, hzero⟩
  · refine ⟨hpart, fun f hf => ?_, hsorted.sublist hsub⟩
    rw [hold (hsub.subset hf)]
    exact Nat.lt_succ_of_lt (ht.before f (hsub.subset hf))
  · have hnew : (t.after op).droppedAt f = t.clock := if_pos ⟨hpos, hzero⟩
    have heq' : (t.after op).pool.replacer.lruList = t.pool.replacer.lruList ++ [f] := heq
    refine ⟨hpart, fun g hg => ?_, ?_⟩
    · rw [heq'] at hg
      rcases List.mem_append.1 hg with hg | hg
      · rw [hold hg]
        exact Nat.lt_succ_of_lt (ht.before g hg)
      · rw [List.mem_singleton.1 hg, hnew]
        exact Nat.lt_succ_self _
    · rw [heq']
      refine List.pairwise_append.2 ⟨hsorted, List.pairwise_singleton _ _, fun g hg x hx => ?_⟩
      rw [List.mem_singleton.1 hx, hnew, hold hg]
      exact ht.before g hg

theorem Ordered.run {n : ℕ} {junkFd : FrameId → ℤ} {disk : DiskManager}
    (h : Run Step { pool := init n junkFd disk } ops t) : Ordered t ∧ t.pool.poolSize = n := by
  refine Run.invariant (P := fun t => Ordered t ∧ t.pool.poolSize = n) ?_ h ?_
  · rintro t op t' hstep ⟨ht, hn⟩
    refine ⟨ht.step hstep, ?_⟩
    rw [hstep.2]
    exact (poolSize_apply t.pool op).trans hn
  · exact ⟨⟨partition_init n junkFd disk, by simp [init], List.Pairwise.nil⟩, rfl⟩

end TimedPool

/-- After every run of legal calls from the empty pool: the frames fall into the three classes, the
LRU list is ordered by the time of the last drop, the victim is not pinned, and a frame is refused
exactly when all are pinned. -/
theorem frames_partitioned_of_run {n : ℕ} {junkFd : FrameId → ℤ} {disk : DiskManager}
    {ops : List PoolOp} {t : TimedPool}
    (h : Run TimedPool.Step { pool := BufferPool.init n junkFd disk } ops t) :
    t.pool.poolSize = n ∧ t.pool.FramesClassified ∧
      t.pool.replacer.lruList.Pairwise (fun f g => t.droppedAt f < t.droppedAt g) ∧
      (∀ f v, t.pool.findVictimPage = some (f, v) → ¬ t.pool.HasClass f .pinned) ∧
      (∀ fd, (t.pool.newPage fd).2 = none ↔ ∀ f < n, t.pool.HasClass f .pinned) ∧
      (∀ p, t.pool.pageTable.lookup p = none →
        ((t.pool.fetchPage p).2 = none ↔ ∀ f < n, t.pool.HasClass f .pinned)) := by
  obtain ⟨ht, rfl⟩ := TimedPool.Ordered.run h
  have hs := ht.partition
  refine ⟨rfl, hs.framesClassified, ht.sorted, fun f v hv hpinned => ?_, hs.newPage_eq_none_iff,
    fun p hl => hs.fetchPage_eq_none_iff hl⟩
  obtain ⟨hin, hpos⟩ := hs.hasClass_pinned_iff.1 hpinned
  exact hpos.ne' ((hs.victim hv).2.1 hin)

/-- A pool of one frame after a new page has been made and unpinned again: the frame is
evictable. -/
theorem frames_partitioned_after_unpin :
    ∃ t : TimedPool, t.pool.FramesClassified ∧ t.pool.replacer.lruList = [0] := by
  let disk : DiskManager := ⟨fun _ => Block.zero, fun _ => 0⟩
  have hrun : Run TimedPool.Step { pool := BufferPool.init 1 (fun _ => 0) disk }
      [.newPage 3, .unpinPage ⟨3, 0⟩ true] _ :=
    .cons ⟨⟨by decide, rfl⟩, rfl⟩ (.cons ⟨trivial, rfl⟩ (.nil _))
  exact ⟨_, (frames_partitioned_of_run hrun).2.1, by decide⟩

end Rmdb
