import Rmdb.Storage.Coherence

/-!
# A read that fails

When `read_page` throws inside `fetch_page`, the victim has been taken from the free list or from
the replacer, written back if it was dirty, and taken out of the page table; nothing puts its frame
back.  The frames lost so far are an index of the invariants, so that a failed read may follow
others.
-/

namespace Rmdb

namespace BufferPool

/-- What `fetch_page` leaves behind when `read_page` throws after it has put `junk` into the frame;
`none` when no page is read. -/
def fetchPageThrows (s : BufferPool) (p : PageId) (junk : Block) : Option BufferPool :=
  match s.pageTable.lookup p with
  | some _ => none
  | none =>
    match s.findVictimPage with
    | none => none
    | some (f, s) =>
      let s := if (s.pages f).isDirty then s.updatePage f p else s
      let s := { s with pageTable := s.pageTable.erase (s.pages f).id }
      some (s.setFrame f { s.pages f with data := junk })

/-- The frames that `find_victim_page` can give, one a call. -/
def obtainable (s : BufferPool) : ℕ := s.freeList.length + s.replacer.lruList.length

/-- What a page reads as: its frame if it is resident, its block on disk otherwise. -/
def contents (s : BufferPool) (p : PageId) : Block :=
  match s.pageTable.lookup p with
  | some f => (s.pages f).data
  | none => s.disk.blocks p

/-- The frames are in one class each, the table maps to frames with the page, no page reads
otherwise, and as many frames can be obtained as before. -/
structure LosesNothing (s s' : BufferPool) : Prop where
  classes : ∀ f < s'.poolSize, ∃! c, s'.HasClass f c
  table : ∀ q f, s'.pageTable.lookup q = some f → f < s'.poolSize ∧ (s'.pages f).id = q
  contents : ∀ q, s'.contents q = s.contents q
  obtainable : s'.obtainable = s.obtainable

variable {s s' v : BufferPool} {f g : FrameId} {p q : PageId} {junk : Block} {lost : Set FrameId}

/-- `find_victim_page` takes one frame. -/
theorem obtainable_victim (h : s.findVictimPage = some (f, v)) :
    v.obtainable + 1 = s.obtainable := by
  unfold findVictimPage LRUReplacer.victim at h
  unfold obtainable
  split at h
  · next hfree =>
    cases h
    simp only [hfree, List.length_cons]
    omega
  · next hfree =>
    split at h
    · cases h
    · next hlru =>
      cases h
      simp only [hfree, hlru, List.length_cons]
      omega

/-- `find_victim_page` fails when no frame is left. -/
theorem findVictimPage_eq_none_iff_obtainable : s.findVictimPage = none ↔ s.obtainable = 0 := by
  unfold findVictimPage LRUReplacer.victim obtainable
  cases s.freeList with
  | nil =>
    cases s.replacer.lruList with
    | nil => simp
    | cons g rest => simp
  | cons g rest => simp

/-- What a read that fails does: the victim leaves the lists and the table, and its page goes to
disk. -/
structure Drops (s : BufferPool) (f : FrameId) (s' : BufferPool) : Prop where
  victim : ∃ v, s.findVictimPage = some (f, v) ∧ s'.freeList = v.freeList ∧ s'.replacer = v.replacer
  poolSize : s'.poolSize = s.poolSize
  pages : ∀ g, g ≠ f → s'.pages g = s.pages g
  clean : (s'.pages f).isDirty = false
  lookup : ∀ q, s'.pageTable.lookup q = if q = (s.pages f).id then none else s.pageTable.lookup q
  blocks : s'.disk.blocks = s.evicted f

theorem drops_of_throws (h : s.fetchPageThrows p junk = some s') : ∃ f, Drops s f s' := by
  unfold fetchPageThrows at h
  split at h
  · cases h
  next hp =>
  split at h
  · cases h
  next f v hv =>
  have hv' := hv
  obtain ⟨free, rep, rfl⟩ := findVictimPage_eq hv
  obtain rfl := Option.some.inj h
  -- a dirty victim goes through `update_page`, which enters `p` into the table; it is erased again
  by_cases hd : (s.pages f).isDirty
  · refine ⟨f, ⟨_, hv', ?_, ?_⟩, ?_, fun g hg => ?_, ?_, fun q => ?_, ?_⟩
    · simp [hd, updatePage, writePage, setFrame]
    · simp [hd, updatePage, writePage, setFrame]
    · simp [hd, updatePage, writePage, setFrame]
    · simp [hd, updatePage, writePage, setFrame, hg]
    · simp [hd, updatePage, writePage, setFrame]
    · simp only [hd, if_true, updatePage, writePage, setFrame, Function.update_self]
      by_cases hq : q = p
      · subst hq
        simp [hp]
      · rw [AList.lookup_erase_ne hq, lookup_insert_erase, if_neg hq]
    · simp [hd, updatePage, writePage, setFrame, evicted]
  · refine ⟨f, ⟨_, hv', ?_, ?_⟩, ?_, fun g hg => ?_, ?_, fun q => ?_, ?_⟩
    · simp [hd, setFrame]
    · simp [hd, setFrame]
    · simp [hd, setFrame]
    · simp [hd, setFrame, hg]
    · simp [hd, setFrame]
    · simp only [hd, Bool.false_eq_true, if_false, setFrame]
      by_cases hq : q = (s.pages f).id
      · subst hq
        simp
      · rw [AList.lookup_erase_ne hq, if_neg hq]
    · simp [hd, setFrame, evicted]

namespace Drops

theorem obtainable (h : Drops s f s') : s'.obtainable + 1 = s.obtainable := by
  obtain ⟨v, hv, hfree, hrep⟩ := h.victim
  rw [← obtainable_victim hv, BufferPool.obtainable, BufferPool.obtainable, hfree, hrep]

/-- The pages that are still mapped. -/
theorem lookup_eq_some (h : Drops s f s') (hs : Partition s lost)
    (hl : s'.pageTable.lookup q = some g) :
    q ≠ (s.pages f).id ∧ g ≠ f ∧ s.pageTable.lookup q = some g := by
  rw [h.lookup q] at hl
  split at hl
  · cases hl
  · next hq => exact ⟨hq, fun heq => hq (heq ▸ (hs.table hl).2.1).symm, hl⟩

/-- No page is mapped to the frame any more. -/
theorem lookup_ne (h : Drops s f s') (hs : Partition s lost) (q : PageId) :
    s'.pageTable.lookup q ≠ some f := fun hl => (h.lookup_eq_some hs hl).2.1 rfl

/-- The pages in the other frames stay mapped. -/
theorem lookup_of_ne (h : Drops s f s') (hs : Partition s lost) (hl : s.pageTable.lookup q = some g)
    (hg : g ≠ f) : s'.pageTable.lookup q = some g := by
  obtain ⟨v, hv, -, -⟩ := h.victim
  have hne := hs.id_ne (hs.victim hv).1 (hs.victim_kept hv) (hs.inTable_of_lookup hl) hg
  rw [(hs.table hl).2.1] at hne
  rw [h.lookup q, if_neg hne, hl]

theorem inTable_of_ne (h : Drops s f s') (hs : Partition s lost) (hg : g ≠ f) :
    s'.InTable g ↔ s.InTable g := by
  rw [InTable, h.pages g hg]
  exact ⟨fun hl => (h.lookup_eq_some hs hl).2.2, fun hl => h.lookup_of_ne hs hl hg⟩

/-- The frame is in no class. -/
theorem no_class (h : Drops s f s') (hs : Partition s lost) (c : FrameClass) :
    ¬ s'.HasClass f c := by
  obtain ⟨v, hv, hfree, _⟩ := h.victim
  cases c with
  | free =>
    rintro ⟨_, hcount⟩
    have hmem : f ∈ s.freeList.erase f := by
      rw [← (hs.victim hv).2.2.1, ← hfree]
      exact List.count_pos_iff.mp (by omega)
    exact (List.Nodup.not_mem_erase hs.free_nodup) hmem
  | evictable =>
    rintro ⟨⟨q, hq⟩, _⟩
    exact h.lookup_ne hs q hq
  | pinned =>
    rintro ⟨⟨q, hq⟩, _⟩
    exact h.lookup_ne hs q hq

theorem table (h : Drops s f s') (hs : Partition s lost) (hl : s'.pageTable.lookup q = some g) :
    g < s'.poolSize ∧ (s'.pages g).id = q := by
  obtain ⟨-, hg, hl⟩ := h.lookup_eq_some hs hl
  rw [h.poolSize, h.pages g hg]
  exact ⟨(hs.table hl).1, (hs.table hl).2.1⟩

/-- The containers agree without the frame. -/
theorem partition (h : Drops s f s') (hs : Partition s lost) : Partition s' (insert f lost) := by
  obtain ⟨v, hv, hfree, hrep⟩ := h.victim
  obtain ⟨hf, -, hvfree, hlru, hhash, hmax⟩ := hs.victim hv
  rw [← hrep] at hlru hhash hmax
  rw [hvfree] at hfree
  have hpin : s'.replacer.pin f = s'.replacer := if_neg (hrep ▸ hs.victim_unpinned hv)
  rw [hpin] at hlru hhash hmax
  have hout : ¬ s'.InTable f := h.lookup_ne hs _
  refine ⟨?_, ?_, ?_, ?_, ?_, ?_, ?_, ?_, ?_⟩
  · intro g hlost
    by_cases hg : g = f
    · exact hg ▸ hout
    · exact mt (h.inTable_of_ne hs hg).1 (hs.lost_out (hlost.resolve_left hg))
  · intro q g hl
    obtain ⟨hlt, hid⟩ := h.table hs hl
    exact ⟨hlt, hid, (hs.table (h.lookup_eq_some hs hl).2.2).2.2⟩
  · intro g hlt hkept hnot
    have hg : g ≠ f := fun heq => hkept (.inl heq)
    rw [h.pages g hg]
    exact hs.unmapped_id (h.poolSize ▸ hlt) (fun hlost => hkept (.inr hlost))
      (mt (h.inTable_of_ne hs hg).2 hnot)
  · exact hfree ▸ hs.free_nodup.erase f
  · intro g
    rw [hfree, hs.free_nodup.mem_erase_iff, hs.mem_free, h.poolSize, Set.mem_insert_iff]
    by_cases hg : g = f
    · simp [hg]
    · simp [hg, h.inTable_of_ne hs hg]
  · exact hlru ▸ hs.lru_nodup.erase f
  · intro g
    rw [hlru, hs.lru_nodup.mem_erase_iff, hs.mem_lru]
    by_cases hg : g = f
    · simp [hg, hout]
    · simp [hg, h.inTable_of_ne hs hg, h.pages g hg]
  · intro g
    rw [hhash, hlru, Finset.mem_erase, hs.mem_hash, hs.lru_nodup.mem_erase_iff]
  · rw [hmax, h.poolSize]

end Drops

end BufferPool

open BufferPool

/-! ## Runs in which reads fail -/

/-- What happens to the pool: what its clients do, `remove_all_pages`, and a `fetch_page` whose read
fails. -/
inductive PoolCall
  | client (op : ClientOp)
  | removeAllPages (fd : ℤ)
  | fetchThrows (p : PageId) (junk : Block)

namespace PoolClients

variable {c c' : PoolClients} {lost : Set FrameId} {f : FrameId} {s' : BufferPool}

/-- The page leaves the pool unwritten: it is read from the disk from now on, and no pin on it is
left. -/
def removePage (c : PoolClients) (p : PageId) : PoolClients where
  pool := c.pool.removePage p
  pins := c.pins.filter fun pin => pin.page ≠ p
  last := Function.update c.last p (c.pool.disk.blocks p)

def removeAllPages (c : PoolClients) (fd : ℤ) : PoolClients :=
  (c.pool.pageTable.keys.filter fun p => p.fd = fd).foldl removePage c

/-- A step of the pool. -/
def Calls (c : PoolClients) (call : PoolCall) (c' : PoolClients) : Prop :=
  match call with
  | .client op => c.Step op c'
  | .removeAllPages fd => c' = c.removeAllPages fd
  | .fetchThrows p junk =>
    ∃ s', c.pool.fetchPageThrows p junk = some s' ∧ c' = { c with pool := s' }

/-- The pool of the clients does what `remove_all_pages` does. -/
theorem pool_removeAllPages (c : PoolClients) (fd : ℤ) :
    (c.removeAllPages fd).pool = c.pool.removeAllPages fd := by
  unfold removeAllPages BufferPool.removeAllPages
  generalize c.pool.pageTable.keys.filter (fun p => p.fd = fd) = pages
  induction pages generalizing c with
  | nil => rfl
  | cons p pages ih => exact ih (c.removePage p)

namespace Coherent

theorem removePage (hc : Coherent c lost) (p : PageId) : Coherent (c.removePage p) lost := by
  unfold PoolClients.removePage BufferPool.removePage
  split
  · next hl =>
    rw [hc.absent hl, Function.update_eq_self, List.filter_eq_self.2]
    · exact hc
    · intro pin hpin
      have hpage : pin.page ≠ p := by
        rintro rfl
        cases hl.symm.trans (hc.pinned pin hpin)
      simpa using hpage
  · next hl => exact hc.drop hl 0

theorem removeAllPages (hc : Coherent c lost) (fd : ℤ) : Coherent (c.removeAllPages fd) lost := by
  unfold PoolClients.removeAllPages
  generalize c.pool.pageTable.keys.filter (fun p => p.fd = fd) = pages
  induction pages generalizing c with
  | nil => exact hc
  | cons p pages ih => exact ih (hc.removePage p)

/-- A read that fails adds its victim to the lost frames. -/
theorem drops (hc : Coherent c lost) (h : Drops c.pool f s') :
    Coherent { c with pool := s' } (insert f lost) := by
  have hs := hc.partition
  obtain ⟨v, hv, -, -⟩ := h.victim
  obtain ⟨hf, h0, -⟩ := hs.victim hv
  refine ⟨h.partition hs, ?_, ?_, ?_, ?_, ?_, ?_⟩
  · intro g hg hnot
    by_cases hgf : g = f
    · exact hgf ▸ h.clean
    · rw [h.pages g hgf]
      exact hc.free_clean (h.poolSize ▸ hg) (mt (h.inTable_of_ne hs hgf).2 hnot)
  · intro pin hpin
    have hl := hc.pinned pin hpin
    refine h.lookup_of_ne hs hl fun heq => ?_
    have hin := heq ▸ hs.inTable_of_lookup hl
    exact hc.no_pin hl (heq ▸ h0 hin) pin hpin rfl
  · intro q g hl
    obtain ⟨-, hg, hl⟩ := h.lookup_eq_some hs hl
    rw [h.pages g hg]
    exact hc.count hl
  · intro q g hl
    obtain ⟨-, hg, hl⟩ := h.lookup_eq_some hs hl
    rw [h.pages g hg]
    exact hc.resident hl
  · intro q g hl hd hch
    obtain ⟨hq, hg, hl⟩ := h.lookup_eq_some hs hl
    rw [h.pages g hg] at hd
    rw [h.blocks, evicted_of_ne hq]
    exact hc.clean hl hd hch
  · intro q hl
    rw [h.blocks]
    refine hc.evicted_eq hf h0 ?_
    rw [h.lookup q] at hl
    split at hl
    · next hq =>
      by_cases hin : c.pool.InTable f
      · exact .inr ⟨hin, hq⟩
      · left
        by_contra hsome
        obtain ⟨g, hg⟩ := Option.ne_none_iff_exists'.mp hsome
        exact (hs.table hg).2.2 (hq ▸ hs.unmapped_id hf (hs.victim_kept hv) hin)
    · exact .inl hl

end Coherent

/-- A step keeps the invariant of the clients, but for the frames lost. -/
theorem coherent_calls {call : PoolCall} (h : c.Calls call c') (hc : ∃ lost, c.Coherent lost) :
    ∃ lost, c'.Coherent lost := by
  obtain ⟨lost, hc⟩ := hc
  cases call with
  | client op => exact ⟨lost, hc.step h⟩
  | removeAllPages fd =>
    cases h
    exact ⟨lost, hc.removeAllPages fd⟩
  | fetchThrows p junk =>
    obtain ⟨s', hthrows, rfl⟩ := h
    obtain ⟨f, hdrops⟩ := drops_of_throws hthrows
    exact ⟨insert f lost, hc.drops hdrops⟩

theorem coherent_run {n : ℕ} {junkFd : FrameId → ℤ} {disk : DiskManager} {calls : List PoolCall}
    (h : Run Calls { pool := BufferPool.init n junkFd disk, last := disk.blocks } calls c) :
    ∃ lost, c.Coherent lost :=
  Run.invariant (P := fun c => ∃ lost, c.Coherent lost) (fun _ _ _ => coherent_calls) h
    ⟨∅, .init n junkFd disk⟩

end PoolClients

/-- In every state that the pool can be brought to, a read that fails inside `fetch_page` loses a
frame: it is in no class afterwards, and one frame less can be obtained.  The page table and the
contents of the pages survive. -/
theorem failed_read_loses_frame {n : ℕ} {junkFd : FrameId → ℤ} {disk : DiskManager}
    {calls : List PoolCall}
    {c : PoolClients} {p : PageId} {junk : Block} {s' : BufferPool}
    (hrun : Run PoolClients.Calls { pool := BufferPool.init n junkFd disk, last := disk.blocks }
      calls c)
    (h : c.pool.fetchPageThrows p junk = some s') :
    ¬ c.pool.LosesNothing s' ∧
    (∃ f < s'.poolSize, ∀ cl, ¬ s'.HasClass f cl) ∧ s'.obtainable + 1 = c.pool.obtainable ∧
    (∀ q f, s'.pageTable.lookup q = some f → f < s'.poolSize ∧ (s'.pages f).id = q) ∧
    ∀ q, s'.contents q = c.pool.contents q := by
  obtain ⟨lost, hc⟩ := PoolClients.coherent_run hrun
  obtain ⟨f, hdrops⟩ := drops_of_throws h
  obtain ⟨v, hv, _⟩ := hdrops.victim
  have hf : f < s'.poolSize := hdrops.poolSize ▸ (hc.partition.victim hv).1
  refine ⟨fun hloses => ?_, ⟨f, hf, hdrops.no_class hc.partition⟩, hdrops.obtainable,
    fun q g hl => hdrops.table hc.partition hl, fun q => ?_⟩
  · obtain ⟨cl, hcl, _⟩ := hloses.classes f hf
    exact hdrops.no_class hc.partition cl hcl
  · exact ((hc.drops hdrops).reads_eq q).trans (hc.reads_eq q).symm

/-- A pool of so many frames, before its first call, over an empty disk. -/
def emptyPool (n : ℕ) : PoolClients :=
  { pool := BufferPool.init n (fun _ => 0) ⟨fun _ => Block.zero, fun _ => 0⟩
    last := fun _ => Block.zero }

/-- Page 0 is made in one of two frames and the file of another page is dropped. -/
def twoFrameCalls : List PoolCall :=
  [.client (.newPage 3), .client (.write ⟨⟨3, 0⟩, 0, true⟩ fun _ => 1),
    .client (.unpinPage ⟨⟨3, 0⟩, 0, true⟩ true), .client (.newPage 4), .removeAllPages 4,
    .fetchThrows ⟨3, 7⟩ Block.zero]

/-- One of two frames holds page 0 when a read fails and loses the other; the next read that fails
has page 0 written back and loses its frame. -/
theorem failed_read_loses_last_frame : ∃ c s', Run PoolClients.Calls (emptyPool 2) twoFrameCalls c ∧
    c.pool.fetchPageThrows ⟨3, 8⟩ Block.zero = some s' ∧ c.pool.obtainable = 1 ∧ s'.obtainable = 0 ∧
    s'.contents ⟨3, 0⟩ = fun _ => 1 := by
  have hrun : Run PoolClients.Calls (emptyPool 2) twoFrameCalls _ :=
    .cons ⟨⟨by decide, rfl⟩, rfl⟩ (.cons ⟨List.mem_cons_self, rfl⟩
      (.cons ⟨⟨List.mem_cons_self, fun _ => rfl⟩, rfl⟩ (.cons ⟨⟨by decide, rfl⟩, rfl⟩
        (.cons rfl (.cons ⟨_, rfl, rfl⟩ (.nil _))))))
  have hlost := failed_read_loses_frame hrun
    (show BufferPool.fetchPageThrows _ ⟨3, 8⟩ Block.zero = some _ from rfl)
  exact ⟨_, _, hrun, rfl, rfl, Nat.succ.inj hlost.2.2.1, hlost.2.2.2.2 ⟨3, 0⟩⟩

/-- After a failed read the pool of one frame has no frame left. -/
theorem not_failed_read_loses_nothing : ¬ ∀ (n : ℕ) (junkFd : FrameId → ℤ) (disk : DiskManager)
    (calls : List PoolCall) (c : PoolClients) (p : PageId) (junk : Block) (s' : BufferPool),
    Run PoolClients.Calls { pool := BufferPool.init n junkFd disk, last := disk.blocks } calls c →
    c.pool.fetchPageThrows p junk = some s' → c.pool.LosesNothing s' := by
  intro h
  have hloses := h 1 (fun _ => 0) ⟨fun _ => Block.zero, fun _ => 0⟩ [] (emptyPool 1)
    ⟨3, 7⟩ Block.zero _ (.nil _) rfl
  exact absurd hloses.obtainable (by decide)

end Rmdb
