import Rmdb.Storage.FramePartition

/-!
# What is read from the pool is what was last written

Clients hold pins on pages and change a page only through a pin.  `last` remembers what was last
written to each page; the invariant `Coherent` says where that content is to be found: in the frame
of a resident page, and on disk for every page that is absent, or resident, clean and without a
client that has changed it.
-/

namespace Rmdb

open BufferPool

/-- A pin that a client holds: the page asked for, the frame it got, and whether it has changed the
data (or got the page from `new_page`) and so has to unpin with `is_dirty = true`. -/
structure Pin where
  page : PageId
  frame : FrameId
  changed : Bool
deriving DecidableEq

/-- The pool, the pins its clients hold and the last data written to each page. -/
structure PoolClients where
  pool : BufferPool
  pins : List Pin := []
  last : PageId → Block

/-- What clients do. -/
inductive ClientOp
  | fetchPage (p : PageId)
  | newPage (fd : ℤ)
  | write (pin : Pin) (data : Block)
  | unpinPage (pin : Pin) (isDirty : Bool)
  | unpinIdle (p : PageId) (isDirty : Bool)
  | flushPage (p : PageId)
  | deletePage (p : PageId)
  | flushAllPages (fd : ℤ)
  | flushAllDirtyPages

namespace ClientOp

/-- The state after what a client does. -/
def apply (c : PoolClients) : ClientOp → PoolClients
  | .fetchPage p =>
    match c.pool.fetchPage p with
    | (pool, some f) => { c with pool := pool, pins := ⟨p, f, false⟩ :: c.pins }
    | (pool, none) => { c with pool := pool }
  | .newPage fd =>
    match c.pool.newPage fd with
    | (pool, some f) =>
      { pool := pool, pins := ⟨c.pool.newPageId fd, f, true⟩ :: c.pins,
        last := Function.update c.last (c.pool.newPageId fd) Block.zero }
    | (pool, none) => { c with pool := pool }
  | .write pin data =>
    { pool := c.pool.setFrame pin.frame { c.pool.pages pin.frame with data := data },
      pins := { pin with changed := true } :: c.pins.erase pin,
      last := Function.update c.last pin.page data }
  | .unpinPage pin isDirty =>
    { c with pool := (c.pool.unpinPage pin.page isDirty).1, pins := c.pins.erase pin }
  | .unpinIdle p isDirty => { c with pool := (c.pool.unpinPage p isDirty).1 }
  | .flushPage p => { c with pool := (c.pool.flushPage p).1 }
  | .deletePage p => { c with pool := (c.pool.deletePage p).1 }
  | .flushAllPages fd => { c with pool := c.pool.flushAllPages fd }
  | .flushAllDirtyPages => { c with pool := c.pool.flushAllDirtyPages }

/-- The discipline of the clients: data is changed only under a pin that is held, a pin under which
data was changed is given back with `is_dirty = true`, and nobody unpins for somebody else. -/
def Legal (c : PoolClients) : ClientOp → Prop
  | .fetchPage p => p.pageNo ≠ INVALID_PAGE_ID
  | .newPage fd => (c.pool.newPageId fd).pageNo ≠ INVALID_PAGE_ID ∧
      c.pool.pageTable.lookup (c.pool.newPageId fd) = none
  | .write pin _ => pin ∈ c.pins
  | .unpinPage pin isDirty => pin ∈ c.pins ∧ (pin.changed → isDirty)
  | .unpinIdle p _ => ∀ pin ∈ c.pins, pin.page ≠ p
  | _ => True

/-- The page that the operation gives new contents, if any. -/
def writes (c : PoolClients) : ClientOp → Option PageId
  | .newPage fd => (c.pool.newPage fd).2.map fun _ => c.pool.newPageId fd
  | .write pin _ => some pin.page
  | _ => none

end ClientOp

namespace PoolClients

variable {c c' : PoolClients} {op : ClientOp} {ops : List ClientOp} {p q : PageId} {f : FrameId}
  {data : Block} {lost : Set FrameId}

/-- One step of a client. -/
def Step (c : PoolClients) (op : ClientOp) (c' : PoolClients) : Prop :=
  op.Legal c ∧ c' = op.apply c

/-- Where the last written data of every page is, in a pool that has lost some frames. -/
structure Coherent (c : PoolClients) (lost : Set FrameId := ∅) : Prop where
  partition : Partition c.pool lost
  free_clean : ∀ {f}, f < c.pool.poolSize → ¬ c.pool.InTable f → (c.pool.pages f).isDirty = false
  pinned : ∀ pin ∈ c.pins, c.pool.pageTable.lookup pin.page = some pin.frame
  count : ∀ {p f}, c.pool.pageTable.lookup p = some f →
    (c.pool.pages f).pinCount = c.pins.countP fun pin => pin.page = p
  resident : ∀ {p f}, c.pool.pageTable.lookup p = some f → (c.pool.pages f).data = c.last p
  clean : ∀ {p f}, c.pool.pageTable.lookup p = some f → (c.pool.pages f).isDirty = false →
    (∀ pin ∈ c.pins, pin.page = p → pin.changed = false) → c.pool.disk.blocks p = c.last p
  absent : ∀ {p}, c.pool.pageTable.lookup p = none → c.pool.disk.blocks p = c.last p

namespace Coherent

theorem init (n : ℕ) (junkFd : FrameId → ℤ) (disk : DiskManager) :
    Coherent { pool := BufferPool.init n junkFd disk, last := disk.blocks } where
  partition := partition_init n junkFd disk
  free_clean _ _ := rfl
  pinned := by simp
  count h := by simp [BufferPool.init] at h
  resident h := by simp [BufferPool.init] at h
  clean h := by simp [BufferPool.init] at h
  absent _ := rfl

/-- Nobody holds a pin on a page that is not pinned. -/
theorem no_pin (hc : Coherent c lost) (hl : c.pool.pageTable.lookup p = some f)
    (h0 : (c.pool.pages f).pinCount = 0) : ∀ pin ∈ c.pins, pin.page ≠ p := by
  have hcount := hc.count hl
  rw [h0, eq_comm, List.countP_eq_zero] at hcount
  intro pin hpin
  simpa using hcount pin hpin

/-- The eviction of a frame without pins leaves the last data of its page on disk, and that of the
pages that were on disk already. -/
theorem evicted_eq (hc : Coherent c lost) (hf : f < c.pool.poolSize)
    (h0 : c.pool.InTable f → (c.pool.pages f).pinCount = 0)
    (hq : c.pool.pageTable.lookup q = none ∨ c.pool.InTable f ∧ q = (c.pool.pages f).id) :
    c.pool.evicted f q = c.last q := by
  unfold evicted
  by_cases hin : c.pool.InTable f
  · rcases hq with hq | ⟨-, rfl⟩
    · have hne : q ≠ (c.pool.pages f).id := by
        rintro rfl
        rw [InTable, hq] at hin
        cases hin
      split
      · rw [Function.update_of_ne hne, hc.absent hq]
      · exact hc.absent hq
    · split
      · rw [Function.update_self, hc.resident hin]
      · rename_i hd
        have hpins := hc.no_pin hin (h0 hin)
        exact hc.clean hin (by simpa using hd) fun pin hpin hpage => absurd hpage (hpins pin hpin)
  · have hd := hc.free_clean hf hin
    rcases hq with hq | ⟨hin', -⟩
    · simpa [hd] using hc.absent hq
    · exact absurd hin' hin

theorem evicted_of_ne (hq : q ≠ (c.pool.pages f).id) :
    c.pool.evicted f q = c.pool.disk.blocks q := by
  unfold evicted
  split
  · rw [Function.update_of_ne hq]
  · rfl

/-- Bringing a page in, whose last data then is `last p` and to whose reader a pin is given. -/
theorem load {s' : BufferPool} {last : PageId → Block} {changed : Bool} (hc : Coherent c lost)
    (h : Loads c.pool f p data s') (hp : p.pageNo ≠ INVALID_PAGE_ID)
    (hnew : c.pool.pageTable.lookup p = none) (hlast : ∀ q, q ≠ p → last q = c.last q)
    (hdata : data = last p) (hclean : changed = false → c.pool.evicted f p = last p) :
    Coherent { pool := s', pins := ⟨p, f, changed⟩ :: c.pins, last := last } lost := by
  have hs := hc.partition
  obtain ⟨v, hv, -, -⟩ := h.victim
  obtain ⟨hf, h0, -⟩ := hs.victim hv
  have hpinned (pin : Pin) (hpin : pin ∈ c.pins) : pin.page ≠ p ∧ pin.frame ≠ f := by
    have hl := hc.pinned pin hpin
    refine ⟨?_, ?_⟩
    · intro heq
      rw [heq, hnew] at hl
      cases hl
    · intro heq
      have hin := heq ▸ hs.inTable_of_lookup hl
      exact hc.no_pin hl (heq ▸ h0 hin) pin hpin rfl
  refine ⟨h.partition hs hp hnew, ?_, ?_, ?_, ?_, ?_, ?_⟩
  · intro g hg hnot
    have hne : g ≠ f := by
      rintro rfl
      exact hnot h.inTable_self
    rw [h.pages_of_ne hne]
    exact hc.free_clean (h.poolSize ▸ hg) (mt (h.inTable_of_ne hs hf hnew hne).2 hnot)
  · intro pin hpin
    rcases List.mem_cons.1 hpin with rfl | hpin
    · exact h.lookup_self
    · exact h.lookup_of_ne hs hf hnew (hc.pinned pin hpin) (hpinned pin hpin).2
  · intro q g hl
    rcases h.lookup_eq_some hs hl with ⟨rfl, rfl⟩ | ⟨hq, -, hg, hl⟩
    · have hnone : c.pins.countP (fun pin => pin.page = q) = 0 :=
        List.countP_eq_zero.2 fun pin hpin => by simpa using (hpinned pin hpin).1
      simp [h.pages_self, hnone]
    · rw [h.pages_of_ne hg, hc.count hl]
      simp [hq.symm]
  · intro q g hl
    rcases h.lookup_eq_some hs hl with ⟨rfl, rfl⟩ | ⟨hq, -, hg, hl⟩
    · rw [h.pages_self]
      exact hdata
    · rw [h.pages_of_ne hg]
      exact (hc.resident hl).trans (hlast q hq).symm
  · intro q g hl hd hch
    rw [h.blocks]
    rcases h.lookup_eq_some hs hl with ⟨rfl, rfl⟩ | ⟨hq, hid, hg, hl⟩
    · exact hclean (hch _ List.mem_cons_self rfl)
    · rw [h.pages_of_ne hg] at hd
      rw [evicted_of_ne hid]
      refine (hc.clean hl hd fun pin hpin => ?_).trans (hlast q hq).symm
      exact hch pin (List.mem_cons_of_mem _ hpin)
  · intro q hl
    have hq : q ≠ p := by
      rintro rfl
      rw [h.lookup_self] at hl
      cases hl
    rw [h.blocks]
    exact (hc.evicted_eq hf h0 (h.lookup_eq_none hs hf hl)).trans (hlast q hq).symm

/-- Changing the frame of one resident page, with its id kept: the obligations are about that
page. -/
theorem touch {s' : BufferPool} {page : Frame} {pins : List Pin} {last : PageId → Block}
    (hc : Coherent c lost) (hl : c.pool.pageTable.lookup p = some f) (hpart : Partition s' lost)
    (hsize : s'.poolSize = c.pool.poolSize) (htable : s'.pageTable = c.pool.pageTable)
    (hpages : s'.pages = Function.update c.pool.pages f page) (hid : page.id = p)
    (hdisk : ∀ q, q ≠ p → s'.disk.blocks q = c.pool.disk.blocks q)
    (hpinned : ∀ pin ∈ pins, c.pool.pageTable.lookup pin.page = some pin.frame)
    (hcount : page.pinCount = pins.countP fun pin => pin.page = p)
    (hpins : ∀ q, q ≠ p → pins.filter (fun pin => pin.page = q) =
      c.pins.filter (fun pin => pin.page = q))
    (hlast : ∀ q, q ≠ p → last q = c.last q) (hdata : page.data = last p)
    (hclean : page.isDirty = false → (∀ pin ∈ pins, pin.page = p → pin.changed = false) →
      s'.disk.blocks p = last p) :
    Coherent { pool := s', pins := pins, last := last } lost := by
  have hs := hc.partition
  have hself : s'.pages f = page := by rw [hpages, Function.update_self]
  have hother {g : FrameId} (hg : g ≠ f) : s'.pages g = c.pool.pages g := by
    rw [hpages, Function.update_of_ne hg]
  have hcases {q : PageId} {g : FrameId} (h : c.pool.pageTable.lookup q = some g) :
      q = p ∧ g = f ∨ q ≠ p ∧ g ≠ f := by
    by_cases hq : q = p
    · subst hq
      rw [hl] at h
      exact .inl ⟨rfl, (Option.some.inj h).symm⟩
    · refine .inr ⟨hq, ?_⟩
      rintro rfl
      exact hq ((hs.table h).2.1.symm.trans (hs.table hl).2.1)
  refine ⟨hpart, ?_, ?_, ?_, ?_, ?_, ?_⟩
  · intro g hg hnot
    have hne : g ≠ f := by
      rintro rfl
      refine hnot ?_
      rw [InTable, hself, hid, htable]
      exact hl
    rw [hother hne]
    refine hc.free_clean (hsize ▸ hg) ?_
    rw [InTable, hother hne, htable] at hnot
    exact hnot
  · intro pin hpin
    rw [htable]
    exact hpinned pin hpin
  · intro q g h
    rw [htable] at h
    rcases hcases h with ⟨rfl, rfl⟩ | ⟨hq, hg⟩
    · rw [hself]
      exact hcount
    · rw [hother hg, hc.count h, List.countP_eq_length_filter,
        List.countP_eq_length_filter, hpins q hq]
  · intro q g h
    rw [htable] at h
    rcases hcases h with ⟨rfl, rfl⟩ | ⟨hq, hg⟩
    · rw [hself]
      exact hdata
    · rw [hother hg]
      exact (hc.resident h).trans (hlast q hq).symm
  · intro q g h hd hch
    rw [htable] at h
    rcases hcases h with ⟨rfl, rfl⟩ | ⟨hq, hg⟩
    · rw [hself] at hd
      exact hclean hd hch
    · rw [hother hg] at hd
      rw [hdisk q hq]
      refine (hc.clean h hd fun pin hpin hpage => hch pin ?_ hpage).trans (hlast q hq).symm
      have hmem : pin ∈ c.pins.filter fun pin => pin.page = q := by simp [hpin, hpage]
      rw [← hpins q hq] at hmem
      exact List.mem_of_mem_filter hmem
  · intro q h
    rw [htable] at h
    have hq : q ≠ p := by
      rintro rfl
      rw [hl] at h
      cases h
    rw [hdisk q hq]
    exact (hc.absent h).trans (hlast q hq).symm

theorem filter_erase_of_ne {pins : List Pin} {pin : Pin} (hq : pin.page ≠ q) :
    (pins.erase pin).filter (fun pin => pin.page = q) = pins.filter fun pin => pin.page = q := by
  rw [← List.erase_filter, List.erase_of_not_mem]
  simp [hq]

theorem fetchPage (hc : Coherent c lost) (hp : p.pageNo ≠ INVALID_PAGE_ID) :
    Coherent ((ClientOp.fetchPage p).apply c) lost := by
  have hs := hc.partition
  cases hl : c.pool.pageTable.lookup p with
  | some f =>
    simp only [ClientOp.apply, fetchPage_hit hl]
    refine hc.touch hl (hs.hit f) rfl rfl rfl (hs.table hl).2.1 (fun _ _ => rfl) ?_ ?_ ?_
      (fun _ _ => rfl) (hc.resident hl) ?_
    · intro pin hpin
      rcases List.mem_cons.1 hpin with rfl | hpin
      · exact hl
      · exact hc.pinned pin hpin
    · simp [hc.count hl]
    · intro q hq
      simp [hq.symm]
    · intro hd hch
      exact hc.clean hl hd fun pin hpin => hch pin (List.mem_cons_of_mem _ hpin)
  | none =>
    cases hv : c.pool.findVictimPage with
    | none =>
      simp only [ClientOp.apply, fetchPage_none hl hv]
      exact hc
    | some w =>
      obtain ⟨hf, h0, -⟩ := hs.victim hv
      obtain ⟨hsome, hload⟩ := fetchPage_miss hl hv
      have hlast := hc.evicted_eq hf h0 (.inl hl)
      have hpair : c.pool.fetchPage p = ((c.pool.fetchPage p).1, some w.1) := Prod.ext rfl hsome
      simp only [ClientOp.apply]
      rw [hpair]
      exact hc.load hload hp hl (fun _ _ => rfl) hlast fun _ => hlast

theorem newPage (hc : Coherent c lost) {fd : ℤ} (hlegal : (ClientOp.newPage fd).Legal c) :
    Coherent ((ClientOp.newPage fd).apply c) lost := by
  cases hv : c.pool.findVictimPage with
  | none =>
    simp only [ClientOp.apply, newPage_none fd hv]
    exact hc
  | some w =>
    obtain ⟨hsome, hload⟩ := newPage_some fd hv
    have hpair : c.pool.newPage fd = ((c.pool.newPage fd).1, some w.1) := Prod.ext rfl hsome
    simp only [ClientOp.apply]
    rw [hpair]
    refine hc.load hload hlegal.1 hlegal.2 (fun q hq => ?_) ?_ (fun h => by cases h)
    · rw [Function.update_of_ne hq]
    · rw [Function.update_self]

theorem write (hc : Coherent c lost) {pin : Pin} (hpin : pin ∈ c.pins) (data : Block) :
    Coherent ((ClientOp.write pin data).apply c) lost := by
  have hs := hc.partition
  have hl := hc.pinned pin hpin
  refine hc.touch hl ?_ rfl rfl rfl (hs.table hl).2.1 (fun _ _ => rfl) ?_ ?_ ?_ ?_ ?_ ?_
  · exact hs.congr rfl rfl rfl rfl fun g => ⟨setFrame_id (by rfl) g, setFrame_pinCount (by rfl) g⟩
  · intro x hx
    rcases List.mem_cons.1 hx with rfl | hx
    · exact hl
    · exact hc.pinned x (List.mem_of_mem_erase hx)
  · have hpos : 0 < c.pins.countP fun x => x.page = pin.page :=
      List.countP_pos_iff.2 ⟨pin, hpin, by simp⟩
    simp [List.countP_erase, hpin, hc.count hl]
    omega
  · intro q hq
    rw [List.filter_cons_of_neg (by simpa using hq.symm), filter_erase_of_ne hq.symm]
  · intro q hq
    rw [Function.update_of_ne hq]
  · rw [Function.update_self]
  · intro _ hch
    exact absurd (hch _ List.mem_cons_self rfl) (by simp)

theorem unpinPage (hc : Coherent c lost) {pin : Pin} {d : Bool} (hpin : pin ∈ c.pins)
    (hd : pin.changed → d) : Coherent ((ClientOp.unpinPage pin d).apply c) lost := by
  have hs := hc.partition
  have hl := hc.pinned pin hpin
  have hpos : 0 < c.pins.countP fun x => x.page = pin.page :=
    List.countP_pos_iff.2 ⟨pin, hpin, by simp⟩
  rw [← hc.count hl] at hpos
  simp only [ClientOp.apply, unpinPage_eq d hl hpos]
  refine hc.touch hl (hs.unpin (hs.inTable_of_lookup hl) hpos _) rfl rfl rfl (hs.table hl).2.1
    (fun _ _ => rfl) ?_ ?_ ?_ (fun _ _ => rfl) (hc.resident hl) ?_
  · exact fun x hx => hc.pinned x (List.mem_of_mem_erase hx)
  · simp [List.countP_erase, hpin, hc.count hl]
  · exact fun q hq => filter_erase_of_ne hq.symm
  · intro hclean hch
    obtain ⟨rfl, hclean⟩ : d = false ∧ (c.pool.pages pin.frame).isDirty = false := by
      simpa using hclean
    -- the pin given back was not one that changed the page, so none is
    refine hc.clean hl hclean fun x hx hpage => ?_
    by_cases heq : x = pin
    · subst heq
      simpa using hd
    · exact hch x ((List.mem_erase_of_ne heq).2 hx) hpage

theorem unpinIdle (hc : Coherent c lost) (d : Bool) (h : ∀ pin ∈ c.pins, pin.page ≠ p) :
    Coherent ((ClientOp.unpinIdle p d).apply c) lost := by
  have hidle : c.pool.unpinPage p d = (c.pool, false) := by
    refine unpinPage_idle d fun f hl => ?_
    rw [hc.count hl, List.countP_eq_zero]
    simpa using h
  simp only [ClientOp.apply, hidle]
  exact hc

theorem writeBack (hc : Coherent c lost) (hl : c.pool.pageTable.lookup p = some f) :
    Coherent { c with pool := c.pool.writeBack p f } lost := by
  have hs := hc.partition
  have hblocks : (c.pool.writeBack p f).disk.blocks =
      Function.update c.pool.disk.blocks p (c.pool.pages f).data := rfl
  refine hc.touch hl (hs.writeBack p f) rfl rfl rfl (hs.table hl).2.1 (fun q hq => ?_) hc.pinned
    (hc.count hl) (fun _ _ => rfl) (fun _ _ => rfl) (hc.resident hl) fun _ _ => ?_
  · rw [hblocks, Function.update_of_ne hq]
  · rw [hblocks, Function.update_self, hc.resident hl]

theorem flushPage (hc : Coherent c lost) (p : PageId) :
    Coherent ((ClientOp.flushPage p).apply c) lost := by
  simp only [ClientOp.apply, BufferPool.flushPage]
  split
  · exact hc
  · rename_i f hl
    exact hc.writeBack hl

/-- The flush loops: every round writes back a page that is resident, or does nothing. -/
theorem foldl_writeBack (hc : Coherent c lost) (C : BufferPool → PageId → FrameId → Prop)
    [∀ s p f, Decidable (C s p f)] (entries : List (Sigma fun _ : PageId => FrameId))
    (h : ∀ e ∈ entries, c.pool.pageTable.lookup e.1 = some e.2) :
    Coherent { c with
      pool := entries.foldl (fun s e => if C s e.1 e.2 then s.writeBack e.1 e.2 else s)
        c.pool } lost := by
  induction entries generalizing c with
  | nil => exact hc
  | cons e entries ih =>
    rw [List.foldl_cons]
    have hrest (x) (hx : x ∈ entries) := h x (List.mem_cons_of_mem _ hx)
    split
    · exact ih (c := { c with pool := c.pool.writeBack e.1 e.2 })
        (hc.writeBack (h e List.mem_cons_self)) hrest
    · exact ih hc hrest

theorem lookup_of_mem_entries {t : AList fun _ : PageId => FrameId}
    {e : Sigma fun _ : PageId => FrameId}
    (h : e ∈ t.entries) : t.lookup e.1 = some e.2 :=
  List.mem_dlookup_iff t.nodupKeys |>.2 h

theorem writePage (hc : Coherent c lost) (hl : c.pool.pageTable.lookup p = some f) :
    Coherent { c with pool := c.pool.writePage p (c.pool.pages f).data } lost := by
  have hs := hc.partition
  have hblocks : (c.pool.writePage p (c.pool.pages f).data).disk.blocks =
      Function.update c.pool.disk.blocks p (c.pool.pages f).data := rfl
  refine hc.touch hl (hs.writePage p _) rfl rfl (Function.update_eq_self f _).symm (hs.table hl).2.1
    (fun q hq => ?_) hc.pinned (hc.count hl) (fun _ _ => rfl) (fun _ _ => rfl) (hc.resident hl)
    fun _ _ => ?_
  · rw [hblocks, Function.update_of_ne hq]
  · rw [hblocks, Function.update_self, hc.resident hl]

/-- A page that leaves the pool unwritten is read from the disk afterwards, and no pin on it is
left. -/
theorem drop (hc : Coherent c lost) (hl : c.pool.pageTable.lookup p = some f) (pins : ℕ) :
    Coherent { pool := c.pool.release p f pins, pins := c.pins.filter fun pin => pin.page ≠ p,
               last := Function.update c.last p (c.pool.disk.blocks p) } lost := by
  have hs := hc.partition
  have hpages {g : FrameId} (hg : g ≠ f) : (c.pool.release p f pins).pages g = c.pool.pages g :=
    Function.update_of_ne hg _ _
  have hlookup {q : PageId} {g : FrameId}
      (h : (c.pool.release p f pins).pageTable.lookup q = some g) :
      q ≠ p ∧ c.pool.pageTable.lookup q = some g ∧ g ≠ f := by
    rw [release_lookup] at h
    split at h
    · cases h
    · rename_i hq
      refine ⟨hq, h, ?_⟩
      rintro rfl
      exact hq ((hs.table h).2.1.symm.trans (hs.table hl).2.1)
  refine ⟨hs.release hl pins, ?_, ?_, ?_, ?_, ?_, ?_⟩
  · intro g hg hnot
    by_cases hgf : g = f
    · subst hgf
      simp [BufferPool.release, setFrame]
    · rw [hpages hgf]
      exact hc.free_clean hg (mt (release_inTable_of_ne hl pins hgf).2 hnot)
  · intro pin hpin
    obtain ⟨hpin, hne⟩ := List.mem_filter.1 hpin
    rw [release_lookup, if_neg (by simpa using hne)]
    exact hc.pinned pin hpin
  · intro q g h
    obtain ⟨hq, h, hg⟩ := hlookup h
    rw [hpages hg, hc.count h, List.countP_filter]
    refine List.countP_congr fun pin _ => ?_
    simp only [ne_eq, decide_not, Bool.and_eq_true, decide_eq_true_eq, Bool.not_eq_true',
      decide_eq_false_iff_not]
    exact ⟨fun heq => ⟨heq, heq ▸ hq⟩, fun heq => heq.1⟩
  · intro q g h
    obtain ⟨hq, h, hg⟩ := hlookup h
    rw [hpages hg]
    exact (hc.resident h).trans (Function.update_of_ne hq _ _).symm
  · intro q g h hd hch
    obtain ⟨hq, h, hg⟩ := hlookup h
    rw [hpages hg] at hd
    refine (hc.clean h hd fun pin hpin hpage => ?_).trans (Function.update_of_ne hq _ _).symm
    refine hch pin (List.mem_filter.2 ⟨hpin, ?_⟩) hpage
    simpa [hpage] using hq
  · intro q h
    rw [release_lookup] at h
    split at h
    · next hq =>
      rw [hq]
      exact (Function.update_self p (c.pool.disk.blocks p) c.last).symm
    · next hq => exact (hc.absent h).trans (Function.update_of_ne hq _ _).symm

/-- A page without pins whose last data is on disk may go. -/
theorem release (hc : Coherent c lost) (hl : c.pool.pageTable.lookup p = some f)
    (h0 : (c.pool.pages f).pinCount = 0) (hdisk : c.pool.disk.blocks p = c.last p) (pins : ℕ) :
    Coherent { c with pool := c.pool.release p f pins } lost := by
  have hdrop := hc.drop hl pins
  rw [hdisk, Function.update_eq_self, List.filter_eq_self.2] at hdrop
  · exact hdrop
  · intro pin hpin
    simpa using hc.no_pin hl h0 pin hpin

theorem deletePage (hc : Coherent c lost) (p : PageId) :
    Coherent ((ClientOp.deletePage p).apply c) lost := by
  simp only [ClientOp.apply, BufferPool.deletePage]
  split
  · exact hc
  · rename_i f hl
    split
    · exact hc
    · rename_i h0
      have h0 : (c.pool.pages f).pinCount = 0 := by simpa using h0
      dsimp only
      split
      · refine (hc.writePage hl).release hl h0 ?_ _
        change Function.update _ p _ p = _
        rw [Function.update_self, hc.resident hl]
      · rename_i hd
        have hpins := hc.no_pin hl h0
        refine hc.release hl h0 ?_ _
        exact hc.clean hl (by simpa using hd) fun pin hpin hpage => absurd hpage (hpins pin hpin)

theorem step (h : Step c op c') (hc : Coherent c lost) : Coherent c' lost := by
  obtain ⟨hlegal, rfl⟩ := h
  cases op with
  | fetchPage p => exact hc.fetchPage hlegal
  | newPage fd => exact hc.newPage hlegal
  | write pin data => exact hc.write hlegal data
  | unpinPage pin d => exact hc.unpinPage hlegal.1 hlegal.2
  | unpinIdle p d => exact hc.unpinIdle d hlegal
  | flushPage p => exact hc.flushPage p
  | deletePage p => exact hc.deletePage p
  | flushAllPages fd =>
    exact hc.foldl_writeBack (fun _ p _ => p.fd = fd) _ fun e he => lookup_of_mem_entries he
  | flushAllDirtyPages =>
    exact hc.foldl_writeBack (fun s _ f => (s.pages f).isDirty) _ fun e he =>
      lookup_of_mem_entries he

theorem run {n : ℕ} {junkFd : FrameId → ℤ} {disk : DiskManager}
    (h : Run Step { pool := BufferPool.init n junkFd disk, last := disk.blocks } ops c) :
    Coherent c :=
  Run.invariant (P := fun c => Coherent c) (fun _ _ _ hstep hc => hc.step hstep) h
    (init n junkFd disk)

end Coherent

/-- What a page reads as: its frame if it is resident, its block on disk otherwise. -/
def reads (c : PoolClients) (p : PageId) : Block :=
  match c.pool.pageTable.lookup p with
  | some f => (c.pool.pages f).data
  | none => c.pool.disk.blocks p

theorem Coherent.reads_eq (hc : Coherent c lost) (p : PageId) : c.reads p = c.last p := by
  unfold reads
  split
  · rename_i f hl
    exact hc.resident hl
  · rename_i hl
    exact hc.absent hl

/-- Only the page that an operation writes gets new last data. -/
theorem last_apply (c : PoolClients) (h : op.writes c ≠ some p) :
    (op.apply c).last p = c.last p := by
  cases op with
  | fetchPage q =>
    simp only [ClientOp.apply]
    split <;> rfl
  | newPage fd =>
    simp only [ClientOp.apply]
    split
    · rename_i pool f heq
      simp only [ClientOp.writes, heq, Option.map_some] at h
      exact Function.update_of_ne (fun hp => h (congrArg some hp.symm)) _ _
    · rfl
  | write pin data =>
    exact Function.update_of_ne (fun hp => h (congrArg some hp.symm)) _ _
  | unpinPage => rfl
  | unpinIdle => rfl
  | flushPage => rfl
  | deletePage => rfl
  | flushAllPages => rfl
  | flushAllDirtyPages => rfl

/-- The page that `fetch_page` returns holds the last data of the page asked for. -/
theorem Coherent.fetchPage_data (hc : Coherent c lost) (hp : p.pageNo ≠ INVALID_PAGE_ID)
    (h : (c.pool.fetchPage p).2 = some f) :
    ((c.pool.fetchPage p).1.pages f).data = c.last p := by
  have hpair : c.pool.fetchPage p = ((c.pool.fetchPage p).1, some f) := Prod.ext rfl h
  have hafter := hc.fetchPage hp
  simp only [ClientOp.apply] at hafter
  rw [hpair] at hafter
  exact hafter.resident (hafter.pinned ⟨p, f, false⟩ List.mem_cons_self)

end PoolClients

/-- After every run of clients that keep to the discipline, `fetch_page` returns the data last
written to the page, and no operation changes what the pages read as that it does not write. -/
theorem pool_coherent_of_run {n : ℕ} {junkFd : FrameId → ℤ} {disk : DiskManager}
    {ops : List ClientOp} {c : PoolClients}
    (h : Run PoolClients.Step { pool := BufferPool.init n junkFd disk, last := disk.blocks }
      ops c) :
    (∀ p f, p.pageNo ≠ INVALID_PAGE_ID → (c.pool.fetchPage p).2 = some f →
      ((c.pool.fetchPage p).1.pages f).data = c.last p) ∧
    (∀ op c' p, PoolClients.Step c op c' → op.writes c ≠ some p → c'.reads p = c.reads p) := by
  have hc := PoolClients.Coherent.run h
  refine ⟨fun p f hp hf => hc.fetchPage_data hp hf, fun op c' p hstep hw => ?_⟩
  have hc' := hc.step hstep
  rw [hc'.reads_eq, hc.reads_eq, hstep.2]
  exact PoolClients.last_apply c hw

/-- With one frame only: page 0 is made, filled with ones and unpinned, page 1 takes its frame, and
page 0 is still read as ones. -/
theorem pool_coherent_one_frame :
    ∃ c : PoolClients, ∃ f, c.last ⟨3, 0⟩ = (fun _ => 1) ∧
      c.pool.pageTable.lookup ⟨3, 0⟩ = none ∧ (c.pool.fetchPage ⟨3, 0⟩).2 = some f ∧
      ((c.pool.fetchPage ⟨3, 0⟩).1.pages f).data = c.last ⟨3, 0⟩ := by
  let disk : DiskManager := ⟨fun _ => Block.zero, fun _ => 0⟩
  have hrun : Run PoolClients.Step
      { pool := BufferPool.init 1 (fun _ => 0) disk, last := disk.blocks }
      [.newPage 3, .write ⟨⟨3, 0⟩, 0, true⟩ fun _ => 1,
        .unpinPage ⟨⟨3, 0⟩, 0, true⟩ true, .newPage 3, .unpinPage ⟨⟨3, 1⟩, 0, true⟩ true] _ :=
    .cons ⟨⟨by decide, rfl⟩, rfl⟩ (.cons ⟨List.mem_cons_self, rfl⟩
      (.cons ⟨⟨List.mem_cons_self, fun _ => rfl⟩, rfl⟩ (.cons ⟨⟨by decide, rfl⟩, rfl⟩
        (.cons ⟨⟨List.mem_cons_self, fun _ => rfl⟩, rfl⟩ (.nil _)))))
  exact ⟨_, 0, rfl, rfl, rfl, (pool_coherent_of_run hrun).1 _ _ (by decide) rfl⟩

end Rmdb
