import Rmdb.Index.TreeRefines

/-!
# Scans of the index that the calls build

An ordered tree with its chain of leaves meets what `IxScan` needs.  So in every index that a run of
`insert_entry` and `delete_entry` reaches, a scan between two bounds lists what the reference map
has between them, in the order of the keys.  The bounds are open or closed, as those of
`IndexScanExecutor::beginTuple` are.

The two positions are looked up one by one.  If a key lies before the lower one and not before the
upper one, the lower position comes after the upper one, and the scan runs past it to the end of the
last leaf, where it fails.
-/

namespace Rmdb

open Levels

variable {K : Type} [LinearOrder K]

namespace IxIndexHandle

/-! ## Ordered trees -/

section Ordered

variable {f : IxIndexHandle K} {L : Layout} {T : Set ℤ} {ht : ℤ → ℕ} {lev : ℕ → List ℤ}
  {i : ℕ} {p q : ℤ}

omit [LinearOrder K] in
/-- A page below the root is in the tree. -/
theorem Closed.mem_of_below (h : f.Closed T ht) (hp : p ∈ T) (hq : f.Below p q) : q ∈ T := by
  induction hq with
  | refl => exact hp
  | tail _ hkid ih => exact (h.kid _ ih hkid.1 _ hkid.2).1

/-- The pages below a page of a level are in the levels below. -/
theorem level_of_below (hb : f.Balanced T ht none) (hf : TreeInv f (ht f.rootPage) lev none)
    (hi : i ≤ ht f.rootPage) (hp : p ∈ lev i) (hq : f.Below p q) :
    ht q ≤ ht f.rootPage ∧ q ∈ lev (ht q) := by
  induction hq with
  | refl =>
    obtain ⟨-, rfl⟩ := hb.closed.placed hf.shaped hi hp
    exact ⟨hi, hp⟩
  | @tail b c hbelow hkid ih =>
    obtain ⟨hle, hmem⟩ := ih
    obtain ⟨hbT, -⟩ := hb.closed.placed hf.shaped hle hmem
    obtain ⟨-, -, hheight⟩ := hb.closed.kid b hbT hkid.1 c hkid.2
    obtain ⟨e, he, rfl⟩ := List.mem_map.1 hkid.2
    rw [← hheight] at hle hmem
    exact ⟨by omega, hf.shaped.mem_child (by omega) hmem he⟩

/-- The pages of the levels are below the root. -/
theorem below_of_level (hf : TreeInv f (ht f.rootPage) lev none) (hi : i ≤ ht f.rootPage)
    (hp : p ∈ lev i) : f.Below f.rootPage p := by
  induction hd : ht f.rootPage - i generalizing i p with
  | zero =>
    obtain rfl : i = ht f.rootPage := by omega
    rw [hf.shaped.top, List.mem_singleton] at hp
    rw [hp]
    exact .refl
  | succ d ih =>
    have hlt : i < ht f.rootPage := by omega
    obtain ⟨q, A, B, u, e, v, hlev, hpairs, rfl⟩ := hf.shaped.exists_parent hlt hp
    have hq : q ∈ lev (i + 1) := by
      rw [hlev]
      simp
    refine (ih (i := i + 1) hlt hq (by omega)).tail ⟨?_, List.mem_map_of_mem (by rw [hpairs]; simp)⟩
    rw [hf.leaf (i + 1) hlt q hq]
    simp

/-- The search for a key of a leaf comes through every page above the leaf. -/
theorem routed_of_below (hf : TreeInv f (ht f.rootPage) lev none) (hi : i ≤ ht f.rootPage)
    (hp : p ∈ lev i)
    (hq : f.Below p q) (hleaf : f.leafOf q = true) {d : K × Rid} (hd : d ∈ f.pairs q) :
    Routed pageOf f.pairs (ht f.rootPage) lev i p d.1 := by
  induction hq using Relation.ReflTransGen.head_induction_on generalizing i with
  | refl =>
    rw [hf.leaf i hi q hp, decide_eq_true_eq] at hleaf
    subst hleaf
    exact hf.ordered.routed_leaf hf.shaped hp hd
  | @head b c hkid hbelow ih =>
    have hinner := hkid.1
    rw [hf.leaf i hi b hp, decide_eq_false_iff_not] at hinner
    obtain ⟨j, rfl⟩ := Nat.exists_eq_succ_of_ne_zero hinner
    obtain ⟨e, he, rfl⟩ := List.mem_map.1 hkid.2
    obtain ⟨u, v, hpairs⟩ := List.append_of_mem he
    exact hf.ordered.routed_parent hf.shaped hi hp hpairs
      (ih (Nat.le_of_succ_le hi) (hf.shaped.mem_child hi hp he))

/-- An ordered tree with its chain of leaves. -/
theorem Laid.orderedIndex (h : f.Laid L) (hchain : f.LeafChain (L.level 0)) :
    f.OrderedIndex (L.level 0) := by
  obtain ⟨⟨T, hb⟩, hf⟩ := h
  have hroot := hf.shaped.root_mem
  have hmem (p : ℤ) (hp : f.Below f.rootPage p) : p ∈ T := hb.closed.mem_of_below hb.closed.root hp
  have hlevel (p : ℤ) (hp : f.Below f.rootPage p) := level_of_below hb hf le_rfl hroot hp
  have hinner (p : ℤ) (hp : f.Below f.rootPage p) (hleaf : f.leafOf p = false) :
      0 < L.height p := by
    rw [hf.leaf _ (hlevel p hp).1 p (hlevel p hp).2, decide_eq_false_iff_not] at hleaf
    exact Nat.pos_of_ne_zero hleaf
  refine
    { pages := fun p hp => ?_
      tree := ⟨L.height, fun p c hp hkid => ?_⟩
      inner := fun p hp hleaf => ?_
      separators := fun p hp hleaf => ?_
      within := fun p hp hleaf u e v hpairs q hq hqleaf d hd => ?_
      leaves := fun p => ⟨fun hp => ⟨?_, ?_⟩, fun hp => ?_⟩
      nodup := hf.shaped.nodup 0 (Nat.zero_le _)
      first := hchain.first
      last := hchain.last
      next := ?_
      increasing := hf.ordered.sorted_leaves hf.shaped
      nonempty := fun p hp hne => ?_ }
  · have := hb.closed.bound p (hmem p hp)
    omega
  · have := (hb.closed.kid p (hmem p hp) hkid.1 c hkid.2).2.2
    omega
  · exact List.ne_nil_of_length_pos (by
      have := (hb.filled p (hmem p hp) (Option.some_ne_none p)).two hleaf
      omega)
  · exact hf.ordered.sorted_node hf.shaped (hinner p hp hleaf) (hlevel p hp).1 (hlevel p hp).2
  · obtain ⟨hle, hpLevel⟩ := hlevel p hp
    obtain ⟨j, hj⟩ := Nat.exists_eq_add_one_of_ne_zero (hinner p hp hleaf).ne'
    rw [hj] at hle hpLevel
    have hkid := hf.shaped.mem_child hle hpLevel (e := e) (by rw [hpairs]; simp)
    have hrouted := routed_of_below hf (Nat.le_of_succ_le hle) hkid hq hqleaf hd
    obtain ⟨A, B, hlev⟩ := List.append_of_mem hpLevel
    have hE : flat f.pairs (L.level (j + 1)) = (flat f.pairs A ++ u) ++
        e :: (v ++ flat f.pairs B) := by
      rw [hlev, flat_append, flat_cons, hpairs]
      simp only [List.append_assoc, List.cons_append]
    obtain ⟨hX, hY⟩ := (hf.shaped.routed_iff hle hE).1 hrouted
    refine ⟨fun hu => hX.resolve_left (List.append_ne_nil_of_right_ne_nil _ hu),
      fun e' he' => hY e' ?_⟩
    exact List.mem_append_left _ (List.mem_of_mem_head? he')
  · exact below_of_level hf (Nat.zero_le _) hp
  · rw [hf.leaf 0 (Nat.zero_le _) p hp]
    rfl
  · obtain ⟨hle, hpLevel⟩ := hlevel p hp.1
    have hleaf := hp.2
    rw [hf.leaf _ hle p hpLevel, decide_eq_true_eq] at hleaf
    rwa [hleaf] at hpLevel
  · have hring := hchain.linked
    have hleaves : (L.level 0).IsChain fun p q => f.nextOf p = q ∧ f.prevOf q = p :=
      hring.infix ⟨[IX_LEAF_HEADER_PAGE], [IX_LEAF_HEADER_PAGE], rfl⟩
    exact hleaves.imp fun _ _ hlink => hlink.1
  · obtain ⟨hpT, -⟩ := hb.closed.placed hf.shaped (Nat.zero_le _) hp
    exact List.ne_nil_of_length_pos (hb.pos (hb.filled p hpT (Option.some_ne_none p)) (.inl hne))

end Ordered

/-! ## Bounds -/

section Bounds

variable {K : Type} [Ord K] (f : IxIndexHandle K) (isOpen : Bool) (key : K)

/-- The lower position of a scan. -/
def lowerIid : Option Iid := if isOpen then f.upperBound key else f.lowerBound key

/-- The upper position of a scan. -/
def upperIid : Option Iid := if isOpen then f.lowerBound key else f.upperBound key

end Bounds

section Scan

variable {f : IxIndexHandle K} {chain : List ℤ} {n m : ℕ} {iid lower upper : Iid}
  {isOpen : Bool} {key k : K}

/-- A key lies before a lower bound, to which it compares as `o`. -/
def before (isOpen : Bool) (o : Ordering) : Bool := if isOpen then o.isLE else o.isLT

def beforeLower (isOpen : Bool) (key k : K) : Bool := before isOpen (compare k key)

/-- The key lies before the end of an upper bound. -/
def beforeUpper (isOpen : Bool) (key k : K) : Bool := before (!isOpen) (compare k key)

theorem beforeUpper_eq : beforeUpper isOpen key k = beforeLower (!isOpen) key k := rfl

theorem downward_beforeLower {l : List (K × Rid)} (h : Sorted l) :
    Blocks.Downward (fun e => beforeLower isOpen key e.1) l := by
  cases isOpen with
  | false => exact downward_lt h
  | true => exact downward_le h

theorem downward_beforeUpper {l : List (K × Rid)} (h : Sorted l) :
    Blocks.Downward (fun e => beforeUpper isOpen key e.1) l := downward_beforeLower h

namespace OrderedIndex

theorem exists_lowerIid (h : f.OrderedIndex chain) (isOpen : Bool) (key : K) :
    ∃ iid, f.lowerIid isOpen key = some iid ∧
    AtEntry f chain ((chain.flatMap f.pairs).takeWhile fun e =>
      beforeLower isOpen key e.1).length iid := by
  cases isOpen with
  | false => exact h.exists_lowerBound key
  | true => exact h.exists_upperBound key

theorem exists_upperIid (h : f.OrderedIndex chain) (isOpen : Bool) (key : K) :
    ∃ iid, f.upperIid isOpen key = some iid ∧
    AtEntry f chain ((chain.flatMap f.pairs).takeWhile fun e =>
      beforeUpper isOpen key e.1).length iid := by
  simp only [beforeUpper_eq]
  cases isOpen with
  | false => exact h.exists_upperBound key
  | true => exact h.exists_lowerBound key

omit [LinearOrder K] in
/-- Behind all entries a leaf has no further one. -/
theorem size_le_slotNo (hat : AtEntry f chain n iid) (hn : n = (chain.flatMap f.pairs).length) :
    (f.pages iid.pageNo).size ≤ iid.slotNo := by
  obtain ⟨A, B, hchain, hnum, hslot⟩ := hat
  rcases hslot with hslot | ⟨hslot, -⟩
  · have hslot : iid.slotNo < (f.pairs iid.pageNo).length := hslot
    rw [hn, hchain] at hnum
    simp only [List.flatMap_append, List.flatMap_cons, List.length_append] at hnum
    omega
  · exact hslot.ge

/-- The position is behind the `m`-th entry. -/
def Behind (f : IxIndexHandle K) (chain : List ℤ) (m : ℕ) (iid : Iid) : Prop :=
  ∃ n, m < n ∧ AtEntry f chain n iid

theorem Behind.ne (h : f.OrderedIndex chain) (hupper : AtEntry f chain m upper)
    (hb : Behind f chain m iid) : iid ≠ upper := by
  rintro rfl
  obtain ⟨n, hn, hat⟩ := hb
  exact hn.ne (hupper.number_unique h.nodup hat)

omit [LinearOrder K] in
/-- What is found there is an entry after the first `m`. -/
theorem Behind.getRid {rid : Rid} (hb : Behind f chain m iid) (hget : f.getRid iid = some rid) :
    ∃ e ∈ (chain.flatMap f.pairs).drop m, e.2 = rid := by
  obtain ⟨n, hn, hat⟩ := hb
  have hlt : n < (chain.flatMap f.pairs).length := by
    refine lt_of_le_of_ne hat.le fun hn => ?_
    rw [IxIndexHandle.getRid, if_pos (size_le_slotNo hat hn)] at hget
    cases hget
  rw [getRid_eq hat hlt, List.getElem?_map, List.getElem?_eq_getElem hlt] at hget
  refine ⟨(chain.flatMap f.pairs)[n], List.mem_of_getElem? (i := n - m) ?_, Option.some.inj hget⟩
  rw [List.getElem?_drop, Nat.add_sub_cancel' hn.le, List.getElem?_eq_getElem hlt]

/-- The scan goes on behind the `m`-th entry. -/
theorem Behind.next {iid' : Iid} (h : f.OrderedIndex chain) (hupper : AtEntry f chain m upper)
    (hb : Behind f chain m iid) (hnext : f.scanNext upper iid = some iid') :
    Behind f chain m iid' := by
  have hne := hb.ne h hupper
  obtain ⟨n, hn, hat⟩ := hb
  rcases hat.le.lt_or_eq with hlt | hfull
  · obtain ⟨iid'', hnext', hat'⟩ := h.exists_scanNext hat hlt hne
    obtain rfl : iid' = iid'' := Option.some.inj (hnext.symm.trans hnext')
    exact ⟨n + 1, Nat.lt_succ_of_lt hn, hat'⟩
  · rw [scanNext, if_pos (.inr (.inr (size_le_slotNo hat hfull)))] at hnext
    cases hnext

/-- A scan that starts behind its upper position does not come to it. -/
theorem not_emits (h : f.OrderedIndex chain) (start : Iid) (hupper : AtEntry f chain m upper)
    (hb : Behind f chain m iid) (rids : List Rid) :
    ¬ (f.ixScan start upper).Emits (fun _ => True) rids iid := by
  induction rids generalizing iid with
  | nil => exact fun hend => hb.ne h hupper (of_decide_eq_true hend.2)
  | cons rid rids ih =>
    rintro ⟨-, -, -, iid', hnext, hrest⟩
    exact ih (hb.next h hupper hnext) hrest

/-- A scan between two bounds gives the entries between them; if an entry lies before the lower
bound and not before the upper one, the scan fails. -/
theorem scan (h : f.OrderedIndex chain) (isOpen isOpen' : Bool) (lo hi : K) :
    ∃ lower upper, f.lowerIid isOpen lo = some lower ∧ f.upperIid isOpen' hi = some upper ∧
      ((∀ e ∈ chain.flatMap f.pairs, beforeLower isOpen lo e.1 = true →
        beforeUpper isOpen' hi e.1 = true) →
        (f.ixScan lower upper).Enumerates (fun _ => True) (((chain.flatMap f.pairs).filter fun e =>
          !beforeLower isOpen lo e.1 && beforeUpper isOpen' hi e.1).map Prod.snd)) ∧
      ∀ e ∈ chain.flatMap f.pairs, beforeLower isOpen lo e.1 = true →
      beforeUpper isOpen' hi e.1 = false →
        ∀ rids, ¬ (f.ixScan lower upper).Enumerates (fun _ => True) rids := by
  obtain ⟨lower, hlower, hatLower⟩ := h.exists_lowerIid isOpen lo
  obtain ⟨upper, hupper, hatUpper⟩ := h.exists_upperIid isOpen' hi
  have hdown : Blocks.Downward (fun e => beforeLower isOpen lo e.1) (chain.flatMap f.pairs) :=
    downward_beforeLower h.increasing
  refine ⟨lower, upper, hlower, hupper, fun hsub _ _ => ⟨lower, rfl, ?_⟩,
    fun e he hbefore hbehind rids henum => ?_⟩
  · rw [← Blocks.drop_take_eq_filter hdown (downward_beforeUpper h.increasing) hsub]
    exact h.emits lower hatUpper hatLower (Blocks.takeWhile_length_le hsub)
  · obtain ⟨_, hrewind, hemits⟩ := henum lower trivial
    cases hrewind
    exact h.not_emits lower hatUpper ⟨_, Blocks.takeWhile_length_lt hdown he hbefore hbehind,
      hatLower⟩ rids hemits

end OrderedIndex

end Scan

/-! ## Runs -/

section Runs

variable {f : IxIndexHandle K} {m : K → Option Rid} {cs : List (TreeCall K)}

/-- An ordered tree with its chain of leaves, which holds the map. -/
def Chained (f : IxIndexHandle K) (m : K → Option Rid) : Prop :=
  ∃ L, f.Laid L ∧ f.LeafChain (L.level 0) ∧ f.Binds L m

theorem chained_createIndex {btreeOrder : ℕ} (h : 4 ≤ btreeOrder + 1) :
    (createIndex K btreeOrder).Chained fun _ => none := by
  refine ⟨_, laid_createIndex h, ⟨?_, rfl, rfl⟩, fun k rid => ?_⟩
  · exact .cons_cons ⟨rfl, rfl⟩ (.cons_cons ⟨rfl, rfl⟩ (.singleton _))
  · rw [entries_createIndex]
    exact iff_of_false List.not_mem_nil fun h => by cases h

/-- Every index that the calls reach is an ordered tree with its chain of leaves. -/
theorem Chained.calls (h : f.Chained m) (hcs : f.neverSplitsStale cs = true)
    (pre : List (TreeCall K))
    (hpre : pre <+: cs) : ∃ f', f.calls pre = some f' ∧ f'.Chained (pre.foldl refCall m) := by
  induction pre generalizing f m cs with
  | nil => exact ⟨f, rfl, h⟩
  | cons c pre ih =>
    obtain ⟨post, rfl⟩ := hpre
    obtain ⟨L, hl, hchain, hm⟩ := h
    obtain ⟨f₁, hf₁⟩ : ∃ f₁, f.call c = some f₁ := by
      obtain ⟨T, hb⟩ := hl.balanced
      obtain ⟨f₁, T₁, ht₁, hf₁, -⟩ := hb.call c
      exact ⟨f₁, hf₁⟩
    rw [List.cons_append, neverSplitsStale, Bool.and_eq_true, Bool.not_eq_true', hf₁] at hcs
    obtain ⟨L', hl', hchain', hm'⟩ := hl.call hm hcs.1 hf₁
    obtain ⟨f', hf', h'⟩ := ih ⟨L', hl', hchain' hchain, hm'⟩ hcs.2 (List.prefix_append pre post)
    refine ⟨f', ?_, h'⟩
    rw [IxIndexHandle.calls, List.foldlM_cons, hf₁]
    exact hf'

end Runs

/-- In a run that never splits a leaf with a stale separator, a scan of an index that is reached,
between an open or closed lower bound and an upper one, gives the record ids that the reference map
has between the bounds, in the order of the keys, unless a key of the map lies before the lower
bound and not before the upper one: then the scan fails.  From `leaf_begin` to `leaf_end` there is
the whole map. -/
theorem scans_list_map (cols : List KeyCol)
    (hlen : ((cols.map KeyCol.len).sum : ℕ) ≤ IX_MAX_COL_LEN)
    (cs : List (TreeCall (Key cols))) (hcs : (createKeyIndex cols).neverSplitsStale cs = true) :
    ∀ pre, pre <+: cs → ∃ f l, (createKeyIndex cols).calls pre = some f ∧ Sorted l ∧
      (∀ k rid, (k, rid) ∈ l ↔ refMap pre k = some rid) ∧
      (f.ixScan f.leafBegin f.leafEnd).Enumerates (fun _ => True) (l.map Prod.snd) ∧
      ∀ (isOpen isOpen' : Bool) (lo hi : Key cols), ∃ lower upper,
        f.lowerIid isOpen lo = some lower ∧ f.upperIid isOpen' hi = some upper ∧
        ((∀ k, refMap pre k ≠ none → beforeLower isOpen lo k = true →
          beforeUpper isOpen' hi k = true) → (f.ixScan lower upper).Enumerates (fun _ => True)
            ((l.filter fun e => !beforeLower isOpen lo e.1 && beforeUpper isOpen' hi e.1).map
              Prod.snd)) ∧
        ∀ k, refMap pre k ≠ none → beforeLower isOpen lo k = true →
        beforeUpper isOpen' hi k = false →
          ∀ rids, ¬ (f.ixScan lower upper).Enumerates (fun _ => True) rids := by
  intro pre hpre
  have horder : 4 ≤ (btreeOrderOf (cols.map KeyCol.len).sum).toNat + 1 := by
    have := two_lt_btreeOrderOf hlen
    omega
  obtain ⟨f, hf, L, hl, hchain, hm⟩ := (chained_createIndex horder).calls hcs pre hpre
  have hindex := hl.orderedIndex hchain
  have hmap (k : Key cols) : refMap pre k ≠ none ↔ ∃ rid, (k, rid) ∈ f.entries L := by
    rw [Option.ne_none_iff_exists']
    exact exists_congr fun rid => (hm k rid).symm
  refine ⟨f, f.entries L, hf, hl.entries_sorted, hm, fun _ _ => ⟨f.leafBegin, rfl, ?_⟩,
    fun isOpen isOpen' lo hi => ?_⟩
  · have hall := hindex.emits f.leafBegin hindex.atEntry_leafEnd hindex.atEntry_leafBegin
      (Nat.zero_le _)
    rwa [List.drop_zero, Nat.sub_zero, List.take_length] at hall
  · obtain ⟨lower, upper, hlower, hupper, hscan, hfail⟩ := hindex.scan isOpen isOpen' lo hi
    refine ⟨lower, upper, hlower, hupper, fun hsub => hscan
      fun e he => hsub e.1 ((hmap e.1).2 ⟨e.2, he⟩),
      fun k hk hbefore hbehind => ?_⟩
    obtain ⟨rid, hrid⟩ := (hmap k).1 hk
    exact hfail (k, rid) hrid hbefore hbehind

/-- Nine keys, in two leaves; without the first three they are in one leaf again. -/
def mergeCalls : List (TreeCall (Key [.char 500])) :=
  ((List.range 9).map fun i => .insertEntry (charKey i) ⟨1, i⟩) ++ (List.range 3).map fun i =>
    .deleteEntry (charKey i)

theorem scans_list_map_merge : (createKeyIndex [.char 500]).neverSplitsStale mergeCalls = true ∧
    ∃ f l, (createKeyIndex [.char 500]).calls mergeCalls = some f ∧ Sorted l ∧
      (∀ k rid, (k, rid) ∈ l ↔ refMap mergeCalls k = some rid) ∧
      (f.ixScan f.leafBegin f.leafEnd).Enumerates (fun _ => True) (l.map Prod.snd) := by
  have hcs : (createKeyIndex [.char 500]).neverSplitsStale mergeCalls = true := by decide +kernel
  obtain ⟨f, l, hf, hl, hmap, hall, -⟩ :=
    scans_list_map [.char 500] (by decide) _ hcs mergeCalls List.prefix_rfl
  exact ⟨hcs, f, l, hf, hl, hmap, hall⟩

end IxIndexHandle

end Rmdb
