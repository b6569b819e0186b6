import Rmdb.Index.PageNumbers

/-!
# The shape of a B+ tree

Every call of `insert_entry` and `delete_entry` returns, and leaves a tree in which all leaves are
at one depth and all pages except the root are at least half full.  Nothing of this depends on how
keys compare.
-/

namespace Rmdb

variable {K : Type}

/-! ## Nodes -/

namespace IxNode

variable {n : IxNode K} {maxSize : ℕ}

theorem insertPairs_of_le {pos : ℕ} {l : List (K × Rid)} (hpos : pos ≤ n.size)
    (hsize : n.size + l.length ≤ maxSize) :
    n.insertPairs maxSize pos l =
      some { n with pairs := n.pairs.take pos ++ l ++ n.pairs.drop pos } :=
  if_pos ⟨hpos, hsize⟩

theorem erasePair_of_lt {pos : ℕ} (hpos : pos < n.size) :
    n.erasePair pos = some { n with pairs := n.pairs.eraseIdx pos } :=
  if_pos hpos

theorem exists_keyAt {i : ℕ} (hi : i < n.size) : ∃ k, n.keyAt i = some k := by
  refine ⟨(n.pairs.get ⟨i, hi⟩).1, ?_⟩
  rw [keyAt, List.getElem?_eq_getElem hi]
  rfl

theorem exists_valueAt {i : ℕ} (hi : i < n.size) : ∃ c, n.valueAt i = some c := by
  refine ⟨(n.pairs.get ⟨i, hi⟩).2.pageNo, ?_⟩
  rw [valueAt, List.getElem?_eq_getElem hi]
  rfl

theorem exists_findChild {c : ℤ} (hc : c ∈ n.pairs.map fun e => e.2.pageNo) :
    ∃ i, n.findChild c = some i ∧ i < n.size := by
  obtain ⟨e, he, hec⟩ := List.mem_map.1 hc
  cases hi : n.findChild c with
  | none =>
    rw [findChild, List.findIdx?_eq_none_iff] at hi
    exact absurd hec (of_decide_eq_false (hi e he))
  | some i => exact ⟨i, rfl, (List.findIdx?_eq_some_iff_getElem.1 hi).1⟩

variable [Ord K]

/-- A node that is not full takes a pair, or has the key already. -/
theorem exists_insert (key : K) (value : Rid) (hsize : n.size < maxSize) :
    ∃ n', n.insert maxSize key value = some n' ∧ (n' = n ∨ n'.size = n.size + 1) := by
  unfold insert
  split
  · exact ⟨n, rfl, .inl rfl⟩
  · have hpos : n.lowerBound key ≤ n.size := bisect_le _ _
    rw [insertPairs_of_le hpos (Nat.succ_le_of_lt hsize)]
    refine ⟨_, rfl, .inr ?_⟩
    simp only [size, List.append_assoc, List.length_append, List.length_take, List.length_drop,
      List.length_singleton]
    rw [size] at hpos
    omega

theorem exists_remove (key : K) :
    ∃ n', n.remove key = some n' ∧ (n' = n ∨ n'.size + 1 = n.size) := by
  unfold remove
  split
  · rename_i hkey
    have hpos : n.lowerBound key < n.size := by
      by_contra hge
      rw [hasKey, List.getElem?_eq_none (Nat.le_of_not_lt hge)] at hkey
      cases hkey
    rw [erasePair_of_lt hpos]
    refine ⟨_, rfl, .inr ?_⟩
    rw [size, List.length_eraseIdx_of_lt hpos]
    rw [size] at hpos ⊢
    omega
  · exact ⟨n, rfl, .inl rfl⟩

/-- The search in an inner page reads one of its pairs. -/
theorem exists_internalLookup (key : K) (hsize : 0 < n.size) :
    ∃ c, n.internalLookup key = some c := by
  have hpos : n.upperBound key ≤ n.size := bisect_le _ _
  exact exists_valueAt (by omega)

end IxNode

namespace IxIndexHandle

/-! ## Sizes -/

/-- A page is neither too full nor too empty. -/
structure Filled (f : IxIndexHandle K) (p : ℤ) : Prop where
  lt : (f.pairs p).length < f.maxSize
  min : p ≠ f.rootPage → f.minSize ≤ (f.pairs p).length
  two : f.leafOf p = false → 2 ≤ (f.pairs p).length

/-- A tree of pages in which every page except `x` is filled. -/
structure Balanced (f : IxIndexHandle K) (T : Set ℤ) (ht : ℤ → ℕ) (x : Option ℤ) : Prop where
  closed : f.Closed T ht
  root : f.parentOf f.rootPage = IX_NO_PAGE
  order : 4 ≤ f.maxSize
  fuel : ∀ p ∈ T, ht p < f.fuel
  filled : ∀ p ∈ T, some p ≠ x → f.Filled p

section Balanced

variable {f f' : IxIndexHandle K} {T : Set ℤ} {ht : ℤ → ℕ} {p : ℤ} {x : Option ℤ}

theorem Balanced.reach (h : f.Balanced T ht x) :
    f.Balanced {p | f.Reach p} ht x ∧ f.Attached {p | f.Reach p} := by
  obtain ⟨hclosed, hattached⟩ := h.closed.reach h.root
  refine ⟨⟨hclosed, h.root, h.order, fun p hp => ?_, fun p hp => ?_⟩, hattached⟩
  · exact h.fuel p (h.closed.mem_of_reach hp)
  · exact h.filled p (h.closed.mem_of_reach hp)

theorem Balanced.minSize_ge (h : f.Balanced T ht x) : 2 ≤ f.minSize := by
  have := h.order
  rw [minSize]
  omega

/-- The page without a parent is the root. -/
theorem Closed.eq_root (h : f.Closed T ht) (ha : f.Attached T) (hp : p ∈ T)
    (hparent : f.parentOf p = IX_NO_PAGE) : p = f.rootPage := by
  by_contra hne
  exact h.ne_no_page (ha.hangs p hp hne).1 hparent

/-- A filled page that is a root or an inner page has pairs. -/
theorem Balanced.pos (h : f.Balanced T ht x) (hp : f.Filled p)
    (hne : p ≠ f.rootPage ∨ f.leafOf p = false) : 0 < (f.pairs p).length := by
  have hmin := h.minSize_ge
  rcases hne with hne | hleaf
  · have := hp.min hne
    omega
  · have := hp.two hleaf
    omega

/-- Every page has as many pairs as before, and the links are the same. -/
structure SameShape (f f' : IxIndexHandle K) : Prop where
  links : SameLinks f f'
  order : f'.btreeOrder = f.btreeOrder
  sizes : ∀ p, (f'.pairs p).length = (f.pairs p).length

theorem SameShape.refl (f : IxIndexHandle K) : SameShape f f := ⟨.refl f, rfl, fun _ => rfl⟩

theorem SameShape.trans {f'' : IxIndexHandle K} (h : SameShape f f') (h' : SameShape f' f'') :
    SameShape f f'' :=
  ⟨h.links.trans h'.links, h'.order.trans h.order, fun p => (h'.sizes p).trans (h.sizes p)⟩

theorem SameShape.filled (h : SameShape f f') (hp : f.Filled p) : f'.Filled p := by
  refine ⟨?_, ?_, ?_⟩
  · rw [h.sizes, maxSize, h.order]
    exact hp.lt
  · rw [h.sizes, minSize, maxSize, h.order, h.links.root]
    exact hp.min
  · rw [h.sizes, h.links.leaf]
    exact hp.two

theorem SameShape.balanced (h : SameShape f f') (hf : f.Balanced T ht x) : f'.Balanced T ht x := by
  refine ⟨h.links.closed hf.closed, ?_, ?_, ?_, fun p hp hx => h.filled (hf.filled p hp hx)⟩
  · rw [h.links.parent, h.links.root]
    exact hf.root
  · rw [maxSize, h.order]
    exact hf.order
  · rw [IxIndexHandle.fuel, h.links.next]
    exact hf.fuel

theorem sameShape_setKey (p : ℤ) (i : ℕ) (key : K) :
    SameShape f (f.setNode p ((f.pages p).setKey i key)) := by
  refine ⟨sameLinks_setKey p i key, rfl, fun q => ?_⟩
  rw [pairs_setNode]
  by_cases hq : q = p
  · rw [hq, Function.update_self, IxNode.setKey, List.length_modify]
    rfl
  · rw [Function.update_of_ne hq]

end Balanced

/-! ## Search and separators -/

section Search

variable {f f' : IxIndexHandle K} {T : Set ℤ} {ht : ℤ → ℕ} {p : ℤ}

theorem exists_descend [Ord K] (key : K) {fuel : ℕ} (h : f.Closed T ht)
    (hinner : ∀ q ∈ T, f.leafOf q = false → 0 < (f.pairs q).length) (hp : p ∈ T)
    (hfuel : ht p < fuel) : ∃ leaf, f.descend key fuel p = some leaf := by
  induction fuel generalizing p with
  | zero => omega
  | succ fuel ih =>
    rw [descend]
    by_cases hleaf : (f.pages p).isLeaf = true
    · exact ⟨p, if_pos hleaf⟩
    · have hinner' : f.leafOf p = false := (Bool.not_eq_true _).mp hleaf
      obtain ⟨c, hc⟩ := IxNode.exists_internalLookup key (hinner p hp hinner')
      obtain ⟨hcT, -, hheight⟩ := h.kid p hp hinner' c (mem_kids_of_valueAt hc)
      obtain ⟨leaf, hdescend⟩ := ih hcT (by omega)
      refine ⟨leaf, ?_⟩
      rw [if_neg hleaf, hc]
      exact hdescend

/-- The search finds a leaf in use. -/
theorem Balanced.exists_leaf [Ord K] (key : K) (h : f.Balanced T ht none) :
    ∃ leaf, f.findLeafPage key = some (some leaf) ∧ f.Reach leaf ∧ f.leafOf leaf = true := by
  have hinner : ∀ q ∈ T, f.leafOf q = false → 0 < (f.pairs q).length := fun q hq hleaf =>
    h.pos (h.filled q hq (Option.some_ne_none q)) (.inr hleaf)
  obtain ⟨leaf, hleaf⟩ := exists_descend key h.closed hinner h.closed.root (h.fuel _ h.closed.root)
  have hfind : f.findLeafPage key = some (some leaf) := by
    rw [findLeafPage, if_neg (h.closed.ne_no_page h.closed.root), hleaf]
    rfl
  exact ⟨leaf, hfind, reach_of_findLeafPage hfind⟩

/-- `maintain_parent` comes to the root. -/
theorem exists_maintainParentLoop [DecidableEq K] {fuel : ℕ} (h : f.Closed T ht) (ha : f.Attached T)
    (hpos : ∀ q ∈ T, q ≠ f.rootPage → 0 < (f.pairs q).length) (hp : p ∈ T)
    (hfuel : ∀ q ∈ T, ht q < ht p + fuel) :
    ∃ f', maintainParentLoop fuel f p = some f' ∧ SameShape f f' := by
  induction fuel generalizing f p with
  | zero =>
    have := hfuel p hp
    omega
  | succ fuel ih =>
    rw [maintainParentLoop]
    by_cases hparent : (f.pages p).parent = IX_NO_PAGE
    · exact ⟨f, if_pos hparent, .refl f⟩
    · have hne : p ≠ f.rootPage := by
        rintro rfl
        exact hparent ha.root
      obtain ⟨hP, hleaf, hkid⟩ := ha.hangs p hp hne
      obtain ⟨rank, hrank, hlt⟩ := IxNode.exists_findChild hkid
      obtain ⟨parentKey, hparentKey⟩ := IxNode.exists_keyAt hlt
      obtain ⟨childKey, hchildKey⟩ := IxNode.exists_keyAt (hpos p hp hne)
      have hheight := (h.kid _ hP hleaf p hkid).2.2
      simp only [if_neg hparent, show (f.pages (f.pages p).parent).findChild p =
        some rank from hrank,
        show (f.pages (f.pages p).parent).keyAt rank = some parentKey from hparentKey, hchildKey,
        Option.bind_eq_bind, Option.bind_some]
      split
      · exact ⟨f, rfl, .refl f⟩
      · have hs := sameShape_setKey (f := f) (f.parentOf p) rank childKey
        have hpos' : ∀ q ∈ T, q ≠ f.rootPage →
            0 < ((f.setNode (f.parentOf p) ((f.pages (f.parentOf p)).setKey rank childKey)).pairs
              q).length :=
          fun q hq hqr => (hs.sizes q).symm ▸ hpos q hq hqr
        obtain ⟨f', hf', hs'⟩ := ih (hs.links.closed h) (hs.links.attached ha) hpos' hP
            fun q hq => by
          have := hfuel q hq
          omega
        exact ⟨f', hf', hs.trans hs'⟩

theorem Balanced.exists_maintainParent [DecidableEq K] {x : Option ℤ} (h : f.Balanced T ht x)
    (ha : f.Attached T) (hpos : ∀ q ∈ T, q ≠ f.rootPage → 0 < (f.pairs q).length) (hp : p ∈ T) :
    ∃ f', f.maintainParent p = some f' ∧ SameShape f f' := by
  refine exists_maintainParentLoop h.closed ha hpos hp fun q hq => ?_
  have := h.fuel q hq
  omega

end Search

/-! ## Insertion -/

section Insert

variable {f f' : IxIndexHandle K} {T : Set ℤ} {ht : ℤ → ℕ} {p : ℤ}

theorem exists_split (hsize : (f.pairs p).length - (f.pairs p).length / 2 ≤ f.maxSize) :
    ∃ f', f.split p = some (f', f.nextPageNo) ∧ f'.btreeOrder = f.btreeOrder := by
  have hmove : 0 + ((f.pages p).pairs.drop ((f.pages p).size / 2)).length ≤ f.maxSize := by
    rw [List.length_drop, Nat.zero_add]
    exact hsize
  unfold IxIndexHandle.split
  simp only [Option.bind_eq_bind]
  rw [IxNode.insertPairs_of_le (Nat.zero_le _) hmove, Option.bind_some]
  split
  · refine ⟨_, rfl, ?_⟩
    split
    · rfl
    · rfl
  · refine ⟨_, rfl, ?_⟩
    rw [btreeOrder_maintainChildren]
    rfl

theorem exists_newRoot {old new : ℤ} (horder : 2 ≤ f.maxSize) (ho : old ≠ f.nextPageNo)
    (hn : new ≠ f.nextPageNo) (hold : 0 < (f.pairs old).length) (hnew : 0 < (f.pairs new).length) :
    ∃ f' e e', f.newRoot old new = some f' ∧ f'.btreeOrder = f.btreeOrder ∧
      f'.pairs = Function.update f.pairs f.nextPageNo [e, e'] := by
  have hpages : ((f.createNode.1.setParentPageNo old f.nextPageNo).setParentPageNo new
    f.nextPageNo).pairs = Function.update f.pairs f.nextPageNo [] := by
    rw [pairs_setParentPageNo, pairs_setParentPageNo, pairs_createNode]
  have hkey (q : ℤ) (hq : q ≠ f.nextPageNo) (hpos : 0 < (f.pairs q).length) : ∃ k,
      (((f.createNode.1.setParentPageNo old f.nextPageNo).setParentPageNo new f.nextPageNo).pages
        q).keyAt 0 = some k := by
    refine IxNode.exists_keyAt ?_
    show 0 < (IxIndexHandle.pairs _ q).length
    rw [hpages, Function.update_of_ne hq]
    exact hpos
  obtain ⟨oldKey, holdKey⟩ := hkey old ho hold
  obtain ⟨newKey, hnewKey⟩ := hkey new hn hnew
  have hfirst : IxNode.insertPairs ⟨IX_NO_PAGE, false, IX_NO_PAGE, IX_NO_PAGE, []⟩ f.maxSize 0
      [(oldKey, ⟨old, -1⟩)] =
        some ⟨IX_NO_PAGE, false, IX_NO_PAGE, IX_NO_PAGE, [(oldKey, ⟨old, -1⟩)]⟩ :=
    IxNode.insertPairs_of_le (Nat.zero_le _) (Nat.le_of_lt horder)
  have hsecond : IxNode.insertPairs
    ⟨IX_NO_PAGE, false, IX_NO_PAGE, IX_NO_PAGE, [(oldKey, ⟨old, -1⟩)]⟩ f.maxSize
      1 [(newKey, ⟨new, -1⟩)] =
        some ⟨IX_NO_PAGE, false, IX_NO_PAGE, IX_NO_PAGE,
          [(oldKey, ⟨old, -1⟩), (newKey, ⟨new, -1⟩)]⟩ :=
    IxNode.insertPairs_of_le (Nat.le_refl 1) horder
  have hmax : ((f.createNode.1.setParentPageNo old f.nextPageNo).setParentPageNo new
    f.nextPageNo).maxSize = f.maxSize := rfl
  unfold IxIndexHandle.newRoot
  simp only [createNode_snd, Option.bind_eq_bind]
  rw [holdKey, Option.bind_some, hnewKey, Option.bind_some, hmax, hfirst, Option.bind_some, hsecond,
    Option.bind_some]
  refine ⟨_, (oldKey, ⟨old, -1⟩), (newKey, ⟨new, -1⟩), rfl, rfl, ?_⟩
  show (IxIndexHandle.setNode _ f.nextPageNo _).pairs = _
  rw [pairs_setNode, hpages, Function.update_idem]

/-- A page and its new right neighbour, both half full, in a tree that is filled otherwise. -/
structure Pending (f : IxIndexHandle K) (T : Set ℤ) (ht : ℤ → ℕ) (old new : ℤ) : Prop where
  splitting : Splitting f T ht old new
  balanced : f.Balanced T ht none
  old_min : f.minSize ≤ (f.pairs old).length
  new_min : f.minSize ≤ (f.pairs new).length
  top : ∀ p ∈ T, p ≠ new → f.parentOf p = IX_NO_PAGE → p = f.rootPage

/-- A page with one pair too many is split. -/
theorem Balanced.split (h : f.Balanced T ht (some p)) (hp : p ∈ T)
    (hsize : (f.pairs p).length = f.maxSize)
    (htop : ∀ q ∈ T, f.parentOf q = IX_NO_PAGE → q = f.rootPage) (hs : Splits f p f')
    (horder : f'.btreeOrder = f.btreeOrder) :
    Pending f' (insert f.nextPageNo T) (Function.update ht f.nextPageNo (ht p)) p f.nextPageNo := by
  have hfour := h.order
  have hnew : ∀ q ∈ T, q ≠ f.nextPageNo := fun q hq => (h.closed.bound q hq).2.ne
  have hsplitting := h.closed.split h.root hp hs
  have hmax : f'.maxSize = f.maxSize := by
    rw [maxSize, horder, maxSize]
  have hmin : f'.minSize = f.minSize := by
    rw [minSize, hmax, minSize]
  have hleft : (f'.pairs p).length = f.maxSize / 2 := by
    rw [hs.pairs, Function.update_self, List.length_take, hsize]
    omega
  have hright : (f'.pairs f.nextPageNo).length = f.maxSize - f.maxSize / 2 := by
    rw [hs.pairs, Function.update_of_ne (hnew p hp).symm, Function.update_self,
      List.length_drop, hsize]
  have hfuel : f'.fuel = f.fuel + 1 := by
    have := h.closed.bound p hp
    rw [IxIndexHandle.fuel, hs.next, IxIndexHandle.fuel]
    omega
  refine ⟨hsplitting, ⟨hsplitting.closed, hsplitting.root, hmax.symm ▸ hfour, ?_, ?_⟩, ?_, ?_, ?_⟩
  · intro q hq
    rw [hfuel]
    rcases hq with rfl | hq
    · rw [Function.update_self]
      exact Nat.lt_succ_of_lt (h.fuel p hp)
    · rw [Function.update_of_ne (hnew q hq)]
      exact Nat.lt_succ_of_lt (h.fuel q hq)
  · intro q hq _
    by_cases hqp : q = p
    · subst hqp
      refine ⟨?_, fun _ => ?_, fun _ => ?_⟩
      · omega
      · rw [hmin, minSize]
        omega
      · omega
    · rcases hq with rfl | hq
      · refine ⟨?_, fun _ => ?_, fun _ => ?_⟩
        · omega
        · rw [hmin, minSize]
          omega
        · omega
      · have hfilled := h.filled q hq fun heq => hqp (Option.some.inj heq)
        have hpairs : f'.pairs q = f.pairs q := by
          rw [hs.pairs, Function.update_of_ne hqp, Function.update_of_ne (hnew q hq)]
        refine ⟨?_, ?_, ?_⟩
        · rw [hpairs, hmax]
          exact hfilled.lt
        · rw [hpairs, hmin, hs.root]
          exact hfilled.min
        · rw [hpairs, hs.leaf, Function.update_of_ne (hnew q hq)]
          exact hfilled.two
  · rw [hmin, hleft, minSize]
  · rw [hmin, hright, minSize]
    omega
  · intro q hq hqn hparent
    have hqT : q ∈ T := hq.resolve_left hqn
    rw [hs.root]
    refine htop q hqT ?_
    rw [hs.parent] at hparent
    simp only [if_neg hqn] at hparent
    split at hparent
    · have := (h.closed.bound p hp)
      rw [IX_NO_PAGE] at hparent
      omega
    · exact hparent

/-- The new root has two children. -/
theorem Pending.newRoot {old new : ℤ} (h : Pending f T ht old new)
    (hold : f.parentOf old = IX_NO_PAGE) :
    ∃ f', f.newRoot old new = some f' ∧ f'.btreeOrder = f.btreeOrder ∧
      f'.Balanced (insert f.nextPageNo T) (Function.update ht f.nextPageNo (ht old + 1)) none ∧
      ∀ q ∈ T, f'.pairs q = f.pairs q := by
  have hb := h.balanced
  have hfour := hb.order
  have htwo := hb.minSize_ge
  have hmem := h.splitting.old_mem
  have hnew : ∀ q ∈ T, q ≠ f.nextPageNo := fun q hq => (hb.closed.bound q hq).2.ne
  have holdMin := h.old_min
  have hnewMin := h.new_min
  have holdRoot : old = f.rootPage := h.top old hmem h.splitting.ne hold
  obtain ⟨f', e, e', hf', horder, hpairs⟩ := exists_newRoot (by omega) (hnew old hmem)
    (hnew new h.splitting.new_mem) (show 0 < (f.pairs old).length by omega) (by omega)
  obtain ⟨hclosed, hparent⟩ := h.splitting.newRoot hold hf'
  obtain ⟨hroot, hnext, hleaf, -, -⟩ := newRoot_views hf'
  have hmax : f'.maxSize = f.maxSize := by
    rw [maxSize, horder, maxSize]
  have hmin : f'.minSize = f.minSize := by
    rw [minSize, hmax, minSize]
  have hsame : ∀ q ∈ T, f'.pairs q = f.pairs q := fun q hq => by
    rw [hpairs, Function.update_of_ne (hnew q hq)]
  have hfuel : f'.fuel = f.fuel + 1 := by
    have := hb.closed.bound old hmem
    rw [IxIndexHandle.fuel, hnext, IxIndexHandle.fuel]
    omega
  refine ⟨f', hf', horder, ⟨hclosed, hparent, hmax.symm ▸ hfour, ?_, ?_⟩, hsame⟩
  · intro q hq
    rw [hfuel]
    rcases hq with rfl | hq
    · rw [Function.update_self]
      exact Nat.succ_lt_succ (hb.fuel old hmem)
    · rw [Function.update_of_ne (hnew q hq)]
      exact Nat.lt_succ_of_lt (hb.fuel q hq)
  · intro q hq _
    rcases hq with rfl | hq
    · have hlength : (f'.pairs f.nextPageNo).length = 2 := by
        rw [hpairs, Function.update_self]
        rfl
      exact ⟨by omega, fun hne => absurd hroot.symm hne, fun _ => hlength.ge⟩
    · have hfilled := hb.filled q hq (Option.some_ne_none q)
      refine ⟨?_, fun _ => ?_, ?_⟩
      · rw [hsame q hq, hmax]
        exact hfilled.lt
      · rw [hsame q hq, hmin]
        by_cases hqo : q = old
        · rw [hqo]
          exact holdMin
        · exact hfilled.min (holdRoot ▸ hqo)
      · rw [hsame q hq, hleaf, Function.update_of_ne (hnew q hq)]
        exact hfilled.two

/-- The parent with one more child. -/
theorem Pending.insertParent [Ord K] {old new : ℤ} {key : K} {n : IxNode K}
    (h : Pending f T ht old new) (hold : f.parentOf old ≠ IX_NO_PAGE)
    (hn : (f.pages (f.parentOf old)).insert f.maxSize key ⟨new, -1⟩ = some n)
    (hsize : (f.pairs (f.parentOf old)).length ≤ n.size) :
    (f.setNode (f.parentOf old) n).Balanced T ht (some (f.parentOf old)) ∧
      (n.size < f.maxSize → (f.setNode (f.parentOf old) n).Balanced T ht none) ∧
      ∀ q ∈ T, (f.setNode (f.parentOf old) n).parentOf q = IX_NO_PAGE → q = f.rootPage := by
  have hb := h.balanced
  obtain ⟨hP, hheight⟩ := hb.closed.up old h.splitting.old_mem hold
  obtain ⟨hclosed, hparent⟩ := h.splitting.insertParent hold hn
  obtain ⟨hnparent, hnleaf⟩ := insert_fields hn
  have hleafOf : (f.setNode (f.parentOf old) n).leafOf = f.leafOf := by
    rw [leafOf_setNode, hnleaf]
    exact Function.update_eq_self _ f.leafOf
  have hparentOf : (f.setNode (f.parentOf old) n).parentOf = f.parentOf := by
    rw [parentOf_setNode, hnparent]
    exact Function.update_eq_self _ f.parentOf
  have hother : ∀ q ∈ T, q ≠ f.parentOf old → (f.setNode (f.parentOf old) n).Filled q := by
    intro q hq hne
    have hfilled := hb.filled q hq (Option.some_ne_none q)
    refine ⟨?_, ?_, ?_⟩
    · rw [pairs_setNode, Function.update_of_ne hne]
      exact hfilled.lt
    · rw [pairs_setNode, Function.update_of_ne hne]
      exact hfilled.min
    · rw [pairs_setNode, Function.update_of_ne hne, hleafOf]
      exact hfilled.two
  refine ⟨⟨hclosed, hparent, hb.order, hb.fuel, fun q hq hx => ?_⟩,
    fun hlt => ⟨hclosed, hparent, hb.order, hb.fuel, fun q hq _ => ?_⟩, fun q hq hq' => ?_⟩
  · exact hother q hq fun heq => hx (congrArg some heq)
  · by_cases hqP : q = f.parentOf old
    · subst hqP
      have hfilled := hb.filled _ hP (Option.some_ne_none _)
      have hpairs : (f.setNode (f.parentOf old) n).pairs (f.parentOf old) = n.pairs := by
        rw [pairs_setNode, Function.update_self]
      refine ⟨?_, fun hne => ?_, fun hl => ?_⟩
      · rw [hpairs]
        exact hlt
      · rw [hpairs]
        exact (hfilled.min hne).trans hsize
      · rw [hpairs]
        exact (hfilled.two (hleafOf ▸ hl)).trans hsize
    · exact hother q hq hqP
  · rw [hparentOf] at hq'
    refine h.top q hq (fun heq => hold ?_) hq'
    rw [← h.splitting.parent, ← heq, hq']

/-- `insert_into_parent` returns, and leaves the pairs of the leaves as they are. -/
theorem Pending.insertIntoParent [Ord K] (fuel : ℕ) (key : K) {old new : ℤ}
    (h : Pending f T ht old new) (hfuel : ∀ q ∈ T, ht q < ht old + fuel) :
    ∃ f' T' ht', insertIntoParent fuel f old key new = some f' ∧ f'.btreeOrder = f.btreeOrder ∧
      f'.Balanced T' ht' none ∧ ∀ q ∈ T, f.leafOf q = true → f'.pairs q = f.pairs q := by
  induction fuel generalizing f T ht key old new with
  | zero =>
    have := hfuel old h.splitting.old_mem
    omega
  | succ fuel ih =>
    have hb := h.balanced
    rw [IxIndexHandle.insertIntoParent]
    by_cases hroot : f.isRootPage old
    · rw [if_pos hroot]
      obtain ⟨f', hf', horder, hb', hpairs⟩ := h.newRoot (of_decide_eq_true hroot)
      exact ⟨f', _, _, hf', horder, hb', fun q hq _ => hpairs q hq⟩
    · have hold : f.parentOf old ≠ IX_NO_PAGE := fun heq => hroot (decide_eq_true heq)
      obtain ⟨hP, hheight⟩ := hb.closed.up old h.splitting.old_mem hold
      have hPlt := (hb.filled _ hP (Option.some_ne_none _)).lt
      obtain ⟨n, hn, hsize⟩ := IxNode.exists_insert key ⟨new, -1⟩ hPlt
      have hge : (f.pairs (f.parentOf old)).length ≤ n.size := by
        rcases hsize with rfl | hsize
        · exact Nat.le_refl _
        · rw [hsize]
          exact Nat.le_succ _
      obtain ⟨hb₁, hsmall, htop⟩ := h.insertParent hold hn hge
      have hleafP : f.leafOf (f.parentOf old) = false := by
        rw [hb.closed.leaf _ hP, hheight]
        simp
      have hneP : ∀ q, f.leafOf q = true → q ≠ f.parentOf old := by
        rintro q hq rfl
        rw [hleafP] at hq
        cases hq
      rw [if_neg hroot]
      simp only [Option.bind_eq_bind]
      rw [show (f.pages (f.pages old).parent).insert f.maxSize key ⟨new, -1⟩ = some n from hn,
        Option.bind_some]
      by_cases hfull : (f.setNode (f.parentOf old) n).maxSize ≤ n.size
      · have hlength : ((f.setNode (f.parentOf old) n).pairs (f.parentOf old)).length =
            (f.setNode (f.parentOf old) n).maxSize := by
          rw [pairs_setNode, Function.update_self]
          have hfull : f.maxSize ≤ n.pairs.length := hfull
          show n.pairs.length = f.maxSize
          rcases hsize with rfl | hsize
          · exact absurd hPlt (Nat.not_lt.2 hfull)
          · have hsize : n.pairs.length = (f.pairs (f.parentOf old)).length + 1 := hsize
            omega
        obtain ⟨f₂, hsplit, horder⟩ :=
          exists_split (f := f.setNode (f.parentOf old) n) (p := f.parentOf old)
          (by omega)
        obtain ⟨-, hsplits⟩ := split_spec (hb₁.closed.bound _ hP).2.ne hsplit
        have hpending := hb₁.split hP hlength htop hsplits horder
        have htwo := hpending.balanced.minSize_ge
        have hmin := hpending.new_min
        obtain ⟨newKey, hnewKey⟩ := IxNode.exists_keyAt (n := f₂.pages f.nextPageNo) (i := 0)
          (show 0 < (f₂.pairs f.nextPageNo).length by exact lt_of_lt_of_le (by omega) hmin)
        have hnew : ∀ q ∈ T, q ≠ f.nextPageNo := fun q hq => (hb.closed.bound q hq).2.ne
        obtain ⟨f', T', ht', hf', horder', hb', hpairs⟩ := ih newKey hpending fun q hq => by
          rw [show (f.setNode (f.parentOf old) n).nextPageNo = f.nextPageNo from rfl] at hq ⊢
          rw [Function.update_of_ne (hnew _ hP), hheight]
          rcases hq with rfl | hq
          · rw [Function.update_self]
            have := hfuel _ hP
            omega
          · rw [Function.update_of_ne (hnew q hq)]
            have := hfuel q hq
            omega
        refine ⟨f', T', ht', ?_, horder'.trans horder, hb', fun q hq hql => ?_⟩
        · rw [if_pos (show (f.setNode (f.pages old).parent n).maxSize ≤ n.size from hfull),
            show (f.setNode (f.pages old).parent n).split (f.pages old).parent = _ from hsplit,
              Option.bind_some]
          exact (congrArg (Option.bind · _) hnewKey).trans hf'
        · have hql₂ : f₂.leafOf q = true := by
            rw [hsplits.leaf, nextPageNo_setNode, Function.update_of_ne (hnew q hq), leafOf_setNode,
              Function.update_of_ne (hneP q hql), hql]
          rw [hpairs q (.inr hq) hql₂, hsplits.pairs, Function.update_of_ne (hneP q hql),
            nextPageNo_setNode,
            Function.update_of_ne (hnew q hq), pairs_setNode, Function.update_of_ne (hneP q hql)]
      · refine ⟨_, T, ht, if_neg hfull, rfl, hsmall (Nat.not_le.1 hfull), fun q _ hql => ?_⟩
        show (f.setNode (f.parentOf old) n).pairs q = f.pairs q
        rw [pairs_setNode, Function.update_of_ne (hneP q hql)]

/-- New pairs in a leaf of a balanced tree. -/
theorem Balanced.setLeaf {n : IxNode K} (h : f.Balanced T ht none) (hleaf : f.leafOf p = true)
    (hparent : n.parent = f.parentOf p) (hisLeaf : n.isLeaf = f.leafOf p) :
    (f.setNode p n).Balanced T ht (some p) := by
  have hs := sameLinks_setNode_leaf hleaf hparent hisLeaf
  refine ⟨hs.closed h.closed, ?_, h.order, h.fuel, fun q hq hx => ?_⟩
  · rw [hs.parent]
    exact h.root
  · have hne : q ≠ p := fun heq => hx (congrArg some heq)
    have hfilled := h.filled q hq (Option.some_ne_none q)
    refine ⟨?_, ?_, ?_⟩
    · rw [pairs_setNode, Function.update_of_ne hne]
      exact hfilled.lt
    · rw [pairs_setNode, Function.update_of_ne hne]
      exact hfilled.min
    · rw [pairs_setNode, Function.update_of_ne hne, hs.leaf]
      exact hfilled.two

/-- The exempted page is filled too. -/
theorem Balanced.fill (h : f.Balanced T ht (some p)) (hp : f.Filled p) : f.Balanced T ht none := by
  refine ⟨h.closed, h.root, h.order, h.fuel, fun q hq _ => ?_⟩
  by_cases hqp : q = p
  · exact hqp ▸ hp
  · exact h.filled q hq fun heq => hqp (Option.some.inj heq)

/-- The pages below the root are not empty. -/
theorem Balanced.below_root_pos {x : Option ℤ} (h : f.Balanced T ht x)
    (hx : ∀ p ∈ x, p ≠ f.rootPage → 0 < (f.pairs p).length) :
    ∀ q ∈ T, q ≠ f.rootPage → 0 < (f.pairs q).length := by
  intro q hq hne
  by_cases hqx : some q = x
  · exact hx q hqx.symm hne
  · exact h.pos (h.filled q hq hqx) (.inl hne)

/-- More pairs in a leaf. -/
theorem Balanced.growLeaf {n : IxNode K} (h : f.Balanced T ht none) (hp : p ∈ T)
    (hleaf : f.leafOf p = true)
    (hparent : n.parent = f.parentOf p) (hisLeaf : n.isLeaf = f.leafOf p)
    (hsize : (f.pages p).size < n.size)
    (hlt : n.size < f.maxSize) : (f.setNode p n).Balanced T ht none := by
  have hpairs : (f.setNode p n).pairs p = n.pairs := by
    rw [pairs_setNode, Function.update_self]
  have hold := h.filled p hp (Option.some_ne_none p)
  refine (h.setLeaf hleaf hparent hisLeaf).fill ⟨?_, fun hne => ?_, fun hinner => ?_⟩
  · rw [hpairs]
    exact hlt
  · rw [hpairs]
    exact (hold.min hne).trans hsize.le
  · rw [(sameLinks_setNode_leaf hleaf hparent hisLeaf).leaf, hleaf] at hinner
    cases hinner

theorem Balanced.pos_below (h : f.Balanced T ht none) :
    ∀ q ∈ T, q ≠ f.rootPage → 0 < (f.pairs q).length :=
  h.below_root_pos fun _ hp => absurd hp (Option.not_mem_none _)

/-- The ways through `insert_entry`: the key is there, the leaf has room for it, or the leaf is
split. -/
theorem Balanced.insertEntry_cases [Ord K] [DecidableEq K] (h : f.Balanced T ht none) (key : K)
    (value : Rid) :
    ∃ leaf n, f.findLeafPage key = some (some leaf) ∧ f.Reach leaf ∧ f.leafOf leaf = true ∧
      (f.pages leaf).insert f.maxSize key value = some n ∧
      ((n.size = (f.pages leaf).size ∧ f.insertEntry key value = some (f, IX_NO_PAGE)) ∨
        (n.size = (f.pages leaf).size + 1 ∧ n.size < f.maxSize ∧
          (f.setNode leaf n).Balanced f.Reach ht none ∧
          ∃ f', (f.setNode leaf n).maintainParent leaf = some f' ∧ f.insertEntry key value =
          some (f', leaf) ∧ SameShape (f.setNode leaf n) f') ∨
        (n.size = (f.pages leaf).size + 1 ∧ n.size = f.maxSize ∧ ∃ f₁ newKey f' T' ht' r,
          (f.setNode leaf n).split leaf = some (f₁, f.nextPageNo) ∧ f₁.btreeOrder = f.btreeOrder ∧
          (f₁.pages f.nextPageNo).keyAt 0 = some newKey ∧
          IxIndexHandle.insertIntoParent f₁.fuel f₁ leaf newKey f.nextPageNo = some f' ∧
          f.insertEntry key value = some (f', r) ∧ (r = leaf ∨ r = f.nextPageNo) ∧
          f'.btreeOrder = f.btreeOrder ∧ f'.Balanced T' ht' none)) := by
  obtain ⟨leaf, hfind, hreach, hleaf⟩ := h.exists_leaf key
  obtain ⟨hb, ha⟩ := h.reach
  have hlt := (hb.filled leaf hreach (Option.some_ne_none leaf)).lt
  obtain ⟨n, hn, hsize⟩ := IxNode.exists_insert key value hlt
  obtain ⟨hnparent, hnleaf⟩ := insert_fields hn
  refine ⟨leaf, n, hfind, hreach, hleaf, hn, ?_⟩
  unfold IxIndexHandle.insertEntry
  simp only [hfind, hn, Option.bind_eq_bind, Option.bind_some]
  by_cases hsame : n.size = (f.pages leaf).size
  · exact .inl ⟨hsame, if_pos hsame⟩
  · have hsize : n.size = (f.pages leaf).size + 1 := hsize.resolve_left fun heq => hsame (heq ▸ rfl)
    have hb₁ := hb.setLeaf hleaf hnparent hnleaf
    have hs := sameLinks_setNode_leaf hleaf hnparent hnleaf
    have ha₁ := hs.attached ha
    have hpairs : (f.setNode leaf n).pairs leaf = n.pairs := by
      rw [pairs_setNode, Function.update_self]
    rw [if_neg hsame]
    refine .inr ?_
    by_cases hfull : (f.setNode leaf n).maxSize ≤ n.size
    · have hmax : n.size = f.maxSize := by
        have hfull : f.maxSize ≤ n.size := hfull
        have hlt : (f.pages leaf).size < f.maxSize := hlt
        omega
      have hlength : ((f.setNode leaf n).pairs leaf).length = (f.setNode leaf n).maxSize := by
        rw [hpairs]
        exact hmax
      obtain ⟨f₂, hsplit, horder⟩ := exists_split (f := f.setNode leaf n) (p := leaf) (by omega)
      obtain ⟨-, hsplits⟩ := split_spec (hb₁.closed.bound leaf hreach).2.ne hsplit
      have hpending := hb₁.split hreach hlength
        (fun q hq => hb₁.closed.eq_root ha₁ hq) hsplits horder
      have htwo := hpending.balanced.minSize_ge
      have hnewPos : 0 < (f₂.pairs f.nextPageNo).length :=
        lt_of_lt_of_le (by omega) hpending.new_min
      obtain ⟨newKey, hnewKey⟩ := IxNode.exists_keyAt hnewPos
      obtain ⟨f₃, T', ht', hf₃, horder', hb₃, hleaves⟩ :=
          hpending.insertIntoParent f₂.fuel newKey fun q hq =>
        lt_of_lt_of_le (hpending.balanced.fuel q hq) (Nat.le_add_left _ _)
      have hnewLeaf : f₂.leafOf f.nextPageNo = true := by
        rw [hsplits.leaf, nextPageNo_setNode, Function.update_self, leafOf_setNode,
          Function.update_self, hnleaf]
        exact hleaf
      obtain ⟨newKey', hnewKey'⟩ := IxNode.exists_keyAt (n := f₃.pages f.nextPageNo) (i := 0) (by
        show 0 < (f₃.pairs f.nextPageNo).length
        rw [hleaves f.nextPageNo (.inl rfl) hnewLeaf]
        exact hnewPos)
      have hsplit : (f.setNode leaf n).split leaf = some (f₂, f.nextPageNo) := hsplit
      have hf₃ : IxIndexHandle.insertIntoParent f₂.fuel f₂ leaf newKey f.nextPageNo = some f₃ := hf₃
      refine .inr ⟨hsize, hmax, f₂, newKey, f₃, T', ht',
        if (compare key newKey').isGE then f.nextPageNo else leaf,
        hsplit, horder, hnewKey, hf₃, ?_, ?_, horder'.trans horder, hb₃⟩
      · simp only [if_pos hfull, hsplit, Option.bind_some, hnewKey, hf₃, hnewKey']
        rfl
      · split
        · exact .inr rfl
        · exact .inl rfl
    · have hb₂ := hb.growLeaf hreach hleaf hnparent hnleaf hsize.ge (Nat.not_le.1 hfull)
      obtain ⟨f', hf', hshape⟩ := hb₂.exists_maintainParent ha₁ hb₂.pos_below hreach
      refine .inl ⟨hsize, Nat.not_le.1 hfull, hb₂, f', hf', ?_, hshape⟩
      rw [if_neg hfull, hf']
      rfl

/-- `insert_entry` returns, and the tree is balanced again. -/
theorem Balanced.insertEntry [Ord K] [DecidableEq K] (h : f.Balanced T ht none) (key : K)
    (value : Rid) :
    ∃ f' r T' ht', f.insertEntry key value = some (f', r) ∧ f'.btreeOrder = f.btreeOrder ∧
      f'.Balanced T' ht' none := by
  obtain ⟨leaf, n, -, -, -, -, ⟨-, hcall⟩ | ⟨-, -, hb, f', -, hcall, hshape⟩ |
    ⟨-, -, f₁, newKey, f', T', ht', r, -, -, -, -, hcall, -, horder, hb⟩⟩ :=
      h.insertEntry_cases key value
  · exact ⟨f, IX_NO_PAGE, T, ht, hcall, rfl, h⟩
  · exact ⟨f', leaf, f.Reach, ht, hcall, hshape.order, hshape.balanced hb⟩
  · exact ⟨f', r, T', ht', hcall, horder, hb⟩

end Insert

end IxIndexHandle

end Rmdb
