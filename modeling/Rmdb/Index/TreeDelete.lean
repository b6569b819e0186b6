import Rmdb.Index.TreeShape

/-!
# Deletion in a balanced B+ tree, and runs of calls

`delete_entry` takes a pair out of a leaf, and `coalesce_or_redistribute` repairs the one page that
is short of a pair then: it takes a pair from a neighbour, or is merged with it, which leaves the
parent short.  At the root the tree becomes one level lower.  With insertion this gives the shape of
the tree after every sequence of calls.
-/

namespace Rmdb

variable {K : Type}

namespace IxIndexHandle

section Delete

variable {f f' : IxIndexHandle K} {T : Set ℤ} {ht : ℤ → ℕ} {p nb P : ℤ} {x : Option ℤ}

/-- A page that is at most one pair short. -/
structure Short (f : IxIndexHandle K) (p : ℤ) : Prop where
  lt : (f.pairs p).length < f.maxSize
  min : p ≠ f.rootPage → f.minSize ≤ (f.pairs p).length + 1
  one : f.leafOf p = false → 1 ≤ (f.pairs p).length

theorem maxSize_congr (h : f'.btreeOrder = f.btreeOrder) : f'.maxSize = f.maxSize := by
  rw [maxSize, h, maxSize]

theorem minSize_congr (h : f'.btreeOrder = f.btreeOrder) : f'.minSize = f.minSize := by
  rw [minSize, maxSize_congr h, minSize]

/-- A page with as many pairs as before. -/
theorem Filled.congr (hp : f.Filled p) (horder : f'.btreeOrder = f.btreeOrder)
    (hroot : p ≠ f'.rootPage → p ≠ f.rootPage) (hleaf : f'.leafOf p = f.leafOf p)
    (hpairs : (f'.pairs p).length = (f.pairs p).length) : f'.Filled p := by
  refine ⟨?_, fun hne => ?_, fun hinner => ?_⟩
  · rw [hpairs, maxSize_congr horder]
    exact hp.lt
  · rw [hpairs, minSize_congr horder]
    exact hp.min (hroot hne)
  · rw [hpairs]
    exact hp.two (hleaf ▸ hinner)

/-- A page that has the minimum is filled. -/
theorem Short.filled (h : f.Short p) (hmin : p ≠ f.rootPage → f.minSize ≤ (f.pairs p).length)
    (htwo : f.leafOf p = false → 2 ≤ (f.pairs p).length) : f.Filled p := ⟨h.lt, hmin, htwo⟩

/-- A smaller set of pages of the tree, closed and filled. -/
theorem Balanced.of_filled {T' : Set ℤ} (h : f.Balanced T ht x) (hclosed : f'.Closed T' ht)
    (ha : f'.Attached T')
    (horder : f'.btreeOrder = f.btreeOrder) (hnext : f'.nextPageNo = f.nextPageNo)
    (hsub : ∀ q ∈ T', q ∈ T) {y : Option ℤ} (hfilled : ∀ q ∈ T', some q ≠ y → f'.Filled q) :
    f'.Balanced T' ht y := by
  refine ⟨hclosed, ha.root, ?_, fun q hq => ?_, hfilled⟩
  · rw [maxSize_congr horder]
    exact h.order
  · rw [IxIndexHandle.fuel, hnext]
    exact h.fuel q (hsub q hq)

/-! ### The root -/

/-- `adjust_root` returns, and the tree is balanced. -/
theorem Balanced.adjustRoot (h : f.Balanced T ht (some f.rootPage)) (ha : f.Attached T)
    (hshort : f.Short f.rootPage) :
    ∃ f' r T', f.adjustRoot f.rootPage = some (f', r) ∧ f'.btreeOrder = f.btreeOrder ∧
    f'.Balanced T' ht none ∧ f'.Attached T' ∧ (f'.rootPage = f.rootPage ∧ f'.pairs = f.pairs ∨
        ∃ e, f.pairs f.rootPage = [e] ∧ f.leafOf f.rootPage = false ∧ f'.rootPage = e.2.pageNo ∧
          ∀ q, q ≠ f.rootPage → f'.pairs q = f.pairs q) := by
  unfold IxIndexHandle.adjustRoot
  by_cases hone : f.leafOf f.rootPage = false ∧ (f.pairs f.rootPage).length = 1
  · obtain ⟨hleaf, hsize⟩ := hone
    obtain ⟨e, he⟩ := List.length_eq_one_iff.mp hsize
    have hcond : (!(f.pages f.rootPage).isLeaf && decide ((f.pages f.rootPage).size = 1)) =
        true := by
      have hleaf : (f.pages f.rootPage).isLeaf = false := hleaf
      have hsize : (f.pages f.rootPage).size = 1 := hsize
      simp [hleaf, hsize]
    have hvalue : (f.pages f.rootPage).valueAt 0 = some e.2.pageNo := by
      have he : (f.pages f.rootPage).pairs = [e] := he
      simp [IxNode.valueAt, he]
    have hsize : (f.pages f.rootPage).size = 1 := hsize
    have herase := IxNode.erasePair_of_lt (show 0 < (f.pages f.rootPage).size by omega)
    simp only [hcond, if_true, hvalue, herase, Option.bind_eq_bind, Option.bind_some]
    obtain ⟨f', hf'⟩ : ∃ f', f' = ((f.setNode f.rootPage { f.pages f.rootPage with
        pairs := (f.pages f.rootPage).pairs.eraseIdx 0 }).setParentPageNo e.2.pageNo IX_NO_PAGE) :=
          ⟨_, rfl⟩
    have hpairs (q : ℤ) (hq : q ≠ f.rootPage) : f'.pairs q = f.pairs q := by
      rw [hf', pairs_setParentPageNo, pairs_setNode, Function.update_of_ne hq]
    have hleafOf : f'.leafOf = f.leafOf := by
      rw [hf', leafOf_setParentPageNo, leafOf_setNode]
      exact Function.update_eq_self f.rootPage f.leafOf
    have hparent : f'.parentOf = Function.update f.parentOf e.2.pageNo IX_NO_PAGE := by
      rw [hf', parentOf_setParentPageNo, parentOf_setNode]
      exact congrArg (fun g => Function.update g e.2.pageNo IX_NO_PAGE)
        (Function.update_eq_self f.rootPage f.parentOf)
    have horder : f'.btreeOrder = f.btreeOrder := by
      rw [hf']
      rfl
    have hnext : f'.nextPageNo = f.nextPageNo := by
      rw [hf']
      rfl
    obtain ⟨hclosed, hattached⟩ : Closed { f' with rootPage := e.2.pageNo } (T \ {f.rootPage}) ht ∧
        Attached { f' with rootPage := e.2.pageNo } (T \ {f.rootPage}) :=
      h.closed.dropRoot ha hleaf (by simp [kids, he]) rfl hnext hleafOf hparent fun q hq =>
        congrArg (List.map _) (hpairs q hq)
    refine ⟨{ f' with rootPage := e.2.pageNo }, true, T \ {f.rootPage}, by rw [hf']; rfl, horder,
      ?_, hattached, .inr ⟨e, he, hleaf, rfl, hpairs⟩⟩
    refine h.of_filled hclosed hattached horder hnext (fun _ hq => hq.1) fun q hq _ => ?_
    have hfilled := h.filled q hq.1 fun heq => hq.2 (Option.some.inj heq)
    exact hfilled.congr horder (fun _ => hq.2) (congrFun hleafOf q)
      (congrArg List.length (hpairs q hq.2))
  · have hcond : ¬ (!(f.pages f.rootPage).isLeaf && decide ((f.pages f.rootPage).size = 1)) =
        true := by
      rw [Bool.and_eq_true, Bool.not_eq_true', decide_eq_true_eq]
      exact hone
    have hfilled : f.Filled f.rootPage := by
      refine hshort.filled (fun hne => absurd rfl hne) fun hinner => ?_
      have hpos := hshort.one hinner
      have hne : (f.pairs f.rootPage).length ≠ 1 := fun heq => hone ⟨hinner, heq⟩
      omega
    rw [if_neg hcond]
    split
    · exact ⟨_, false, T, rfl, rfl, h.fill hfilled, ha, .inl ⟨rfl, rfl⟩⟩
    · exact ⟨f, false, T, rfl, rfl, h.fill hfilled, ha, .inl ⟨rfl, rfl⟩⟩

/-! ### A pair from a neighbour -/

theorem exists_maintainChild {i : ℕ} (hi : i < (f.pairs p).length) :
    ∃ f', f.maintainChild p i = some f' ∧ f'.pairs = f.pairs ∧ f'.leafOf = f.leafOf ∧
      f'.btreeOrder = f.btreeOrder ∧ f'.rootPage = f.rootPage ∧ f'.nextPageNo = f.nextPageNo := by
  unfold maintainChild
  split
  · exact ⟨f, rfl, rfl, rfl, rfl, rfl, rfl⟩
  · obtain ⟨c, hc⟩ := IxNode.exists_valueAt (n := f.pages p) hi
    rw [hc]
    exact ⟨_, rfl, pairs_setParentPageNo .., leafOf_setParentPageNo .., rfl, rfl, rfl⟩

variable [DecidableEq K]

/-- The separators of both pages are set, those above not yet. -/
structure Reseparated (f f' : IxIndexHandle K) (P p nb : ℤ) (k k' : K) : Prop where
  key : (f.pages p).keyAt 0 = some k
  key' : (f.pages nb).keyAt 0 = some k'
  pairs : ∃ i j, (f.kids P)[i]? = some p ∧ (f.kids P)[j]? = some nb ∧
    f'.pairs = Function.update f.pairs P
      (((f.pairs P).modify i fun e => (k, e.2)).modify j fun e => (k', e.2))

/-- The separators of both pages are set, and those above. -/
theorem exists_redistribute_separators (h : f.Closed T ht) (ha : f.Attached T)
    (hfuel : ∀ q ∈ T, ht q < f.fuel)
    (hpos : ∀ q ∈ T, q ≠ f.rootPage → 0 < (f.pairs q).length) (hP : P ∈ T) (hp : p ∈ T)
    (hnb : nb ∈ T) (hpP : p ∈ f.kids P) (hnbP : nb ∈ f.kids P) (hPleaf : f.leafOf P = false) :
    ∃ f₂ f' k k', (do
      let i ← (f.pages P).findChild p
      let key ← (f.pages p).keyAt 0
      let f := f.setNode P ((f.pages P).setKey i key)
      let j ← (f.pages P).findChild nb
      let key ← (f.pages nb).keyAt 0
      let f := f.setNode P ((f.pages P).setKey j key)
      f.maintainParent P) = some f' ∧ SameShape f f' ∧ SameShape f f₂ ∧
        f.Reseparated f₂ P p nb k k' ∧
      f₂.maintainParent P = some f' := by
  have hne (q : ℤ) (hqP : q ∈ f.kids P) : q ≠ f.rootPage := by
    rintro rfl
    exact h.ne_no_page hP ((h.kid P hP hPleaf _ hqP).2.1.symm.trans ha.root)
  obtain ⟨i, hi, -⟩ := IxNode.exists_findChild (n := f.pages P) hpP
  obtain ⟨key, hkey⟩ := IxNode.exists_keyAt (n := f.pages p) (hpos p hp (hne p hpP))
  have hs₁ := sameShape_setKey (f := f) P i key
  obtain ⟨f₁, hf₁⟩ : ∃ f₁, f₁ = f.setNode P ((f.pages P).setKey i key) := ⟨_, rfl⟩
  rw [← hf₁] at hs₁
  have hnbP₁ : nb ∈ f₁.kids P := by
    rw [hs₁.links.kids P hPleaf]
    exact hnbP
  have hpos₁ (q : ℤ) (hq : q ∈ T) (hqr : q ≠ f.rootPage) : 0 < (f₁.pairs q).length := by
    rw [hs₁.sizes]
    exact hpos q hq hqr
  obtain ⟨j, hj, -⟩ := IxNode.exists_findChild (n := f₁.pages P) hnbP₁
  obtain ⟨key', hkey'⟩ := IxNode.exists_keyAt (n := f₁.pages nb) (hpos₁ nb hnb (hne nb hnbP))
  have hs₂ := sameShape_setKey (f := f₁) P j key'
  obtain ⟨f₂, hf₂⟩ : ∃ f₂, f₂ = f₁.setNode P ((f₁.pages P).setKey j key') := ⟨_, rfl⟩
  rw [← hf₂] at hs₂
  have hs := hs₁.trans hs₂
  have hpos₂ (q : ℤ) (hq : q ∈ T) (hqr : q ≠ f₂.rootPage) : 0 < (f₂.pairs q).length := by
    rw [hs.sizes]
    exact hpos q hq (hs.links.root ▸ hqr)
  have hfuel₂ (q : ℤ) (hq : q ∈ T) : ht q < ht P + f₂.fuel := by
    have hlt := hfuel q hq
    rw [IxIndexHandle.fuel] at hlt
    rw [IxIndexHandle.fuel, hs.links.next]
    omega
  obtain ⟨f', hf', hs'⟩ :=
    exists_maintainParentLoop (hs.links.closed h) (hs.links.attached ha) hpos₂ hP hfuel₂
  have hPnb : nb ≠ P := by
    rintro rfl
    exact h.not_mem_kids_self hP hPleaf hnbP
  have hkids : f₁.kids P = f.kids P := hs₁.links.kids P hPleaf
  have hkeyNb : (f.pages nb).keyAt 0 = some key' := by
    rw [← hkey', hf₁, setNode]
    exact congrArg (IxNode.keyAt · 0) (Function.update_of_ne hPnb _ f.pages).symm
  have hpairs : f₂.pairs = Function.update f.pairs P
      (((f.pairs P).modify i fun e => (key, e.2)).modify j fun e => (key', e.2)) := by
    rw [hf₂, pairs_setNode, hf₁, pairs_setNode, Function.update_idem]
    refine congrArg (Function.update f.pairs P) (congrArg (List.modify · j fun e => (key', e.2)) ?_)
    show (IxIndexHandle.setNode _ _ _).pairs P = _
    rw [pairs_setNode, Function.update_self]
    rfl
  refine ⟨f₂, f', key, key', ?_, hs.trans hs', hs,
    ⟨hkey, hkeyNb, i, j, getElem?_of_findChild hi, ?_, hpairs⟩, hf'⟩
  · simp only [hi, hkey, Option.bind_eq_bind, Option.bind_some, ← hf₁, hj, hkey', ← hf₂]
    exact hf'
  · rw [← hkids]
    exact getElem?_of_findChild hj

omit [DecidableEq K] in
/-- A pair moves from the neighbour to the short page. -/
theorem Balanced.movePair {n n' : IxNode K} {e : K × Rid} {i : ℕ} (h : f.Balanced T ht (some p))
    (ha : f.Attached T)
    (hP : P ∈ T) (hPleaf : f.leafOf P = false) (hpP : p ∈ f.kids P) (hnbP : nb ∈ f.kids P)
    (hne : nb ≠ p)
    (hshort : (f.pairs p).length + 1 = f.minSize) (hnbSize : f.minSize < (f.pairs nb).length)
    (hparent : n.parent = f.parentOf p) (hleaf : n.isLeaf = f.leafOf p)
    (hparent' : n'.parent = f.parentOf nb)
    (hleaf' : n'.isLeaf = f.leafOf nb) (hpairs : n.pairs.Perm (e :: f.pairs p))
    (hpairs' : (f.pairs nb).Perm (e :: n'.pairs)) (hi : n.pairs[i]? = some e) :
    ∃ f', ((f.setNode p n).setNode nb n').maintainChild p i = some f' ∧
    f'.btreeOrder = f.btreeOrder ∧ f'.leafOf = f.leafOf ∧ f'.rootPage = f.rootPage ∧
      f'.pairs = Function.update (Function.update f.pairs p n.pairs) nb n'.pairs ∧
      f'.kids P = f.kids P ∧ f'.Balanced T ht none ∧ f'.Attached T := by
  obtain ⟨hp, hpp, hph⟩ := h.closed.kid P hP hPleaf p hpP
  obtain ⟨hnb, hnbp, hnbh⟩ := h.closed.kid P hP hPleaf nb hnbP
  have hfour := h.order
  have hlt := (h.filled nb hnb fun heq => hne (Option.some.inj heq)).lt
  have hmin : f.minSize = f.maxSize / 2 := rfl
  have hsize : n.pairs.length = f.minSize := by
    rw [hpairs.length_eq, List.length_cons, hshort]
  have hsize' : n'.pairs.length + 1 = (f.pairs nb).length := by
    rw [hpairs'.length_eq, List.length_cons]
  have hpairsP : ((f.setNode p n).setNode nb n').pairs p = n.pairs := by
    rw [pairs_setNode, Function.update_of_ne hne.symm, pairs_setNode, Function.update_self]
  have hlast := (List.getElem?_eq_some_iff.mp hi).1
  obtain ⟨f', hf', hpairs₁, hleaf₁, horder, hroot, hnext⟩ :=
    exists_maintainChild (f := (f.setNode p n).setNode nb n') (p := p) (i := i)
      (by rw [hpairsP]; exact hlast)
  obtain ⟨hclosed, hattached⟩ :=
    h.closed.movePair ha hnb hp hne (by omega) hparent hleaf hparent' hleaf' hpairs hpairs'
    hi hf'
  have hleafOf : f'.leafOf = f.leafOf := by
    rw [hleaf₁, leafOf_setNode, leafOf_setNode, hleaf, hleaf', Function.update_eq_self,
      Function.update_eq_self]
  have hpairsOf (q : ℤ) (hqp : q ≠ p) (hqnb : q ≠ nb) : f'.pairs q = f.pairs q := by
    rw [hpairs₁, pairs_setNode, Function.update_of_ne hqnb, pairs_setNode,
      Function.update_of_ne hqp]
  have hkids : f'.kids P = f.kids P := by
    refine congrArg (List.map _) (hpairsOf P ?_ ?_)
    · rintro rfl
      omega
    · rintro rfl
      omega
  refine ⟨f', hf', horder, hleafOf, hroot, by rw [hpairs₁, pairs_setNode, pairs_setNode], hkids,
    ?_, hattached⟩
  refine h.of_filled hclosed hattached horder hnext (fun _ hq => hq) fun q hq _ => ?_
  have horder' : f'.btreeOrder = f.btreeOrder := horder
  by_cases hqp : q = p
  · have hlen : (f'.pairs q).length = f.minSize := by
      rw [hqp, hpairs₁, hpairsP, hsize]
    refine ⟨?_, fun _ => ?_, fun _ => ?_⟩
    · rw [hlen, maxSize_congr horder']
      omega
    · rw [hlen, minSize_congr horder']
    · omega
  · by_cases hqnb : q = nb
    · have hlen : (f'.pairs q).length + 1 = (f.pairs nb).length := by
        rw [hqnb, hpairs₁, pairs_setNode, Function.update_self, hsize']
      refine ⟨?_, fun _ => ?_, fun _ => ?_⟩
      · rw [maxSize_congr horder']
        omega
      · rw [minSize_congr horder']
        omega
      · omega
    · have hfilled := h.filled q hq fun heq => hqp (Option.some.inj heq)
      refine hfilled.congr horder (fun hqr => ?_) (congrFun hleafOf q)
        (congrArg List.length (hpairsOf q hqp hqnb))
      rw [hroot] at hqr
      exact hqr

/-- The new lists of pairs of the page and its neighbour. -/
structure Moved (f f₁ : IxIndexHandle K) (nb p P : ℤ) (index : ℕ) : Prop where
  root : f₁.rootPage = f.rootPage
  pairs : ∃ l l', (index = 0 → l ++ l' = f.pairs p ++ f.pairs nb) ∧
    (index ≠ 0 → l' ++ l = f.pairs nb ++ f.pairs p) ∧
    f₁.pairs = Function.update (Function.update f.pairs p l) nb l'

/-- `redistribute` returns, and the short page is filled. -/
theorem Balanced.redistribute (h : f.Balanced T ht (some p)) (index : ℕ) (ha : f.Attached T)
    (hP : P ∈ T)
    (hPleaf : f.leafOf P = false) (hpP : p ∈ f.kids P) (hnbP : nb ∈ f.kids P) (hne : nb ≠ p)
    (hshort : (f.pairs p).length + 1 = f.minSize) (hnbSize : f.minSize < (f.pairs nb).length) :
    ∃ f' f₁ f₂ k k', f.redistribute nb p P index = some f' ∧ f'.btreeOrder = f.btreeOrder ∧
    f'.Balanced T ht none ∧
      f'.Attached T ∧ f.Moved f₁ nb p P index ∧ f₁.Balanced T ht none ∧ f₁.Attached T ∧
      SameShape f₁ f₂ ∧ f₁.Reseparated f₂ P p nb k k' ∧ f₂.maintainParent P = some f' := by
  have hp := (h.closed.kid P hP hPleaf p hpP).1
  have hnb := (h.closed.kid P hP hPleaf nb hnbP).1
  have hfour := h.order
  have hmin : f.minSize = f.maxSize / 2 := rfl
  have htail {f₁ : IxIndexHandle K} (hleaf₁ : f₁.leafOf = f.leafOf) (hkids : f₁.kids P = f.kids P)
      (h₁ : f₁.Balanced T ht none) (ha₁ : f₁.Attached T) :=
    exists_redistribute_separators h₁.closed ha₁ h₁.fuel h₁.pos_below hP hp hnb (hkids ▸ hpP)
      (hkids ▸ hnbP) (hleaf₁ ▸ hPleaf)
  unfold IxIndexHandle.redistribute
  by_cases hindex : index = 0
  · -- the first pair of the right neighbour goes behind the pairs of the page
    obtain ⟨e, he⟩ : ∃ e, (f.pages nb).pairs[0]? = some e :=
      ⟨_, List.getElem?_eq_getElem (show 0 < (f.pairs nb).length by omega)⟩
    have hroom : (f.pages p).size + [e].length ≤ f.maxSize := by
      show (f.pairs p).length + 1 ≤ f.maxSize
      omega
    have hinsert := IxNode.insertPairs_of_le (le_refl (f.pages p).size) hroom
    have hpos : 0 < (f.pages nb).size := by
      show 0 < (f.pairs nb).length
      omega
    have herase := IxNode.erasePair_of_lt hpos
    obtain ⟨n, hn⟩ : ∃ n, n = { f.pages p with
        pairs := (f.pages p).pairs.take (f.pages p).size ++ [e] ++ (f.pages p).pairs.drop
          (f.pages p).size } := ⟨_, rfl⟩
    obtain ⟨n', hn'⟩ : ∃ n', n' = { f.pages nb with pairs := (f.pages nb).pairs.eraseIdx 0 } :=
      ⟨_, rfl⟩
    have hpairs : n.pairs = f.pairs p ++ [e] := by
      simp [hn, IxNode.size, pairs]
    have hpairs' : (f.pairs nb).Perm (e :: n'.pairs) := by
      rw [hn']
      exact perm_eraseIdx he
    have hi : n.pairs[n.size - 1]? = some e := by
      rw [IxNode.size, hpairs]
      simp
    obtain ⟨f₁, hf₁, horder, hleaf₁, hroot₁, hpairs₁, hkids, hb₁, ha₁⟩ :=
      h.movePair ha hP hPleaf hpP hnbP hne hshort hnbSize
      (by rw [hn]; rfl) (by rw [hn]; rfl) (by rw [hn']; rfl) (by rw [hn']; rfl)
      (by rw [hpairs]; exact List.perm_append_singleton _ _) hpairs' hi
    obtain ⟨f₂, f', k, k', hf', hs, hs₂, hsep, hmaintain⟩ := htail hleaf₁ hkids hb₁ ha₁
    refine ⟨f', f₁, f₂, k, k', ?_, hs.order.trans horder, hs.balanced hb₁, hs.links.attached ha₁,
      ⟨hroot₁, n.pairs, n'.pairs, fun _ => ?_, fun hne => absurd hindex hne, hpairs₁⟩, hb₁, ha₁,
        hs₂, hsep, hmaintain⟩
    · simp only [if_pos hindex, he, hinsert, herase, ← hn, ← hn', Option.bind_eq_bind,
        Option.bind_some, hf₁]
      exact hf'
    · obtain ⟨e', l', hl'⟩ := List.exists_cons_of_length_pos hpos
      obtain rfl : e' = e := by simpa [hl'] using he
      rw [hpairs, hn', pairs, pairs, hl']
      simp
  · -- the last pair of the left neighbour goes before the pairs of the page
    obtain ⟨e, he⟩ : ∃ e, (f.pages nb).pairs[(f.pages nb).size - 1]? = some e :=
      ⟨_, List.getElem?_eq_getElem (show (f.pairs nb).length - 1 < (f.pairs nb).length by omega)⟩
    have hroom : (f.pages p).size + [e].length ≤ f.maxSize := by
      show (f.pairs p).length + 1 ≤ f.maxSize
      omega
    have hinsert := IxNode.insertPairs_of_le (Nat.zero_le (f.pages p).size) hroom
    have hlast : (f.pages nb).size - 1 < (f.pages nb).size := by
      show (f.pairs nb).length - 1 < (f.pairs nb).length
      omega
    have herase := IxNode.erasePair_of_lt hlast
    obtain ⟨n, hn⟩ : ∃ n, n = { f.pages p with
        pairs := (f.pages p).pairs.take 0 ++ [e] ++ (f.pages p).pairs.drop 0 } := ⟨_, rfl⟩
    obtain ⟨n', hn'⟩ : ∃ n', n' = { f.pages nb with
        pairs := (f.pages nb).pairs.eraseIdx ((f.pages nb).size - 1) } := ⟨_, rfl⟩
    have hpairs : n.pairs = e :: f.pairs p := by
      simp [hn, pairs]
    have hpairs' : (f.pairs nb).Perm (e :: n'.pairs) := by
      rw [hn']
      exact perm_eraseIdx he
    have hi : n.pairs[0]? = some e := by
      rw [hpairs]
      rfl
    obtain ⟨f₁, hf₁, horder, hleaf₁, hroot₁, hpairs₁, hkids, hb₁, ha₁⟩ :=
      h.movePair ha hP hPleaf hpP hnbP hne hshort hnbSize
      (by rw [hn]; rfl) (by rw [hn]; rfl) (by rw [hn']; rfl) (by rw [hn']; rfl)
        (by rw [hpairs]) hpairs' hi
    obtain ⟨f₂, f', k, k', hf', hs, hs₂, hsep, hmaintain⟩ := htail hleaf₁ hkids hb₁ ha₁
    refine ⟨f', f₁, f₂, k, k', ?_, hs.order.trans horder, hs.balanced hb₁, hs.links.attached ha₁,
      ⟨hroot₁, n.pairs, n'.pairs, fun heq => absurd heq hindex, fun _ => ?_, hpairs₁⟩, hb₁, ha₁,
        hs₂, hsep, hmaintain⟩
    · simp only [if_neg hindex, he, hinsert, herase, ← hn, ← hn', Option.bind_eq_bind,
        Option.bind_some, hf₁]
      exact hf'
    · obtain ⟨l', e', hl'⟩ := List.eq_nil_or_concat (f.pages nb).pairs |>.resolve_left
          fun hnil => by
        rw [IxNode.size, hnil] at hlast
        cases hlast
      rw [List.concat_eq_append] at hl'
      have hsize : (f.pages nb).size - 1 = l'.length := by
        rw [IxNode.size, hl', List.length_append, List.length_singleton, Nat.add_sub_cancel]
      obtain rfl : e' = e := by simpa [hl', hsize] using he
      have hnbPairs : f.pairs nb = l' ++ [e'] := hl'
      have hn'pairs : n'.pairs = l' := by
        rw [hn']
        show (f.pages nb).pairs.eraseIdx ((f.pages nb).size - 1) = l'
        rw [hsize, hl', List.eraseIdx_append_of_length_le le_rfl]
        simp
      rw [hpairs, hn'pairs, hnbPairs]
      simp

/-! ### A merge -/

omit [DecidableEq K] in
/-- `coalesce` merges the right page into the left one, and leaves the parent one pair short. -/
theorem Balanced.coalesce {left right : ℤ} (h : f.Balanced T ht (some p))
    (next : IxIndexHandle K → ℤ → Option (IxIndexHandle K × Bool)) (index : ℕ) (ha : f.Attached T)
    (hP : P ∈ T)
    (hPleaf : f.leafOf P = false) (hpP : p ∈ f.kids P) (hnbP : nb ∈ f.kids P) (hne : nb ≠ p)
    (hleft : (if index = 0 then p else nb) = left) (hright : (if index = 0 then nb else p) = right)
    (hshort : (f.pairs p).length + 1 = f.minSize)
    (hsize : (f.pairs p).length + (f.pairs nb).length < f.minSize * 2) :
    ∃ f', f.coalesce next nb p P index = next f' P ∧ f'.btreeOrder = f.btreeOrder ∧
      f'.Balanced (T \ {right}) ht (some P) ∧ f'.Attached (T \ {right}) ∧ P ∈ T \ {right} ∧
      f'.Short P ∧
      f'.rootPage = f.rootPage ∧ ∃ j, (f.kids P)[j]? = some right ∧ f'.pairs = Function.update
        (Function.update f.pairs left (f.pairs left ++ f.pairs right)) P
        ((f.pairs P).eraseIdx j) := by
  obtain ⟨hp, hpp, hph⟩ := h.closed.kid P hP hPleaf p hpP
  obtain ⟨hnb, hnbp, hnbh⟩ := h.closed.kid P hP hPleaf nb hnbP
  have hfour := h.order
  have hmin : f.minSize = f.maxSize / 2 := rfl
  have hsides : (left = p ∧ right = nb) ∨ (left = nb ∧ right = p) := by
    by_cases hindex : index = 0
    · rw [if_pos hindex] at hleft hright
      exact .inl ⟨hleft.symm, hright.symm⟩
    · rw [if_neg hindex] at hleft hright
      exact .inr ⟨hleft.symm, hright.symm⟩
  have hleftT : left ∈ T := by rcases hsides with ⟨rfl, -⟩ | ⟨rfl, -⟩ <;> assumption
  have hrightT : right ∈ T := by rcases hsides with ⟨-, rfl⟩ | ⟨-, rfl⟩ <;> assumption
  have hleftP : f.parentOf left = P := by rcases hsides with ⟨rfl, -⟩ | ⟨rfl, -⟩ <;> assumption
  have hrightP : f.parentOf right = P := by rcases hsides with ⟨-, rfl⟩ | ⟨-, rfl⟩ <;> assumption
  have hrightKid : right ∈ f.kids P := by rcases hsides with ⟨-, rfl⟩ | ⟨-, rfl⟩ <;> assumption
  have hlr : left ≠ right := by
    rcases hsides with ⟨rfl, rfl⟩ | ⟨rfl, rfl⟩
    · exact hne.symm
    · exact hne
  have hPleft : P ≠ left := by
    rcases hsides with ⟨rfl, -⟩ | ⟨rfl, -⟩
    · rintro rfl
      omega
    · rintro rfl
      omega
  have hPright : P ≠ right := by
    rcases hsides with ⟨-, rfl⟩ | ⟨-, rfl⟩
    · rintro rfl
      omega
    · rintro rfl
      omega
  have hsum : (f.pairs left).length + (f.pairs right).length < f.minSize * 2 := by
    rcases hsides with ⟨rfl, rfl⟩ | ⟨rfl, rfl⟩
    · exact hsize
    · omega
  have hroom : (f.pages left).size + (f.pages right).pairs.length ≤ f.maxSize := by
    show (f.pairs left).length + (f.pairs right).length ≤ f.maxSize
    omega
  have hinsert := IxNode.insertPairs_of_le (le_refl (f.pages left).size) hroom
  obtain ⟨n, hn⟩ : ∃ n, n = { f.pages left with
      pairs := (f.pages left).pairs.take (f.pages left).size ++ (f.pages right).pairs ++
        (f.pages left).pairs.drop (f.pages left).size } := ⟨_, rfl⟩
  have hnpairs : n.pairs = f.pairs left ++ f.pairs right := by
    simp [hn, IxNode.size, pairs]
  rw [← hn] at hinsert
  obtain ⟨f₁, hf₁⟩ : ∃ f₁, f₁ = (f.setNode left n).maintainChildren left (f.pages left).size :=
    ⟨_, rfl⟩
  unfold IxIndexHandle.coalesce
  simp only [hleft, hright, hinsert, Option.bind_eq_bind, Option.bind_some, ← hf₁]
  generalize hf₂ : (if (f₁.pages right).isLeaf = true then _ else f₁) = f₂
  have hsame : f₂.rootPage = f₁.rootPage ∧ f₂.nextPageNo = f₁.nextPageNo ∧ f₂.leafOf = f₁.leafOf ∧
      f₂.parentOf = f₁.parentOf ∧ f₂.pairs = f₁.pairs ∧ f₂.btreeOrder = f₁.btreeOrder := by
    rw [← hf₂]
    split
    · rw [rootPage_lastLeaf, nextPageNo_lastLeaf, leafOf_lastLeaf, parentOf_lastLeaf,
        pairs_lastLeaf]
      refine ⟨rfl, rfl, by simp, by simp, by simp, ?_⟩
      split <;> rfl
    · exact ⟨rfl, rfl, rfl, rfl, rfl, rfl⟩
  obtain ⟨hroot₂, hnext₂, hleaf₂, hparent₂, hpairs₂, horder₂⟩ := hsame
  obtain ⟨hp₁, hl₁, hr₁, hx₁, -⟩ :=
    maintainChildren_spec (f.setNode left n) left (f.pages left).size
  have ho₁ := btreeOrder_maintainChildren (f.setNode left n) left (f.pages left).size
  rw [← hf₁] at hp₁ hl₁ hr₁ hx₁ ho₁
  have hpairsOf : f₂.pairs = Function.update f.pairs left (f.pairs left ++ f.pairs right) := by
    rw [hpairs₂, hp₁, pairs_setNode, hnpairs]
  have hkidsP : f₂.kids P = f.kids P := by
    rw [kids, hpairsOf, Function.update_of_ne hPleft, kids]
  have hrightKid₂ : right ∈ f₂.kids P := hkidsP ▸ hrightKid
  obtain ⟨rightIndex, hindex, hlt⟩ := IxNode.exists_findChild (n := f₂.pages P) hrightKid₂
  have herase := IxNode.erasePair_of_lt hlt
  obtain ⟨n', hn'⟩ :
    ∃ n', n' = { f₂.pages P with pairs := (f₂.pages P).pairs.eraseIdx rightIndex } := ⟨_, rfl⟩
  rw [← hn'] at herase
  obtain ⟨hclosed, hattached⟩ :=
    h.closed.coalesce ha hleftT hrightT hP hPleaf hlr hleftP hrightP hinsert hf₁ hroot₂
    hnext₂ hleaf₂ hparent₂ hpairs₂ hindex herase
  obtain ⟨f', hf'⟩ : ∃ f', f' = { f₂.setNode P n' with numPages := f₂.numPages - 1 } := ⟨_, rfl⟩
  have hs : SameLinks (f₂.setNode P n') f' := by
    rw [hf']
    exact ⟨rfl, rfl, rfl, rfl, fun _ _ => rfl⟩
  have hclosed' := hs.closed hclosed
  have hattached' := hs.attached hattached
  have horder : f'.btreeOrder = f.btreeOrder := by
    rw [hf']
    exact horder₂.trans ho₁
  have hroot : f'.rootPage = f.rootPage := by
    rw [hs.root, rootPage_setNode, hroot₂, hr₁, rootPage_setNode]
  have hnext : f'.nextPageNo = f.nextPageNo := by
    rw [hs.next, nextPageNo_setNode, hnext₂, hx₁, nextPageNo_setNode]
  have hleafOf : f'.leafOf = f.leafOf := by
    have hn'leaf : n'.isLeaf = f₂.leafOf P := by rw [hn']; rfl
    have hnleaf : n.isLeaf = f.leafOf left := by rw [hn]; rfl
    rw [hs.leaf, leafOf_setNode, hn'leaf, Function.update_eq_self, hleaf₂, hl₁,
      leafOf_setNode, hnleaf, Function.update_eq_self]
  have hpairs' : f'.pairs = Function.update f₂.pairs P n'.pairs := by
    rw [hf']
    exact pairs_setNode ..
  have hPfilled := h.filled P hP fun heq => by
    have heq : P = p := Option.some.inj heq
    rw [heq] at hph
    omega
  have hPpairs : (f'.pairs P).length + 1 = (f.pairs P).length := by
    have hlength : (f₂.pairs P).length = (f.pairs P).length := by
      rw [hpairsOf, Function.update_of_ne hPleft]
    have hlt : rightIndex < (f₂.pairs P).length := hlt
    rw [hpairs', Function.update_self, hn']
    show ((f₂.pairs P).eraseIdx rightIndex).length + 1 = _
    rw [List.length_eraseIdx_of_lt hlt]
    omega
  have hnbFilled := h.filled nb hnb fun heq => hne (Option.some.inj heq)
  have hnbRoot : nb ≠ f.rootPage := by
    rintro rfl
    exact h.closed.ne_no_page hP (hnbp.symm.trans ha.root)
  have hnbMin := hnbFilled.min hnbRoot
  have hPpairsOf : f₂.pairs P = f.pairs P := by
    rw [hpairsOf, Function.update_of_ne hPleft]
  refine ⟨f', ?_, horder, ?_, hattached', ⟨hP, hPright⟩, ⟨?_, ?_, ?_⟩, hroot, rightIndex, ?_, ?_⟩
  · rw [hindex, Option.bind_some, herase, Option.bind_some, hf']
    rfl
  · refine h.of_filled hclosed' hattached' horder hnext (fun _ hq => hq.1) fun q hq hqP => ?_
    have hqP : q ≠ P := fun heq => hqP (congrArg some heq)
    have hqr : q ≠ right := hq.2
    by_cases hql : q = left
    · have hlen : (f'.pairs q).length = (f.pairs left).length + (f.pairs right).length := by
        rw [hql, hpairs', Function.update_of_ne hPleft.symm, hpairsOf, Function.update_self,
          List.length_append]
      have hge : f.minSize ≤ (f.pairs left).length + (f.pairs right).length := by
        rcases hsides with ⟨rfl, rfl⟩ | ⟨rfl, rfl⟩
        · omega
        · omega
      refine ⟨?_, fun _ => ?_, fun _ => ?_⟩
      · rw [maxSize_congr horder]
        omega
      · rw [minSize_congr horder]
        omega
      · omega
    · have hqp : q ≠ p := by
        rcases hsides with ⟨rfl, -⟩ | ⟨-, rfl⟩
        · exact hql
        · exact hqr
      have hfilled := h.filled q hq.1 fun heq => hqp (Option.some.inj heq)
      refine hfilled.congr horder (fun hqr => hroot ▸ hqr) (congrFun hleafOf q) ?_
      rw [hpairs', Function.update_of_ne hqP, hpairsOf, Function.update_of_ne hql]
  · have hlt := hPfilled.lt
    rw [maxSize_congr horder]
    omega
  · intro hne
    have hmin := hPfilled.min (hroot ▸ hne)
    rw [minSize_congr horder]
    omega
  · intro hinner
    have htwo := hPfilled.two hPleaf
    omega
  · rw [← hkidsP]
    exact getElem?_of_findChild hindex
  · have hn'pairs : n'.pairs = (f.pairs P).eraseIdx rightIndex := by
      rw [hn', ← hPpairsOf]
      rfl
    rw [hpairs', hn'pairs, hpairsOf]

/-! ### The repair -/

/-- A page other than the root that is one pair short, and the neighbour that
`coalesce_or_redistribute` chooses. -/
structure Neighbour (f : IxIndexHandle K) (T : Set ℤ) (p nb : ℤ) (index : ℕ) : Prop where
  parent : f.parentOf p ∈ T
  inner : f.leafOf (f.parentOf p) = false
  page : (f.kids (f.parentOf p))[index]? = some p
  neighbour : (f.kids (f.parentOf p))[if index = 0 then 1 else index - 1]? = some nb
  ne : nb ≠ p
  short : (f.pairs p).length + 1 = f.minSize

/-- What `coalesce_or_redistribute` does with a page that is at most one pair short. -/
theorem Balanced.coalesceOrRedistribute_cases (fuel : ℕ) (h : f.Balanced T ht (some p))
    (ha : f.Attached T) (hp : p ∈ T) (hshort : f.Short p) :
    (p = f.rootPage ∧ coalesceOrRedistribute (fuel + 1) f p = f.adjustRoot p) ∨
    (f.Balanced T ht none ∧
      coalesceOrRedistribute (fuel + 1) f p = (f.maintainParent p).map fun f => (f, false)) ∨
    ∃ nb index, f.Neighbour T p nb index ∧
      ((f.minSize < (f.pairs nb).length ∧ coalesceOrRedistribute (fuel + 1) f p =
        (f.redistribute nb p (f.parentOf p) index).map fun f => (f, false)) ∨
      ((f.pairs p).length + (f.pairs nb).length < f.minSize * 2 ∧
        coalesceOrRedistribute (fuel + 1) f p =
        f.coalesce (IxIndexHandle.coalesceOrRedistribute fuel) nb p (f.parentOf p) index)) := by
  rw [IxIndexHandle.coalesceOrRedistribute]
  by_cases hroot : f.isRootPage p
  · exact .inl ⟨h.closed.eq_root ha hp (of_decide_eq_true hroot), if_pos hroot⟩
  have hne : p ≠ f.rootPage := by
    rintro rfl
    exact hroot (decide_eq_true ha.root)
  obtain ⟨hP, hPleaf, hpP⟩ := ha.hangs p hp hne
  have hph := (h.closed.kid _ hP hPleaf p hpP).2.2
  have hmin := hshort.min hne
  have htwo := h.minSize_ge
  rw [if_neg hroot]
  by_cases henough : f.minSize ≤ (f.pages p).size
  · exact .inr (.inl ⟨h.fill (hshort.filled (fun _ => henough) fun _ => htwo.trans henough),
      if_pos henough⟩)
  have hshort' : (f.pairs p).length + 1 = f.minSize := by
    have hlt : (f.pairs p).length < f.minSize := Nat.not_le.mp henough
    omega
  have hPp : f.parentOf p ≠ p := by
    intro heq
    rw [heq] at hph
    omega
  have hPfilled := h.filled _ hP fun heq => hPp (Option.some.inj heq)
  have hPtwo : 2 ≤ (f.pages (f.parentOf p)).size := hPfilled.two hPleaf
  obtain ⟨index, hindex, hlt⟩ := IxNode.exists_findChild (n := f.pages (f.parentOf p)) hpP
  obtain ⟨neighborIndex, hni⟩ : ∃ i, i = if index = 0 then 1 else index - 1 := ⟨_, rfl⟩
  have hnilt : neighborIndex < (f.pages (f.parentOf p)).size := by
    rw [hni]
    split <;> omega
  obtain ⟨nb, hnb⟩ := IxNode.exists_valueAt hnilt
  have hi := getElem?_of_valueAt hnb
  have hj := getElem?_of_findChild hindex
  have hnbne : nb ≠ p := by
    rintro rfl
    obtain ⟨hlt, -⟩ := List.getElem?_eq_some_iff.mp hi
    have hidx := (List.getElem?_inj hlt (h.closed.nodup _ hP hPleaf)).mp (hi.trans hj.symm)
    rw [hni] at hidx
    split at hidx <;> omega
  have hindex' : (f.pages (f.pages p).parent).findChild p = some index := hindex
  have hnb' : (f.pages (f.pages p).parent).valueAt neighborIndex = some nb := hnb
  refine .inr (.inr ⟨nb, index, ⟨hP, hPleaf, hj, hni ▸ hi, hnbne, hshort'⟩, ?_⟩)
  simp only [if_neg henough, Option.bind_eq_bind, hindex', Option.bind_some, ← hni, hnb']
  by_cases hsum : f.minSize * 2 ≤ (f.pages p).size + (f.pages nb).size
  · have hsum' : f.minSize * 2 ≤ (f.pairs p).length + (f.pairs nb).length := hsum
    exact .inl ⟨by omega, if_pos hsum⟩
  · exact .inr ⟨Nat.not_le.mp hsum, if_neg hsum⟩

omit [DecidableEq K] in
theorem Neighbour.mem_kids {index : ℕ} (h : f.Neighbour T p nb index) :
    p ∈ f.kids (f.parentOf p) ∧ nb ∈ f.kids (f.parentOf p) :=
  ⟨List.mem_of_getElem? h.page, List.mem_of_getElem? h.neighbour⟩

/-- `coalesce_or_redistribute` returns, and the tree is balanced. -/
theorem Balanced.coalesceOrRedistribute (fuel : ℕ) (h : f.Balanced T ht (some p))
    (ha : f.Attached T) (hp : p ∈ T) (hshort : f.Short p) (hfuel : ∀ q ∈ T, ht q < ht p + fuel) :
    ∃ f' r T', coalesceOrRedistribute fuel f p = some (f', r) ∧ f'.btreeOrder = f.btreeOrder ∧
      f'.Balanced T' ht none ∧ f'.Attached T' := by
  induction fuel generalizing f T p with
  | zero =>
    have := hfuel p hp
    omega
  | succ fuel ih =>
    rcases h.coalesceOrRedistribute_cases fuel ha hp hshort with
      ⟨rfl, heq⟩ | ⟨hb, heq⟩ | ⟨nb, index, hn, hrest⟩
    · obtain ⟨f', r, T', hf', horder, hb, ha', -⟩ := h.adjustRoot ha hshort
      exact ⟨f', r, T', heq.trans hf', horder, hb, ha'⟩
    · obtain ⟨f', hf', hs⟩ := hb.exists_maintainParent ha hb.pos_below hp
      exact ⟨f', false, T, by rw [heq, hf']; rfl, hs.order, hs.balanced hb, hs.links.attached ha⟩
    · obtain ⟨hpP, hnbP⟩ := hn.mem_kids
      have hph := (h.closed.kid _ hn.parent hn.inner p hpP).2.2
      rcases hrest with ⟨hnbSize, heq⟩ | ⟨hsum, heq⟩
      · obtain ⟨f', -, -, -, -, hf', horder, hb, ha', -⟩ :=
          h.redistribute index ha hn.parent hn.inner hpP hnbP hn.ne hn.short hnbSize
        exact ⟨f', false, T, by rw [heq, hf']; rfl, horder, hb, ha'⟩
      · obtain ⟨f₁, hf₁, horder, hb, ha₁, hP₁, hshort₁, -⟩ :=
          h.coalesce (IxIndexHandle.coalesceOrRedistribute fuel)
          index ha hn.parent hn.inner hpP hnbP hn.ne rfl rfl hn.short hsum
        obtain ⟨f', r, T', hf', horder', hb', ha'⟩ := ih hb ha₁ hP₁ hshort₁ fun q hq => by
          have := hfuel q hq.1
          omega
        exact ⟨f', r, T', heq.trans (hf₁.trans hf'), horder'.trans horder, hb', ha'⟩

omit [DecidableEq K] in
theorem remove_fields [Ord K] {n n' : IxNode K} {key : K} (h : n.remove key = some n') :
    n'.parent = n.parent ∧ n'.isLeaf = n.isLeaf := by
  unfold IxNode.remove at h
  split at h
  · rw [erasePair_eq h]
    exact ⟨rfl, rfl⟩
  · cases h
    exact ⟨rfl, rfl⟩

omit [DecidableEq K] in
/-- A leaf that loses a pair may be short. -/
theorem Balanced.removeLeaf {leaf : ℤ} {n : IxNode K} (h : f.Balanced T ht none) (hmem : leaf ∈ T)
    (hleaf : f.leafOf leaf = true) (hparent : n.parent = f.parentOf leaf)
    (hnleaf : n.isLeaf = f.leafOf leaf) (hsize : n.size + 1 = (f.pages leaf).size) :
    (f.setNode leaf n).Balanced T ht (some leaf) ∧ (f.setNode leaf n).Short leaf := by
  have hs := sameLinks_setNode_leaf hleaf hparent hnleaf
  have hold := h.filled leaf hmem (Option.some_ne_none leaf)
  have hlen : ((f.setNode leaf n).pairs leaf).length + 1 = (f.pairs leaf).length := by
    rw [pairs_setNode, Function.update_self]
    exact hsize
  refine ⟨h.setLeaf hleaf hparent hnleaf, ?_, fun hne => ?_, fun hinner => ?_⟩
  · have hlt : (f.pairs leaf).length < (f.setNode leaf n).maxSize := hold.lt
    omega
  · have hmin : (f.setNode leaf n).minSize ≤ (f.pairs leaf).length := hold.min hne
    omega
  · rw [hs.leaf, hleaf] at hinner
    cases hinner

/-- `delete_entry` returns, and the tree is balanced again. -/
theorem Balanced.deleteEntry [Ord K] (h : f.Balanced T ht none) (key : K) :
    ∃ f' r T' ht', f.deleteEntry key = some (f', r) ∧ f'.btreeOrder = f.btreeOrder ∧
    f'.Balanced T' ht' none := by
  obtain ⟨leaf, hfind, hreach, hleaf⟩ := h.exists_leaf key
  obtain ⟨hb, ha⟩ := h.reach
  obtain ⟨n, hn, hsize⟩ := IxNode.exists_remove (n := f.pages leaf) key
  unfold IxIndexHandle.deleteEntry
  simp only [hfind, hn, Option.bind_eq_bind, Option.bind_some]
  by_cases hsame : n.size = (f.pages leaf).size
  · exact ⟨f, false, T, ht, if_pos hsame, rfl, h⟩
  · have hsize : n.size + 1 = (f.pages leaf).size := hsize.resolve_left fun heq => hsame (heq ▸ rfl)
    obtain ⟨hnparent, hnleaf⟩ := remove_fields hn
    obtain ⟨hb₁, hshort⟩ := hb.removeLeaf hreach hleaf hnparent hnleaf hsize
    have hs := sameLinks_setNode_leaf hleaf hnparent hnleaf
    have hfuel (q : ℤ) (hq : f.Reach q) : ht q < ht leaf + f.fuel :=
      lt_of_lt_of_le (hb₁.fuel q hq) (Nat.le_add_left _ _)
    obtain ⟨f', r, T', hf', horder, hb', -⟩ :=
      hb₁.coalesceOrRedistribute f.fuel (hs.attached ha) hreach hshort hfuel
    refine ⟨f', true, T', ht, ?_, horder, hb'⟩
    rw [if_neg hsame, hf']
    rfl

end Delete

/-! ## The shape after a run of calls -/

/-- The positions of the children that lead from the root to a page, the last one first. -/
inductive Path (f : IxIndexHandle K) : List ℕ → ℤ → Prop
  | root : Path f [] f.rootPage
  | kid {path : List ℕ} {p c : ℤ} {i : ℕ} :
      Path f path p → f.leafOf p = false → (f.kids p)[i]? = some c → Path f (i :: path) c

/-- The shape of a B+ tree whose pages hold fewer than `maxSize` pairs. -/
structure WellShaped (f : IxIndexHandle K) : Prop where
  depth : ∃ d, ∀ path p, f.Path path p → f.leafOf p = true → path.length = d
  once : ∀ path path' p, f.Path path p → f.Path path' p → path = path'
  parent : ∀ path p, f.Path path p → f.leafOf p = false → ∀ c ∈ f.kids p, f.parentOf c = p
  root : f.parentOf f.rootPage = IX_NO_PAGE
  size : ∀ path p, f.Path path p → p ≠ f.rootPage →
    f.maxSize / 2 ≤ (f.pairs p).length ∧ (f.pairs p).length ≤ f.maxSize - 1
  rootSize : (f.pairs f.rootPage).length ≤ f.maxSize - 1 ∧
    (f.leafOf f.rootPage = false → 2 ≤ (f.pairs f.rootPage).length)

/-- A call that changes the tree. -/
inductive TreeCall (K : Type)
  | insertEntry (key : K) (value : Rid)
  | deleteEntry (key : K)
deriving Repr

section Runs

variable [Ord K] [DecidableEq K]

/-- The index after a call; `none` when the call fails or does not return. -/
def call (f : IxIndexHandle K) : TreeCall K → Option (IxIndexHandle K)
  | .insertEntry key value => (f.insertEntry key value).map Prod.fst
  | .deleteEntry key => (f.deleteEntry key).map Prod.fst

/-- The index after a sequence of calls. -/
def calls (f : IxIndexHandle K) (cs : List (TreeCall K)) : Option (IxIndexHandle K) :=
  cs.foldlM call f

end Runs

section Shape

variable {f : IxIndexHandle K} {T : Set ℤ} {ht : ℤ → ℕ} {path path' : List ℕ} {p : ℤ}

theorem Path.mem (h : f.Closed T ht) (hp : f.Path path p) :
    p ∈ T ∧ ht p + path.length = ht f.rootPage := by
  induction hp with
  | root => exact ⟨h.root, rfl⟩
  | kid hq hleaf hc ih =>
    obtain ⟨hmem, -, hheight⟩ := h.kid _ ih.1 hleaf _ (List.mem_of_getElem? hc)
    have hlen := ih.2
    refine ⟨hmem, ?_⟩
    rw [List.length_cons]
    omega

/-- There is one path to a page. -/
theorem Path.unique (h : f.Closed T ht) (hroot : f.parentOf f.rootPage = IX_NO_PAGE)
    (hp : f.Path path p) (hp' : f.Path path' p) : path = path' := by
  have hne {path : List ℕ} {q c : ℤ} {i : ℕ} (hq : f.Path path q) (hleaf : f.leafOf q = false)
      (hc : (f.kids q)[i]? = some c) : f.parentOf c = q ∧ c ≠ f.rootPage := by
    have hq := (hq.mem h).1
    have hparent := (h.kid q hq hleaf c (List.mem_of_getElem? hc)).2.1
    refine ⟨hparent, ?_⟩
    rintro rfl
    exact h.ne_no_page hq (hparent.symm.trans hroot)
  induction hp generalizing path' with
  | root =>
    cases hp' with
    | root => rfl
    | kid hq hleaf hc => exact absurd rfl (hne hq hleaf hc).2
  | kid hq hleaf hc ih =>
    cases hp' with
    | root => exact absurd rfl (hne hq hleaf hc).2
    | kid hq' hleaf' hc' =>
      obtain rfl := (hne hq hleaf hc).1.symm.trans (hne hq' hleaf' hc').1
      have hlt := (List.getElem?_eq_some_iff.mp hc).1
      rw [(List.getElem?_inj hlt (h.nodup _ (hq.mem h).1 hleaf)).mp (hc.trans hc'.symm), ih hq']

/-- A balanced tree is well shaped. -/
theorem Balanced.wellShaped (h : f.Balanced T ht none) : f.WellShaped := by
  have hfilled (q : ℤ) (hq : q ∈ T) := h.filled q hq (Option.some_ne_none q)
  refine ⟨⟨ht f.rootPage, fun path p hp hleaf => ?_⟩,
    fun path path' p => Path.unique h.closed h.root,
    fun path p hp hleaf c hc => ?_, h.root, fun path p hp hne => ?_, ?_, ?_⟩
  · obtain ⟨hmem, hlen⟩ := hp.mem h.closed
    rw [h.closed.leaf p hmem, decide_eq_true_eq] at hleaf
    omega
  · exact (h.closed.kid p (hp.mem h.closed).1 hleaf c hc).2.1
  · have hp := hfilled p (hp.mem h.closed).1
    have hlt := hp.lt
    exact ⟨hp.min hne, by omega⟩
  · have hlt := (hfilled _ h.closed.root).lt
    omega
  · exact (hfilled _ h.closed.root).two

theorem balanced_createIndex {btreeOrder : ℕ} (h : 4 ≤ btreeOrder + 1) :
    (createIndex K btreeOrder).Balanced {IX_INIT_ROOT_PAGE} (fun _ => 0) none := by
  refine ⟨closed_createIndex btreeOrder, rfl, h, fun _ _ => ?_, fun p hp _ => ?_⟩
  · show 0 < IX_INIT_NUM_PAGES.toNat
    decide
  · obtain rfl : p = IX_INIT_ROOT_PAGE := hp
    have hleaf : (createIndex K btreeOrder).leafOf IX_INIT_ROOT_PAGE = true := rfl
    exact ⟨Nat.succ_pos _, fun hne => absurd rfl hne, fun hinner =>
      absurd hinner (by rw [hleaf]; decide)⟩

variable [Ord K] [DecidableEq K]

/-- A call returns, and keeps the balance. -/
theorem Balanced.call (h : f.Balanced T ht none) (c : TreeCall K) :
    ∃ f' T' ht', f.call c = some f' ∧ f'.Balanced T' ht' none := by
  cases c with
  | insertEntry key value =>
    obtain ⟨f', r, T', ht', hf', -, hb⟩ := h.insertEntry key value
    exact ⟨f', T', ht', by rw [IxIndexHandle.call, hf']; rfl, hb⟩
  | deleteEntry key =>
    obtain ⟨f', r, T', ht', hf', -, hb⟩ := h.deleteEntry key
    exact ⟨f', T', ht', by rw [IxIndexHandle.call, hf']; rfl, hb⟩

theorem Balanced.calls (h : f.Balanced T ht none) (cs : List (TreeCall K)) :
    ∃ f' T' ht', f.calls cs = some f' ∧ f'.Balanced T' ht' none := by
  induction cs generalizing f T ht with
  | nil => exact ⟨f, T, ht, rfl, h⟩
  | cons c cs ih =>
    obtain ⟨f₁, T₁, ht₁, hf₁, h₁⟩ := h.call c
    obtain ⟨f', T', ht', hf', h'⟩ := ih h₁
    refine ⟨f', T', ht', ?_, h'⟩
    rw [IxIndexHandle.calls, List.foldlM_cons, hf₁]
    exact hf'

/-- Every sequence of insertions and deletions returns, and leaves a well-shaped tree. -/
theorem tree_well_shaped (K : Type) [Ord K] [DecidableEq K] (btreeOrder : ℕ)
    (h : 4 ≤ btreeOrder + 1)
    (cs : List (TreeCall K)) : ∃ f, (createIndex K btreeOrder).calls cs = some f ∧
    f.WellShaped := by
  obtain ⟨f, T, ht, hf, hb⟩ := (balanced_createIndex h).calls cs
  exact ⟨f, hf, hb.wellShaped⟩

/-- Six insertions split the root and then a leaf; three deletions merge leaves until the root is a
leaf again. -/
theorem tree_well_shaped_split_merge :
    ∃ f, (createIndex ℕ 3).calls [.insertEntry 1 ⟨1, 1⟩, .insertEntry 2 ⟨1, 2⟩,
      .insertEntry 3 ⟨1, 3⟩,
        .insertEntry 4 ⟨1, 4⟩, .insertEntry 5 ⟨1, 5⟩, .insertEntry 6 ⟨1, 6⟩, .deleteEntry 1,
        .deleteEntry 2, .deleteEntry 3] = some f ∧ f.WellShaped ∧ f.numPages = 4 := by
  obtain ⟨f, hf, hshaped⟩ :=
    tree_well_shaped ℕ 3 (by decide) [.insertEntry 1 ⟨1, 1⟩, .insertEntry 2 ⟨1, 2⟩,
    .insertEntry 3 ⟨1, 3⟩, .insertEntry 4 ⟨1, 4⟩, .insertEntry 5 ⟨1, 5⟩, .insertEntry 6 ⟨1, 6⟩,
      .deleteEntry 1,
    .deleteEntry 2, .deleteEntry 3]
  have hpages : ((createIndex ℕ 3).calls [.insertEntry 1 ⟨1, 1⟩, .insertEntry 2 ⟨1, 2⟩,
    .insertEntry 3 ⟨1, 3⟩,
      .insertEntry 4 ⟨1, 4⟩, .insertEntry 5 ⟨1, 5⟩, .insertEntry 6 ⟨1, 6⟩, .deleteEntry 1,
        .deleteEntry 2,
      .deleteEntry 3]).map IxIndexHandle.numPages = some 4 := by decide +kernel
  rw [hf] at hpages
  exact ⟨f, hf, hshaped, Option.some.inj hpages⟩

end Shape

end IxIndexHandle

end Rmdb
