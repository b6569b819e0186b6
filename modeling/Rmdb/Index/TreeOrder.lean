import Rmdb.Index.IxScan
import Rmdb.Index.TreeDelete
import Rmdb.Index.LeafChain
import Rmdb.Index.TreeInv

/-!
# The order of the keys in a B+ tree

`insert_entry` keeps the keys in order as long as a leaf that is split is not hidden by its
separator: the key of the new neighbour has to be above the separator of the old leaf.  In an
ordered tree the search for a key ends at the leaf that has it, so `get_value` reads the pairs of
the leaves as a map.
-/

namespace Rmdb

open Levels

variable {K : Type} [LinearOrder K]

/-! ## Nodes -/

namespace IxNode

variable {n n' : IxNode K} {maxSize : ℕ} {key : K} {value rid : Rid} {u v : List (K × Rid)}
  {e : K × Rid}

theorem lowerBound_append (hpairs : n.pairs = u ++ v) (hu : ∀ e ∈ u, e.1 < key)
    (hv : ∀ e ∈ v, key ≤ e.1) : n.lowerBound key = u.length := by
  rw [lowerBound, hpairs]
  refine bisect_append (fun e he => ?_) fun e he => ?_
  · rw [Ordering.isLT_iff_eq_lt, compare_lt_iff_lt]
    exact hu e he
  · rw [Bool.eq_false_iff, ne_eq, Ordering.isLT_iff_eq_lt, compare_lt_iff_lt]
    exact not_lt_of_ge (hv e he)

theorem hasKey_iff (hpairs : n.pairs = u ++ v) (hu : ∀ e ∈ u, e.1 < key) (hv : ∀ e ∈ v, key ≤ e.1) :
    n.hasKey key = true ↔ ∃ e ∈ v.head?, e.1 = key := by
  rw [hasKey, lowerBound_append hpairs hu hv, hpairs, List.getElem?_append_right (Nat.le_refl _),
    Nat.sub_self, ← List.head?_eq_getElem?, Option.any_eq_true]
  refine exists_congr fun e => and_congr_right fun _ => ?_
  rw [Ordering.isEq_iff_eq_eq, compare_eq_iff_eq]

/-- The place of a key that the node does not have. -/
theorem exists_absent (hsorted : Sorted n.pairs) (hkey : ∀ e ∈ n.pairs, e.1 ≠ key) :
    ∃ u v, n.pairs = u ++ v ∧ (∀ e ∈ u, e.1 < key) ∧ ∀ e ∈ v, key < e.1 := by
  refine ⟨n.pairs.takeWhile fun e => (compare e.1 key).isLT, n.pairs.dropWhile
    fun e => (compare e.1 key).isLT,
    List.takeWhile_append_dropWhile.symm, fun e he => ?_, fun e he => ?_⟩
  · have hlt := List.mem_takeWhile_imp he
    rwa [Ordering.isLT_iff_eq_lt, compare_lt_iff_lt] at hlt
  · have hge := (downward_lt hsorted).of_dropWhile e he
    rw [Bool.eq_false_iff, ne_eq, Ordering.isLT_iff_eq_lt, compare_lt_iff_lt, not_lt] at hge
    exact lt_of_le_of_ne hge (hkey e ((List.dropWhile_sublist _).mem he)).symm

/-- The place of a pair. -/
theorem exists_present (hsorted : Sorted n.pairs) (hmem : (key, rid) ∈ n.pairs) :
    ∃ u v, n.pairs = u ++ (key, rid) :: v ∧ (∀ e ∈ u, e.1 < key) ∧ ∀ e ∈ v, key < e.1 := by
  obtain ⟨u, v, hpairs⟩ := List.append_of_mem hmem
  rw [hpairs] at hsorted
  obtain ⟨-, hv, hu⟩ := List.pairwise_append.1 hsorted
  exact ⟨u, v, hpairs, fun e he => hu e he _ List.mem_cons_self, (List.pairwise_cons.1 hv).1⟩

theorem hasKey_absent (hpairs : n.pairs = u ++ v) (hu : ∀ e ∈ u, e.1 < key)
    (hv : ∀ e ∈ v, key < e.1) : n.hasKey key = false := by
  rw [Bool.eq_false_iff, ne_eq, hasKey_iff hpairs hu fun e he => le_of_lt (hv e he)]
  rintro ⟨e, he, rfl⟩
  exact lt_irrefl _ (hv e (List.mem_of_head? he))

theorem lowerBound_present (hpairs : n.pairs = u ++ (key, rid) :: v) (hu : ∀ e ∈ u, e.1 < key)
    (hv : ∀ e ∈ v, key < e.1) : n.lowerBound key = u.length ∧ n.hasKey key = true := by
  have hle : ∀ e ∈ (key, rid) :: v, key ≤ e.1 := by
    intro e he
    rcases List.mem_cons.1 he with rfl | he
    · exact le_rfl
    · exact le_of_lt (hv e he)
  exact ⟨lowerBound_append hpairs hu hle, (hasKey_iff hpairs hu hle).2 ⟨_, rfl, rfl⟩⟩

theorem insert_absent (hpairs : n.pairs = u ++ v) (hu : ∀ e ∈ u, e.1 < key)
    (hv : ∀ e ∈ v, key < e.1)
    (h : n.insert maxSize key value = some n') : n'.pairs = u ++ (key, value) :: v := by
  rw [insert, hasKey_absent hpairs hu hv, if_neg Bool.false_ne_true, insertPairs,
    lowerBound_append hpairs hu fun e he => le_of_lt (hv e he)] at h
  split at h
  · cases h
    simp [hpairs]
  · cases h

theorem insert_present (hsorted : Sorted n.pairs) (hmem : (key, rid) ∈ n.pairs) :
    n.insert maxSize key value = some n := by
  obtain ⟨u, v, hpairs, hu, hv⟩ := exists_present hsorted hmem
  exact if_pos (lowerBound_present hpairs hu hv).2

theorem remove_absent (hpairs : n.pairs = u ++ v) (hu : ∀ e ∈ u, e.1 < key)
    (hv : ∀ e ∈ v, key < e.1) : n.remove key = some n := by
  rw [remove, hasKey_absent hpairs hu hv, if_neg Bool.false_ne_true]

theorem remove_present (hpairs : n.pairs = u ++ (key, rid) :: v) (hu : ∀ e ∈ u, e.1 < key)
    (hv : ∀ e ∈ v, key < e.1) : ∃ n', n.remove key = some n' ∧ n'.pairs = u ++ v := by
  obtain ⟨hlower, hhas⟩ := lowerBound_present hpairs hu hv
  have hlt : u.length < n.size := by
    rw [size, hpairs, List.length_append, List.length_cons]
    omega
  refine ⟨{ n with pairs := n.pairs.eraseIdx u.length }, ?_, ?_⟩
  · rw [remove, if_pos hhas, hlower, erasePair, if_pos hlt]
  · rw [hpairs, List.eraseIdx_append_of_length_le (Nat.le_refl _), Nat.sub_self,
      List.eraseIdx_cons_zero]

/-- A sorted node is a map. -/
theorem leafLookup_iff (hsorted : Sorted n.pairs) :
    n.leafLookup key = some rid ↔ (key, rid) ∈ n.pairs := by
  by_cases hkey : ∃ r, (key, r) ∈ n.pairs
  · obtain ⟨r, hmem⟩ := hkey
    obtain ⟨u, v, hpairs, hu, hv⟩ := exists_present hsorted hmem
    obtain ⟨hlower, hhas⟩ := lowerBound_present hpairs hu hv
    rw [leafLookup, if_pos hhas, hlower, hpairs]
    constructor
    · intro h
      simp at h
      simp [h]
    · intro h
      rcases List.mem_append.1 h with h | h
      · exact absurd (hu _ h) (lt_irrefl _)
      · rcases List.mem_cons.1 h with h | h
        · simp [(Prod.mk.inj h).2]
        · exact absurd (hv _ h) (lt_irrefl _)
  · have habsent : ∀ e ∈ n.pairs, e.1 ≠ key := by
      rintro ⟨k, r⟩ he rfl
      exact hkey ⟨r, he⟩
    obtain ⟨u, v, hpairs, hu, hv⟩ := exists_absent hsorted habsent
    rw [leafLookup, hasKey_absent hpairs hu hv, if_neg Bool.false_ne_true]
    exact iff_of_false (fun h => by cases h) fun h => hkey ⟨rid, h⟩

omit [LinearOrder K] in
theorem keyAt_zero : n.keyAt 0 = firstKey n.pairs := by
  rw [keyAt, ← List.head?_eq_getElem?, firstKey]

omit [LinearOrder K] in
theorem setKey_append (hpairs : n.pairs = u ++ e :: v) :
    (n.setKey u.length key).pairs = u ++ (key, e.2) :: v := by
  rw [setKey, hpairs, List.modify_eq_take_cons_drop (by simp)]
  simp

end IxNode

/-! ## Levels of pages -/

section Levels

variable {f f' : IxIndexHandle K} {T : Set ℤ} {ht : ℤ → ℕ} {lev : ℕ → List ℤ} {h i : ℕ}
  {p q leaf : ℤ} {x : Option ℤ}
  {key : K}

omit [LinearOrder K] in
/-- The pages of a level have its height. -/
theorem IxIndexHandle.Closed.placed (h : f.Closed T ht)
    (hs : Shaped pageOf f.pairs (ht f.rootPage) lev f.rootPage)
    (hi : i ≤ ht f.rootPage) (hp : p ∈ lev i) : p ∈ T ∧ ht p = i := by
  induction hd : ht f.rootPage - i generalizing i p with
  | zero =>
    obtain rfl : i = ht f.rootPage := by omega
    rw [hs.top, List.mem_singleton] at hp
    rw [hp]
    exact ⟨h.root, rfl⟩
  | succ d ih =>
    have hlt : i < ht f.rootPage := by omega
    obtain ⟨q, A, B, u, e, v, hlev, hpairs, rfl⟩ := hs.exists_parent hlt hp
    obtain ⟨hq, hheight⟩ := ih (i := i + 1) (p := q) hlt (by rw [hlev]; simp) (by omega)
    have hleaf : f.leafOf q = false := by
      rw [h.leaf q hq, hheight]
      simp
    obtain ⟨hmem, -, hkid⟩ :=
      h.kid q hq hleaf (pageOf e.2) (List.mem_map_of_mem (by rw [hpairs]; simp))
    exact ⟨hmem, by omega⟩

/-- The levels of a tree of pages. -/
theorem IxIndexHandle.Closed.treeInv (h : f.Closed T ht)
    (hroot : f.parentOf f.rootPage = IX_NO_PAGE)
    (hs : Shaped pageOf f.pairs (ht f.rootPage) lev f.rootPage)
    (ho : Ordered pageOf f.pairs (ht f.rootPage) lev x) : TreeInv f (ht f.rootPage) lev x := by
  refine ⟨hs, ho, hroot, fun i hi q hq e he => ?_, fun i hi p hp => ?_, fun i hi p hp => ?_⟩
  · obtain ⟨hqT, hheight⟩ := h.placed hs hi hq
    have hleaf : f.leafOf q = false := by
      rw [h.leaf q hqT, hheight]
      simp
    exact (h.kid q hqT hleaf (pageOf e.2) (List.mem_map_of_mem he)).2.1
  · obtain ⟨hpT, hheight⟩ := h.placed hs hi hp
    rw [h.leaf p hpT, hheight]
  · have hbound := h.bound p (h.placed hs hi hp).1
    exact ⟨by omega, hbound.2⟩

/-- The links are the same, the keys may be others. -/
theorem TreeInv.same (hf : TreeInv f h lev x) (hs : IxIndexHandle.SameLinks f f') {y : Option ℤ}
    (hshaped : Shaped pageOf f'.pairs h lev f.rootPage)
    (hordered : Ordered pageOf f'.pairs h lev y) : TreeInv f' h lev y := by
  refine ⟨hs.root.symm ▸ hshaped, hordered, ?_, fun i hi q hq e he => ?_, ?_, ?_⟩
  · rw [hs.parent, hs.root]
    exact hf.rootParent
  · have hinner : f.leafOf q = false := by
      rw [hf.leaf (i + 1) hi q hq]
      simp
    have hkid : pageOf e.2 ∈ f.kids q := by
      rw [← hs.kids q hinner]
      exact List.mem_map_of_mem he
    obtain ⟨e', he', heq⟩ := List.mem_map.1 hkid
    rw [hs.parent, ← heq]
    exact hf.parent i hi q hq e' he'
  · rw [hs.leaf]
    exact hf.leaf
  · rw [hs.next]
    exact hf.pageNo

/-! ## Search -/

theorem TreeInv.descend_spec {fuel : ℕ} (hf : TreeInv f h lev none) (hi : i ≤ h) (hp : p ∈ lev i)
    (hr : Routed pageOf f.pairs h lev i p key) (hd : f.descend key fuel p = some leaf) :
    leaf ∈ lev 0 ∧ Routed pageOf f.pairs h lev 0 leaf key := by
  induction fuel generalizing i p with
  | zero => cases hd
  | succ fuel ih =>
    rw [IxIndexHandle.descend] at hd
    have hleaf : (f.pages p).isLeaf = decide (i = 0) := hf.leaf i hi p hp
    cases i with
    | zero =>
      rw [hleaf, if_pos (decide_eq_true rfl)] at hd
      obtain rfl : p = leaf := Option.some.inj hd
      exact ⟨hp, hr⟩
    | succ i =>
      have hsorted := hf.ordered.sorted_node hf.shaped (Nat.succ_pos i) hi hp
      obtain ⟨u, e, v, hpairs, hlookup, hu, hv⟩ :=
        IxNode.internalLookup_spec (n := f.pages p) hsorted
          (hf.shaped.nonempty (i + 1) (Nat.succ_pos i) hi p hp) key
      have hpairs : f.pairs p = u ++ e :: v := hpairs
      rw [hleaf, decide_eq_false (Nat.succ_ne_zero i), if_neg Bool.false_ne_true, hlookup] at hd
      refine ih (Nat.le_of_succ_le hi) (hf.shaped.mem_child hi hp (by rw [hpairs]; simp)) ?_ hd
      exact hf.ordered.routed_child hf.shaped hi hp hr hpairs (or_iff_not_imp_left.2 hu) hv

/-- The search for a key ends at the leaf where it belongs. -/
theorem TreeInv.findLeafPage_spec (hf : TreeInv f h lev none)
    (hfind : f.findLeafPage key = some (some leaf)) :
    leaf ∈ lev 0 ∧ Routed pageOf f.pairs h lev 0 leaf key := by
  unfold IxIndexHandle.findLeafPage at hfind
  split at hfind
  · cases hfind
  · obtain ⟨leaf', hd, heq⟩ := Option.map_eq_some_iff.1 hfind
    cases heq
    exact hf.descend_spec (Nat.le_refl h) hf.shaped.root_mem (.inl rfl) hd

/-- The leaf that is found has the pair, or no leaf has it. -/
theorem TreeInv.mem_leaf_iff (hf : TreeInv f h lev none)
    (hfind : f.findLeafPage key = some (some leaf)) {rid : Rid} :
    (key, rid) ∈ f.pairs leaf ↔ (key, rid) ∈ flat f.pairs (lev 0) := by
  obtain ⟨hleaf, hrouted⟩ := hf.findLeafPage_spec hfind
  exact ⟨fun hmem => mem_flat.2 ⟨leaf, hleaf, hmem⟩, fun hmem =>
    hf.ordered.mem_leaf hf.shaped hleaf hrouted hmem rfl⟩

/-- `get_value` reads the pairs of the leaves. -/
theorem TreeInv.getValue_iff (hf : TreeInv f h lev none)
    (hfind : f.findLeafPage key = some (some leaf)) {rid : Rid} :
    f.getValue key = some (some rid) ↔ (key, rid) ∈ flat f.pairs (lev 0) := by
  have hsorted := hf.ordered.sorted leaf (hf.findLeafPage_spec hfind).1
  rw [← hf.mem_leaf_iff hfind, IxIndexHandle.pairs, ← IxNode.leafLookup_iff hsorted,
    IxIndexHandle.getValue, hfind]
  exact Option.some_inj

/-! ## Separators -/

/-- `maintain_parent` makes the separators above a page exact again. -/
theorem TreeInv.maintainParentLoop_spec {fuel : ℕ} (hf : TreeInv f h lev (some p)) (hi : i ≤ h)
    (hp : p ∈ lev i) (hm : IxIndexHandle.maintainParentLoop fuel f p = some f') :
    TreeInv f' h lev none ∧ (∀ j ≤ i, ∀ q ∈ lev j, f'.pairs q = f.pairs q) ∧
      (i < h → ∀ e ∈ flat f'.pairs (lev (i + 1)), Exact pageOf f'.pairs e ∨
        pageOf e.2 ≠ p ∧ e ∈ flat f.pairs (lev (i + 1))) := by
  induction fuel generalizing f p i with
  | zero => cases hm
  | succ fuel ih =>
    rw [IxIndexHandle.maintainParentLoop] at hm
    rcases Nat.lt_or_eq_of_le hi with hlt | rfl
    · obtain ⟨q, A, B, u, e, v, hlev, hpairs, hchild, hparent, hrank⟩ := hf.hangs hlt hp
      have hq : q ∈ lev (i + 1) := by
        rw [hlev]
        simp
      have hE : flat f.pairs (lev (i + 1)) = (flat f.pairs A ++ u) ++
          e :: (v ++ flat f.pairs B) := by
        rw [hlev, flat_append, flat_cons, hpairs]
        simp
      have hparent : (f.pages p).parent = q := hparent
      have hne : (f.pages p).parent ≠ IX_NO_PAGE := by
        have hpos := (hf.pageNo (i + 1) hlt q hq).1
        rw [hparent, IX_NO_PAGE]
        omega
      have hkeyAt : (f.pages q).keyAt u.length = some e.1 := by
        have hpairs : (f.pages q).pairs = u ++ e :: v := hpairs
        simp [IxNode.keyAt, hpairs]
      rw [if_neg hne] at hm
      simp only [hparent, hrank, hkeyAt, Option.bind_eq_bind, Option.bind_some,
        Option.bind_eq_some_iff] at hm
      obtain ⟨k, hk, hm⟩ := hm
      have hfirst : firstKey (f.pairs p) = some k := IxNode.keyAt_zero.symm.trans hk
      obtain ⟨hX, hY⟩ := hf.shaped.not_mem_of_append hlt hE
      rw [hchild] at hX hY
      -- the pair of `p` is the one at its place
      have huniq (d : K × Rid) (hd : d ∈ flat f.pairs (lev (i + 1))) (hdp : pageOf d.2 = p) :
          d = e := by
        rw [hE] at hd
        rcases List.mem_append.1 hd with hd | hd
        · exact absurd (hdp ▸ child_mem hd) hX
        · rcases List.mem_cons.1 hd with hd | hd
          · exact hd
          · exact absurd (hdp ▸ child_mem hd) hY
      split at hm
      · rename_i heq
        obtain rfl : f = f' := Option.some.inj hm
        have hexact (d : K × Rid) (hd : d ∈ flat f.pairs (lev (i + 1))) (hdp : pageOf d.2 = p) :
            Exact pageOf f.pairs d := by
          rw [Exact, hdp, hfirst, huniq d hd hdp, heq]
        refine ⟨hf.same (.refl f) hf.shaped (hf.ordered.settle hf.shaped hi hp fun _ => hexact),
          fun _ _ _ _ => rfl,
          fun _ d hd => ?_⟩
        by_cases hdp : pageOf d.2 = p
        · exact .inl (hexact d hd hdp)
        · exact .inr ⟨hdp, hd⟩
      · obtain ⟨f₁, hf₁⟩ : ∃ f₁, f₁ = f.setNode q ((f.pages q).setKey u.length k) := ⟨_, rfl⟩
        rw [← hf₁] at hm
        have hlinks : IxIndexHandle.SameLinks f f₁ :=
          hf₁ ▸ IxIndexHandle.sameLinks_setKey q u.length k
        have hafter : f₁.pairs = Function.update f.pairs q (u ++ (k, e.2) :: v) := by
          rw [hf₁, IxIndexHandle.pairs_setNode, IxNode.setKey_append hpairs]
        have hframe (r : ℤ) (hr : r ≠ q) : f₁.pairs r = f.pairs r := by
          rw [hafter, Function.update_of_ne hr]
        have hrenew : Renew pageOf f.pairs f₁.pairs h lev i p q A B u v e k :=
          ⟨hlt, hlev, hpairs, by rw [hafter, Function.update_self], hchild, hfirst, hframe⟩
        have hf₂ := hf.same hlinks (hrenew.shaped hf.shaped) (hrenew.ordered hf.shaped hf.ordered)
        obtain ⟨hinv, hsame, -⟩ := ih hf₂ hlt hq hm
        have hbelow (j : ℕ) (hj : j ≤ i) (r : ℤ) (hr : r ∈ lev j) : f'.pairs r = f.pairs r := by
          rw [hsame j (Nat.le_succ_of_le hj) r hr, hframe r]
          rintro rfl
          have := hf.shaped.rank j (hj.trans hi) (i + 1) hlt r hr hq
          omega
        refine ⟨hinv, hbelow, fun _ d hd => ?_⟩
        rw [flat_congr (hsame (i + 1) le_rfl),
          (hrenew.rebuild hf.shaped).flat_above' hf.shaped] at hd
        rw [List.append_assoc, List.singleton_append] at hd
        rcases List.mem_append.1 hd with hd | hd
        · exact .inr
            ⟨fun hdp => hX (hdp ▸ child_mem hd), by rw [hE]; exact List.mem_append_left _ hd⟩
        · rcases List.mem_cons.1 hd with rfl | hd
          · exact .inl (by rw [Exact, hchild, hbelow i le_rfl p hp, hfirst])
          · exact .inr ⟨fun hdp => hY (hdp ▸ child_mem hd), by
              rw [hE]
              exact List.mem_append_right _ (List.mem_cons_of_mem _ hd)⟩
    · have hroot : p = f.rootPage := by
        rw [hf.shaped.top, List.mem_singleton] at hp
        exact hp
      have hnone : (f.pages p).parent = IX_NO_PAGE := by
        rw [hroot]
        exact hf.rootParent
      rw [if_pos hnone] at hm
      obtain rfl : f = f' := Option.some.inj hm
      refine ⟨hf.same (.refl f) hf.shaped (hf.ordered.settle hf.shaped hi hp fun hlt =>
        absurd hlt (lt_irrefl _)),
        fun _ _ _ _ => rfl, fun hlt => absurd hlt (lt_irrefl _)⟩

end Levels

/-! ## Splits -/

namespace IxIndexHandle

section Split

variable {f f₁ f₂ f₃ f' : IxIndexHandle K} {T : Set ℤ} {ht : ℤ → ℕ} {lev lev₂ lev' : ℕ → List ℤ}
  {h i : ℕ} {p q : ℤ}
  {key : K} {A B : List ℤ} {u v : List (K × Rid)} {e : K × Rid} {n : IxNode K}

omit [LinearOrder K] in
theorem Splits.pairs_left (hs : Splits f p f₁) :
    f₁.pairs p = (f.pairs p).take ((f.pairs p).length / 2) := by
  rw [hs.pairs, Function.update_self]

omit [LinearOrder K] in
theorem Splits.pairs_right (hs : Splits f p f₁) (hp : p ≠ f.nextPageNo) :
    f₁.pairs f.nextPageNo = (f.pairs p).drop ((f.pairs p).length / 2) := by
  rw [hs.pairs, Function.update_of_ne hp.symm, Function.update_self]

omit [LinearOrder K] in
theorem Splits.pairs_other (hs : Splits f p f₁) (hqp : q ≠ p) (hq : q ≠ f.nextPageNo) :
    f₁.pairs q = f.pairs q := by
  rw [hs.pairs, Function.update_of_ne hqp, Function.update_of_ne hq]

omit [LinearOrder K] in
theorem Splits.parentOf_self (hs : Splits f p f₁) (h : f.Closed T ht) (hp : p ∈ T) :
    f₁.parentOf p = f.parentOf p := by
  have hkid : ¬ (f.leafOf p = false ∧ p ∈ (f.kids p).drop ((f.pairs p).length / 2)) := fun hc =>
    h.not_mem_kids_self hp hc.1 (List.mem_of_mem_drop hc.2)
  rw [hs.parent]
  simp only [if_neg hkid, if_neg (h.bound p hp).2.ne]

/-- The page `p` of level `i` of a tree of height `h` is split, which gives `f₁`; in `f'` its new
neighbour hangs in the tree. -/
structure SplitInto (f f₁ f' : IxIndexHandle K) (h : ℕ) (lev lev' : ℕ → List ℤ) (i : ℕ)
    (p : ℤ) : Prop where
  content : ∀ j ≤ i, flat f'.pairs (lev' j) = flat f.pairs (lev j)
  below : ∀ j < i, lev' j = lev j
  level : ∀ L R, lev i = L ++ p :: R → lev' i = L ++ p :: f.nextPageNo :: R
  separators : ∀ e ∈ flat f'.pairs (lev' (i + 1)),
    i < h ∧ e ∈ flat f.pairs (lev (i + 1)) ∨ Exact pageOf f'.pairs e
  pairs : ∀ j ≤ i, ∀ q ∈ lev' j, f'.pairs q = f₁.pairs q
  chain : SameChain f₁.nextPageNo f₁ f'

omit [LinearOrder K] in
/-- The two halves of a page. -/
theorem Balanced.halves (hb : f.Balanced T ht (some p)) (hsize : (f.pairs p).length = f.maxSize) :
    (f.pairs p).take ((f.pairs p).length / 2) ≠ [] ∧ (f.pairs p).drop
    ((f.pairs p).length / 2) ≠ [] := by
  have hfour := hb.order
  refine ⟨List.ne_nil_of_length_pos ?_, List.ne_nil_of_length_pos ?_⟩
  · rw [List.length_take]
    omega
  · rw [List.length_drop]
    omega

omit [LinearOrder K] in
theorem newRoot_pairs {old new : ℤ} (hold : old ≠ f.nextPageNo) (hnew : new ≠ f.nextPageNo)
    (hf : f.newRoot old new = some f') :
    ∃ k k', firstKey (f.pairs old) = some k ∧ firstKey (f.pairs new) = some k' ∧
      f'.pairs = Function.update f.pairs f.nextPageNo [(k, ⟨old, -1⟩), (k', ⟨new, -1⟩)] := by
  unfold IxIndexHandle.newRoot at hf
  simp only [Option.bind_eq_bind, Option.bind_eq_some_iff] at hf
  obtain ⟨k, hk, k', hk', n, hn, n', hn', hf⟩ := hf
  have hpairs : ((f.createNode.1.setParentPageNo old f.createNode.2).setParentPageNo new
    f.createNode.2).pairs = Function.update f.pairs f.nextPageNo [] := by
    rw [pairs_setParentPageNo, pairs_setParentPageNo, pairs_createNode]
  have hkey (q : ℤ) (hq : q ≠ f.nextPageNo) :
      (((f.createNode.1.setParentPageNo old f.createNode.2).setParentPageNo new
        f.createNode.2).pages q).keyAt 0 = firstKey (f.pairs q) := by
    refine IxNode.keyAt_zero.trans (congrArg firstKey ?_)
    show IxIndexHandle.pairs _ q = _
    rw [hpairs, Function.update_of_ne hq]
  have hroot : n'.pairs = [(k, ⟨old, -1⟩), (k', ⟨new, -1⟩)] := by
    rw [insertPairs_eq hn', insertPairs_eq hn]
    rfl
  refine ⟨k, k', (hkey old hold).symm.trans hk, (hkey new hnew).symm.trans hk', ?_⟩
  cases hf
  show (IxIndexHandle.setNode _ f.createNode.2 n').pairs = _
  rw [pairs_setNode, hpairs, createNode_snd, Function.update_idem, hroot]

/-- The root is split. -/
theorem Balanced.splitRoot (hb : f.Balanced T ht (some p)) (hf : TreeInv f (ht f.rootPage) lev none)
    (htop : ∀ q ∈ T, f.parentOf q = IX_NO_PAGE → q = f.rootPage) (hp : p = f.rootPage)
    (hsize : (f.pairs p).length = f.maxSize) (hs : Splits f p f₁)
    (horder : f₁.btreeOrder = f.btreeOrder) (hroot : f₁.newRoot p f.nextPageNo = some f') :
    ∃ T' ht' lev', f'.Balanced T' ht' none ∧ TreeInv f' (ht' f'.rootPage) lev' none ∧
      SplitInto f f₁ f' (ht f.rootPage) lev lev' (ht f.rootPage) p := by
  have hpT : p ∈ T := hp ▸ hb.closed.root
  have hpn : p ≠ f.nextPageNo := (hb.closed.bound p hpT).2.ne
  have hpending := hb.split hpT hsize htop hs horder
  have hparent : f₁.parentOf p = IX_NO_PAGE := by
    rw [hs.parentOf_self hb.closed hpT, hp]
    exact hb.root
  obtain ⟨g, hg, -, hb', -⟩ := hpending.newRoot hparent
  obtain rfl : f' = g := Option.some.inj (hroot.symm.trans hg)
  have hnext : f₁.nextPageNo = f.nextPageNo + 1 := hs.next
  have hroot' := (newRoot_views hroot).1
  obtain ⟨k, k', hk, hk', hpairs⟩ :=
    newRoot_pairs (by rw [hnext]; have := (hb.closed.bound p hpT).2; omega)
    (by rw [hnext]; omega) hroot
  have hbound (j : ℕ) (hj : j ≤ ht f.rootPage) (q : ℤ) (hq : q ∈ lev j) : q < f.nextPageNo :=
    (hf.pageNo j hj q hq).2
  have hsame (q : ℤ) (hq : q < f₁.nextPageNo) : f'.pairs q = f₁.pairs q := by
    rw [hpairs, Function.update_of_ne hq.ne]
  obtain ⟨hleft, hright⟩ := hb.halves hsize
  have hgrow : Grow pageOf f.pairs f'.pairs (ht f.rootPage) lev f.rootPage f.nextPageNo
    f₁.nextPageNo
      ((f.pairs p).take ((f.pairs p).length / 2)) ((f.pairs p).drop ((f.pairs p).length / 2))
      (k, ⟨p, -1⟩) (k', ⟨f.nextPageNo, -1⟩) := by
    refine ⟨?_, ?_, ?_, ?_, hp, rfl, fun q hqp hqn hqr => ?_,
      fun j hj => ⟨fun hmem => ?_, fun hmem => ?_⟩, ?_, hleft,
      hright⟩
    · rw [← hp, List.take_append_drop]
    · rw [← hp, hsame p (by have := (hb.closed.bound p hpT).2; omega), hs.pairs_left]
    · rw [hsame _ (by omega), hs.pairs_right hpn]
    · rw [hpairs, Function.update_self]
    · rw [hpairs, Function.update_of_ne hqr, hs.pairs_other (hp ▸ hqp) hqn]
    · exact lt_irrefl _ (hbound j hj _ hmem)
    · have := hbound j hj _ hmem
      omega
    · omega
  rw [hs.pairs_left] at hk
  rw [hs.pairs_right hpn] at hk'
  have hheight : Function.update (Function.update ht f.nextPageNo (ht p)) f₁.nextPageNo
      (Function.update ht f.nextPageNo (ht p) p + 1) f'.rootPage = ht f.rootPage + 1 := by
    rw [hroot', Function.update_self, Function.update_of_ne hpn, hp]
  refine ⟨_, _, grown (ht f.rootPage) lev f.rootPage f.nextPageNo f₁.nextPageNo, hb', ?_, ?_⟩
  · refine hb'.closed.treeInv hb'.root ?_ ?_
    · rw [hheight, hroot']
      exact hgrow.shaped hf.shaped
    · rw [hheight]
      exact hgrow.ordered hf.shaped hf.ordered hk hk'
  · refine ⟨fun j hj => hgrow.flat_eq hf.shaped hj, fun j hj => grown_of_lt hj, fun L R hlev => ?_,
      fun e he => .inr ?_,
      fun j hj q hq => hsame q ?_, sameChain_newRoot hroot⟩
    · rw [hf.shaped.top, ← hp] at hlev
      obtain ⟨rfl, rfl⟩ : L = [] ∧ R = [] := by
        have hlen := congrArg List.length hlev
        simp at hlen
        exact ⟨List.length_eq_zero_iff.1 (by omega), List.length_eq_zero_iff.1 (by omega)⟩
      rw [grown_self, ← hp]
      rfl
    · rw [grown_top, flat_singleton, hgrow.above] at he
      rcases List.mem_pair.1 he with rfl | rfl
      · rw [Exact, hgrow.childLeft, hgrow.left, hk]
      · rw [Exact, hgrow.childRight, hgrow.right, hk']
    · rcases hgrow.mem_grown hf.shaped (Nat.le_succ_of_le hj) hq with
        ⟨hold, -⟩ | ⟨rfl, -⟩ | ⟨-, hj'⟩
      · have := hbound j hj q hold
        omega
      · omega
      · omega

/-- The new neighbour becomes a child of the parent, next to the page. -/
theorem TreeInv.divide {maxSize : ℕ} (hf : TreeInv f h lev none) (hi : i < h) (hp : p ∈ lev i)
    (hq : Hangs f lev i p q A B u e v) (hs : Splits f p f₁)
    (hhalves : (f.pairs p).take ((f.pairs p).length / 2) ≠ [] ∧
      (f.pairs p).drop ((f.pairs p).length / 2) ≠ [])
    (hkey : firstKey (f₁.pairs f.nextPageNo) = some key) (hsep : i = 0 → e.1 < key)
    (hn : (f₁.pages q).insert maxSize key ⟨f.nextPageNo, -1⟩ = some n) :
    Divide pageOf f.pairs (f₁.setNode q n).pairs h lev i p f.nextPageNo q A B u v
      ((f.pairs p).take ((f.pairs p).length / 2)) ((f.pairs p).drop ((f.pairs p).length / 2)) e
      (key, ⟨f.nextPageNo, -1⟩) := by
  have hqmem : q ∈ lev (i + 1) := by
    rw [hq.level]
    simp
  have hbound (j : ℕ) (hj : j ≤ h) (r : ℤ) (hr : r ∈ lev j) : r ≠ f.nextPageNo :=
    (hf.pageNo j hj r hr).2.ne
  have hpn := hbound i hi.le p hp
  have hqn := hbound (i + 1) hi q hqmem
  have hpq : p ≠ q := by
    rintro rfl
    have := hf.shaped.rank i hi.le (i + 1) hi p hp hqmem
    omega
  have hpairs : (f₁.pages q).pairs = (u ++ [e]) ++ v := by
    refine (hs.pairs_other hpq.symm hqn).trans ?_
    rw [hq.pairs]
    simp
  rw [hs.pairs_right hpn] at hkey
  obtain ⟨hu, he, hv⟩ := hf.ordered.place hf.shaped hi hqmem hq.pairs
    (by rw [hq.child, List.take_append_drop]) hhalves.1 hkey hsep
  have hue : ∀ d ∈ u ++ [e], d.1 < key := by
    intro d hd
    rcases List.mem_append.1 hd with hd | hd
    · exact (hu d hd).trans he
    · rw [List.mem_singleton.1 hd]
      exact he
  have hnpairs := IxNode.insert_absent hpairs hue hv hn
  have hview : (f₁.setNode q n).pairs = Function.update f₁.pairs q n.pairs := pairs_setNode ..
  refine ⟨hi, hq.level, hq.pairs, ?_, hq.child, rfl, (List.take_append_drop ..).symm, ?_, ?_,
    hhalves.1, hhalves.2,
    fun r hrp hrn hrq => ?_, fun j hj hmem => hbound j hj _ hmem rfl⟩
  · rw [hview, Function.update_self, hnpairs]
    simp
  · rw [hview, Function.update_of_ne hpq, hs.pairs_left]
  · rw [hview, Function.update_of_ne hqn.symm, hs.pairs_right hpn]
  · rw [hview, Function.update_of_ne hrq, hs.pairs_other hrp hrn]

theorem SplitInto.of_divide {a b : List (K × Rid)} {e' : K × Rid} (hf : TreeInv f h lev none)
    (hd : Divide pageOf f.pairs f₂.pairs h lev i p f.nextPageNo q A B u v a b e e')
    (hkey : firstKey b = some e'.1)
    (hpairs : ∀ r, r ≠ q → f₂.pairs r = f₁.pairs r) (hchain : SameChain f₁.nextPageNo f₁ f₂) :
    SplitInto f f₁ f₂ h lev (relevel pageOf lev i (flat f₂.pairs (lev (i + 1)))) i p := by
  have hs := hf.shaped
  have hr := hd.rebuild hs
  refine ⟨fun j hj => ?_, fun j hj => relevel_of_ne _ hj.ne, fun L R => hd.relevel_eq hs,
    fun d hmem => ?_,
    fun j hj r hmem => hpairs r ?_, hchain⟩
  · rcases Nat.lt_or_eq_of_le hj with hlt | rfl
    · rw [relevel_of_ne _ hlt.ne, hr.flat_other hs (hj.trans hd.lt.le) hlt.ne (by omega)]
    · exact hr.flat_self hs
  · rw [relevel_of_ne _ (by omega), hr.flat_above' hs] at hmem
    rw [hr.flat_above]
    rcases List.mem_append.1 hmem with hmem | hmem
    · rcases List.mem_append.1 hmem with hmem | hmem
      · exact .inl ⟨hd.lt, List.mem_append_left _ (List.mem_append_left _ hmem)⟩
      · rcases List.mem_pair.1 hmem with rfl | rfl
        · exact .inl ⟨hd.lt, by simp⟩
        · exact .inr (by rw [Exact, hd.childRight, hd.right, hkey])
    · exact .inl ⟨hd.lt, List.mem_append_right _ hmem⟩
  · rintro rfl
    rcases hr.mem_relevel hs hmem with hold | ⟨-, -, hnew⟩
    · have := hs.rank j (hj.trans hd.lt.le) (i + 1) hd.lt r hold hd.mem_parent
      omega
    · exact hnew (i + 1) hd.lt hd.mem_parent

/-- The parent is split in turn. -/
theorem SplitInto.trans (hs : SplitInto f f₁ f₂ h lev lev₂ i p)
    (hs' : SplitInto f₂ f₃ f' h lev₂ lev' (i + 1) q)
    (hf₂ : TreeInv f₂ h lev₂ none) (hi : i < h)
    (hpairs : ∀ j ≤ i, ∀ r ∈ lev₂ j, f₃.pairs r = f₂.pairs r)
    (hchain : SameChain f₂.nextPageNo f₂ f₃) (hnext : f₁.nextPageNo ≤ f₂.nextPageNo)
    (hnext' : f₂.nextPageNo ≤ f₃.nextPageNo) : SplitInto f f₁ f' h lev lev' i p := by
  have hlev (j : ℕ) (hj : j ≤ i) : lev' j = lev₂ j := hs'.below j (Nat.lt_succ_of_le hj)
  have hsame (j : ℕ) (hj : j ≤ i) (r : ℤ) (hr : r ∈ lev₂ j) : f'.pairs r = f₂.pairs r := by
    rw [hs'.pairs j (Nat.le_succ_of_le hj) r (hlev j hj ▸ hr), hpairs j hj r hr]
  refine ⟨fun j hj => ?_, fun j hj => ?_, fun L R hlevel => ?_, fun e he => ?_,
    fun j hj r hr => ?_, ?_⟩
  · rw [hs'.content j (Nat.le_succ_of_le hj), hs.content j hj]
  · rw [hlev j hj.le, hs.below j hj]
  · rw [hlev i le_rfl]
    exact hs.level L R hlevel
  · rw [hs'.content (i + 1) le_rfl] at he
    refine (hs.separators e he).imp_right fun hexact => ?_
    have hmem : pageOf e.2 ∈ lev₂ i := by
      rw [← hf₂.shaped.below i hi]
      exact child_mem he
    rw [Exact, hsame i le_rfl _ hmem]
    exact hexact
  · rw [hlev j hj] at hr
    rw [hsame j hj r hr, hs.pairs j hj r hr]
  · exact (hs.chain.trans hchain hnext).trans hs'.chain (hnext.trans hnext')

omit [LinearOrder K] in
theorem insertIntoParent_cases [Ord K] {fuel : ℕ} {old new : ℤ}
    (h : insertIntoParent (fuel + 1) f old key new = some f') :
    (f.parentOf old = IX_NO_PAGE ∧ f.newRoot old new = some f') ∨
    (f.parentOf old ≠ IX_NO_PAGE ∧ ∃ n, (f.pages (f.parentOf old)).insert f.maxSize key
      ⟨new, -1⟩ = some n ∧ ((n.size < f.maxSize ∧ f' = f.setNode (f.parentOf old) n) ∨
        (f.maxSize ≤ n.size ∧ ∃ f₁ new' newKey,
          (f.setNode (f.parentOf old) n).split (f.parentOf old) = some (f₁, new') ∧
          (f₁.pages new').keyAt 0 = some newKey ∧
          insertIntoParent fuel f₁ (f.parentOf old) newKey new' = some f'))) := by
  rw [IxIndexHandle.insertIntoParent] at h
  split at h
  · rename_i hroot
    exact .inl ⟨of_decide_eq_true hroot, h⟩
  · rename_i hroot
    simp only [Option.bind_eq_bind, Option.bind_eq_some_iff] at h
    obtain ⟨n, hn, h⟩ := h
    refine .inr ⟨fun heq => hroot (decide_eq_true heq), n, hn, ?_⟩
    split at h
    · rename_i hfull
      simp only [Option.bind_eq_some_iff] at h
      obtain ⟨⟨f₁, new'⟩, hsplit, newKey, hkey, h⟩ := h
      exact .inr ⟨hfull, f₁, new', newKey, hsplit, hkey, h⟩
    · rename_i hfew
      exact .inl ⟨Nat.lt_of_not_le hfew, (Option.some.inj h).symm⟩

omit [LinearOrder K] in
/-- A page keeps its neighbours when it gets a pair. -/
theorem insert_neighbours [Ord K] {n n' : IxNode K} {maxSize : ℕ} {value : Rid}
    (h : n.insert maxSize key value = some n') :
    n'.nextLeaf = n.nextLeaf ∧ n'.prevLeaf = n.prevLeaf := by
  unfold IxNode.insert at h
  split at h
  · cases h
    exact ⟨rfl, rfl⟩
  · rw [insertPairs_eq h]
    exact ⟨rfl, rfl⟩

/-- `insert_into_parent` keeps the order when the separator of a leaf is below the key of its new
neighbour. -/
theorem Balanced.splitInto (fuel : ℕ) (hb : f.Balanced T ht (some p))
    (hf : TreeInv f (ht f.rootPage) lev none)
    (htop : ∀ q ∈ T, f.parentOf q = IX_NO_PAGE → q = f.rootPage) (hi : i ≤ ht f.rootPage)
    (hp : p ∈ lev i)
    (hsize : (f.pairs p).length = f.maxSize) (hs : Splits f p f₁)
    (horder : f₁.btreeOrder = f.btreeOrder) (hkey : firstKey (f₁.pairs f.nextPageNo) = some key)
    (hsep : i = 0 → 0 < ht f.rootPage → ∀ e ∈ flat f.pairs (lev 1), pageOf e.2 = p → e.1 < key)
    (hins : insertIntoParent fuel f₁ p key f.nextPageNo = some f') :
    ∃ T' ht' lev', f'.Balanced T' ht' none ∧ TreeInv f' (ht' f'.rootPage) lev' none ∧
      SplitInto f f₁ f' (ht f.rootPage) lev lev' i p := by
  induction fuel generalizing f T ht lev i p f₁ key with
  | zero => cases hins
  | succ fuel ih =>
    obtain ⟨hpT, hheight⟩ := hb.closed.placed hf.shaped hi hp
    have hparent := hs.parentOf_self hb.closed hpT
    rcases insertIntoParent_cases hins with ⟨hnone, hroot⟩ | ⟨hsome, n, hn, hrest⟩
    · have hproot : p = f.rootPage := htop p hpT (hparent.symm.trans hnone)
      obtain rfl : i = ht f.rootPage := by rw [← hheight, hproot]
      exact hb.splitRoot hf htop hproot hsize hs horder hroot
    · have hlt : i < ht f.rootPage := by
        refine lt_of_le_of_ne hi fun heq => hsome ?_
        subst heq
        rw [hf.shaped.top, List.mem_singleton] at hp
        rw [hparent, hp]
        exact hb.root
      obtain ⟨q, A, B, u, e, v, hq⟩ := hf.hangs hlt hp
      have hqmem : q ∈ lev (i + 1) := by
        rw [hq.level]
        simp
      have hqparent : f₁.parentOf p = q := hparent.trans hq.parent
      have hpending := hb.split hpT hsize htop hs horder
      have hqT := (hpending.balanced.closed.up p hpending.splitting.old_mem hsome).1
      have hqlt := (hpending.balanced.filled _ hqT (Option.some_ne_none _)).lt
      have hqsize : n = f₁.pages (f₁.parentOf p) ∨
          n.size = (f₁.pages (f₁.parentOf p)).size + 1 := by
        obtain ⟨n', hn', hsize'⟩ := IxNode.exists_insert key ⟨f.nextPageNo, -1⟩ hqlt
        obtain rfl : n = n' := Option.some.inj (hn.symm.trans hn')
        exact hsize'
      have hge : (f₁.pairs (f₁.parentOf p)).length ≤ n.size := by
        rcases hqsize with rfl | hqsize
        · exact le_rfl
        · rw [hqsize]
          exact Nat.le_succ _
      obtain ⟨hb₂, hsmall, htop₂⟩ := hpending.insertParent hsome hn hge
      rw [hqparent] at hn hrest hqlt hqsize hb₂ hsmall htop₂ hqT
      have hroot₂ : (f₁.setNode q n).rootPage = f.rootPage := hs.root
      have hht : Function.update ht f.nextPageNo (ht p) (f₁.setNode q n).rootPage =
          ht f.rootPage := by
        rw [hroot₂, Function.update_of_ne (hb.closed.bound _ hb.closed.root).2.ne]
      have hhalves := hb.halves hsize
      have hsep' : i = 0 → e.1 < key := by
        rintro rfl
        exact hsep rfl hlt e (mem_flat.2 ⟨q, hqmem, by rw [hq.pairs]; simp⟩) hq.child
      have hd := TreeInv.divide hf hlt hp hq hs hhalves hkey hsep' hn
      have hright : firstKey ((f.pairs p).drop ((f.pairs p).length / 2)) = some key := by
        rw [← hs.pairs_right (hb.closed.bound p hpT).2.ne]
        exact hkey
      have hinv₂ := hb₂.closed.treeInv hb₂.root
        (by rw [hht, hroot₂]; exact (hd.rebuild hf.shaped).shaped hf.shaped)
        (by rw [hht]; exact hd.ordered hf.shaped hf.ordered hright hsep')
      obtain ⟨hnext, hprev⟩ := insert_neighbours hn
      have hinto : SplitInto f f₁ _ _ _ _ _ _ := .of_divide hf hd hright
        (fun r hr => by rw [pairs_setNode, Function.update_of_ne hr])
          (sameChain_setNode (.inl ⟨hnext, hprev⟩))
      rcases hrest with ⟨hfew, rfl⟩ | ⟨hfull, f₃, new, newKey, hsplit, hnewKey, hins⟩
      · exact ⟨_, _, _, hsmall hfew, hinv₂, hinto⟩
      · have hqn : q ≠ (f₁.setNode q n).nextPageNo := (hb₂.closed.bound q hqT).2.ne
        obtain ⟨rfl, hs₃⟩ := split_spec hqn hsplit
        have hlen : ((f₁.setNode q n).pairs q).length = (f₁.setNode q n).maxSize := by
          rw [pairs_setNode, Function.update_self]
          show n.pairs.length = f₁.maxSize
          have hfull : f₁.maxSize ≤ n.pairs.length := hfull
          rcases hqsize with rfl | hqsize
          · exact absurd hqlt (not_lt_of_ge hfull)
          · have hqsize : n.pairs.length = (f₁.pairs q).length + 1 := hqsize
            omega
        have horder₃ : f₃.btreeOrder = (f₁.setNode q n).btreeOrder := by
          obtain ⟨g, hg, hgorder⟩ := exists_split (f := f₁.setNode q n) (p := q) (by omega)
          obtain rfl : f₃ = g := congrArg Prod.fst (Option.some.inj (hsplit.symm.trans hg))
          exact hgorder
        have hkey₃ : firstKey (f₃.pairs (f₁.setNode q n).nextPageNo) = some newKey :=
          IxNode.keyAt_zero.symm.trans hnewKey
        have hqlev : q ∈ relevel pageOf lev i (flat (f₁.setNode q n).pairs (lev (i + 1)))
            (i + 1) := by
          rw [relevel_of_ne _ (by omega)]
          exact hqmem
        obtain ⟨T', ht', lev', hb', hinv', hinto'⟩ :=
          ih hb₂ hinv₂ htop₂ (by omega) hqlev hlen hs₃ horder₃ hkey₃
          (fun h0 => absurd h0 (Nat.succ_ne_zero i)) hins
        rw [hht] at hinto' hinv₂
        refine ⟨T', ht', lev', hb', hinv',
          hinto.trans hinto' hinv₂ hlt (fun j hj r hr => ?_) (sameChain_split ?_ hsplit) le_rfl ?_⟩
        · refine hs₃.pairs_other ?_ (hinv₂.pageNo j (by omega) r hr).2.ne
          rintro rfl
          have := hinv₂.shaped.rank j (by omega) (i + 1) hlt r hr hqlev
          omega
        · rw [hinv₂.leaf (i + 1) hlt q hqlev]
          simp
        · rw [hs₃.next]
          omega

end Split

end IxIndexHandle

/-! ## Insertion -/

/-- The heights of the pages of a tree, and its levels. -/
structure Layout where
  height : ℤ → ℕ
  level : ℕ → List ℤ

namespace IxIndexHandle

/-- A balanced tree whose keys are in order. -/
structure Laid (f : IxIndexHandle K) (L : Layout) : Prop where
  balanced : ∃ T, f.Balanced T L.height none
  inv : TreeInv f (L.height f.rootPage) L.level none

/-- The pairs of the leaves. -/
def entries (f : IxIndexHandle K) (L : Layout) : List (K × Rid) := flat f.pairs (L.level 0)

/-- The leaf in which a new key belongs, and the node with the pair. -/
structure PutAt (f : IxIndexHandle K) (L : Layout) (key : K) (value : Rid) (leaf : ℤ)
    (n : IxNode K) : Prop where
  mem : leaf ∈ L.level 0
  found : f.findLeafPage key = some (some leaf)
  insert : (f.pages leaf).insert f.maxSize key value = some n
  unbound : ∀ rid, (key, rid) ∉ f.entries L
  place : ∃ u v, f.pairs leaf = u ++ v ∧ (∀ e ∈ u, e.1 < key) ∧ (∀ e ∈ v, key < e.1) ∧
    n.pairs = u ++ (key, value) :: v
  inv : TreeInv (f.setNode leaf n) (L.height f.rootPage) L.level none
  next : n.nextLeaf = f.nextOf leaf
  prev : n.prevLeaf = f.prevOf leaf

/-- What `insert_entry` does to an ordered tree: the index and the page that it returns, and the new
layout. -/
inductive Insertion (f : IxIndexHandle K) (L : Layout) (key : K) (value : Rid) :
    IxIndexHandle K → ℤ → Layout → Prop
  | bound {rid : Rid} : (key, rid) ∈ f.entries L → Insertion f L key value f IX_NO_PAGE L
  | fits {leaf : ℤ} {n : IxNode K} {f' : IxIndexHandle K} : f.PutAt L key value leaf n →
      n.size < f.maxSize →
      f'.rootPage = f.rootPage → (∀ q ∈ L.level 0, f'.pairs q = (f.setNode leaf n).pairs q) →
      (0 < L.height f.rootPage → ∀ e ∈ flat f'.pairs (L.level 1),
        Exact pageOf f'.pairs e ∨ pageOf e.2 ≠ leaf ∧ e ∈ flat f.pairs (L.level 1)) →
      SameChain f.nextPageNo (f.setNode leaf n) f' → Insertion f L key value f' leaf L
  | splits {leaf r : ℤ} {n : IxNode K} {f₁ f' : IxIndexHandle K} {L' : Layout} :
      f.PutAt L key value leaf n →
      n.size = f.maxSize → (f.setNode leaf n).split leaf = some (f₁, f.nextPageNo) →
      SplitInto (f.setNode leaf n) f₁ f' (L.height f.rootPage) L.level L'.level 0 leaf →
      r = leaf ∨ r = f.nextPageNo → Insertion f L key value f' r L'

section Insertion

variable {f f' : IxIndexHandle K} {L L' : Layout} {key : K} {value rid : Rid} {leaf r : ℤ}
  {n : IxNode K}

/-- The separator of a leaf that `insert_entry` splits is below the first key of the right half. -/
def SplitsInOrder (f : IxIndexHandle K) (L : Layout) (key : K) (value : Rid) : Prop :=
  ∀ leaf n, f.PutAt L key value leaf n → n.size = f.maxSize → 0 < L.height f.rootPage →
    ∀ e ∈ flat f.pairs (L.level 1), pageOf e.2 = leaf →
      ∀ k ∈ firstKey (n.pairs.drop (n.size / 2)), e.1 < k

theorem Laid.entries_sorted (h : f.Laid L) : Sorted (f.entries L) :=
  h.inv.ordered.sorted_leaves h.inv.shaped

/-- `get_value` reads the entries. -/
theorem Laid.getValue_iff (h : f.Laid L) :
    f.getValue key = some (some rid) ↔ (key, rid) ∈ f.entries L := by
  obtain ⟨T, hb⟩ := h.balanced
  obtain ⟨leaf, hfind, -⟩ := hb.exists_leaf key
  exact h.inv.getValue_iff hfind

theorem Laid.exists_getValue (h : f.Laid L) (key : K) : ∃ r, f.getValue key = some r := by
  obtain ⟨T, hb⟩ := h.balanced
  obtain ⟨leaf, hfind, -⟩ := hb.exists_leaf key
  exact ⟨_, by rw [getValue, hfind]; rfl⟩

/-- The leaf that is found takes a key that is not in the tree. -/
theorem Laid.putAt (h : f.Laid L) (hfind : f.findLeafPage key = some (some leaf))
    (hleaf : f.leafOf leaf = true)
    (hkey : ∀ rid, (key, rid) ∉ f.pairs leaf)
    (hn : (f.pages leaf).insert f.maxSize key value = some n) : f.PutAt L key value leaf n := by
  obtain ⟨hmem, hrouted⟩ := h.inv.findLeafPage_spec hfind
  have hs := h.inv.shaped
  have ho := h.inv.ordered
  have hsorted : Sorted (f.pages leaf).pairs := ho.sorted leaf hmem
  have habsent : ∀ e ∈ (f.pages leaf).pairs, e.1 ≠ key := by
    rintro ⟨k, rid⟩ he rfl
    exact hkey rid he
  obtain ⟨u, v, hpairs, hu, hv⟩ := IxNode.exists_absent hsorted habsent
  have hnpairs := IxNode.insert_absent hpairs hu hv hn
  obtain ⟨hnparent, hnleaf⟩ := insert_fields hn
  obtain ⟨hnext, hprev⟩ := insert_neighbours hn
  have hnsorted : Sorted n.pairs := by
    rw [hpairs] at hsorted
    obtain ⟨husorted, hvsorted, huv⟩ := List.pairwise_append.1 hsorted
    rw [hnpairs]
    refine List.pairwise_append.2 ⟨husorted, List.pairwise_cons.2 ⟨hv, hvsorted⟩,
      fun e he e' he' => ?_⟩
    rcases List.mem_cons.1 he' with rfl | he'
    · exact hu e he
    · exact huv e he e' he'
  have hroute : ∀ d ∈ n.pairs, Routed pageOf f.pairs (L.height f.rootPage) L.level 0 leaf d.1 := by
    intro d hd
    have hold (he : d ∈ u ++ v) : Routed pageOf f.pairs
        (L.height f.rootPage) L.level 0 leaf d.1 := by
      refine ho.routed_leaf hs hmem ?_
      rw [IxIndexHandle.pairs, hpairs]
      exact he
    rw [hnpairs] at hd
    rcases List.mem_append.1 hd with hd | hd
    · exact hold (List.mem_append_left _ hd)
    · rcases List.mem_cons.1 hd with rfl | hd
      · exact hrouted
      · exact hold (List.mem_append_right _ hd)
  refine ⟨hmem, hfind, hn, fun rid he => hkey rid ((h.inv.mem_leaf_iff hfind).2 he),
    ⟨u, v, hpairs, hu, hv, hnpairs⟩, ?_, hnext, hprev⟩
  refine h.inv.same (sameLinks_setNode_leaf hleaf hnparent hnleaf) ?_ ?_
  · rw [pairs_setNode]
    exact hs.update_leaf hmem
  · rw [pairs_setNode]
    exact ho.update_leaf hs hmem hnsorted hroute

theorem PutAt.flat_level_one (h : f.PutAt L key value leaf n) (hpos : 0 < L.height f.rootPage) :
    flat (f.setNode leaf n).pairs (L.level 1) = flat f.pairs (L.level 1) := by
  refine flat_congr fun q hq => ?_
  rw [pairs_setNode, Function.update_of_ne]
  rintro rfl
  exact absurd (h.inv.shaped.rank 1 hpos 0 (Nat.zero_le _) q hq h.mem) Nat.one_ne_zero

theorem PutAt.perm (h : f.PutAt L key value leaf n) (hl : f.Laid L) :
    (flat (f.setNode leaf n).pairs (L.level 0)).Perm ((key, value) :: f.entries L) := by
  obtain ⟨u, v, hpairs, -, -, hn⟩ := h.place
  obtain ⟨X, Y, hold, hnew⟩ := hl.inv.shaped.flat_update_leaf h.mem
  rw [entries, hold, hpairs, pairs_setNode, hnew, hn]
  have hperm : (X ++ u ++ (key, value) :: (v ++ Y)).Perm ((key, value) :: (X ++ u ++ (v ++ Y))) :=
    List.perm_middle
  simpa only [List.append_assoc, List.cons_append] using hperm

/-- `insert_entry` changes nothing for a key that is bound. -/
theorem Laid.insertEntry_bound (h : f.Laid L) (hkey : (key, rid) ∈ f.entries L) :
    f.insertEntry key value = some (f, IX_NO_PAGE) := by
  obtain ⟨T, hb⟩ := h.balanced
  obtain ⟨leaf, hfind, -⟩ := hb.exists_leaf key
  have hsorted := h.inv.ordered.sorted leaf (h.inv.findLeafPage_spec hfind).1
  have hpresent : (f.pages leaf).insert f.maxSize key value = some (f.pages leaf) :=
    IxNode.insert_present hsorted ((h.inv.mem_leaf_iff hfind).2 hkey)
  simp only [IxIndexHandle.insertEntry, hfind, Option.bind_eq_bind, Option.bind_some]
  rw [hpresent]
  exact if_pos rfl

theorem PutAt.size (h : f.PutAt L key value leaf n) : n.size = (f.pages leaf).size + 1 := by
  obtain ⟨u, v, hpairs, -, -, hnpairs⟩ := h.place
  have hpairs : (f.pages leaf).pairs = u ++ v := hpairs
  rw [IxNode.size, IxNode.size, hnpairs, hpairs, List.length_append, List.length_append,
    List.length_cons]
  omega

/-- `insert_entry` returns a page for a new key. -/
theorem Laid.insertEntry_unbound (h : f.Laid L) (hkey : ∀ rid, (key, rid) ∉ f.entries L) :
    ∃ f' r, f.insertEntry key value = some (f', r) ∧ r ≠ IX_NO_PAGE := by
  obtain ⟨T, hb⟩ := h.balanced
  obtain ⟨leaf, n, hfind, hreach, hleaf, hn, hcase⟩ := hb.insertEntry_cases key value
  obtain ⟨hmem, -⟩ := h.inv.findLeafPage_spec hfind
  have hput := h.putAt hfind hleaf (fun rid hrid => hkey rid ((h.inv.mem_leaf_iff hfind).1 hrid)) hn
  have hsize := hput.size
  obtain ⟨hpos, hlt⟩ := h.inv.pageNo 0 (Nat.zero_le _) leaf hmem
  rw [IX_NO_PAGE]
  rcases hcase with ⟨hsame, -⟩ | ⟨-, -, -, f', -, hcall, -⟩ | ⟨-, -, f₁, newKey, f', T', ht', r, -,
    -, -, -, hcall, hr, -⟩
  · omega
  · exact ⟨f', leaf, hcall, by omega⟩
  · exact ⟨f', r, hcall, by omega⟩

/-- `insert_entry` returns, and the tree is in order again. -/
theorem Laid.insertEntry (h : f.Laid L) (key : K) (value : Rid)
    (hsep : f.SplitsInOrder L key value) :
    ∃ f' r L', f.insertEntry key value = some (f', r) ∧ f'.btreeOrder = f.btreeOrder ∧ f'.Laid L' ∧
      f.Insertion L key value f' r L' := by
  by_cases hbound : ∃ rid, (key, rid) ∈ f.entries L
  · obtain ⟨rid, hrid⟩ := hbound
    exact ⟨f, IX_NO_PAGE, L, h.insertEntry_bound hrid, rfl, h, .bound hrid⟩
  obtain ⟨T, hb₀⟩ := h.balanced
  obtain ⟨leaf, n, hfind, hreach, hleaf, hn, hcase⟩ := hb₀.insertEntry_cases key value
  obtain ⟨hb, ha⟩ := hb₀.reach
  obtain ⟨hmem, -⟩ := h.inv.findLeafPage_spec hfind
  have hput :=
    h.putAt hfind hleaf (fun rid hrid => hbound ⟨rid, (h.inv.mem_leaf_iff hfind).1 hrid⟩) hn
  obtain ⟨hnparent, hnleaf⟩ := insert_fields hn
  have hsize := hput.size
  rcases hcase with ⟨hsame, -⟩ | ⟨-, hfits, hb₁, f', hf', hcall, hshape⟩ |
    ⟨-, hmax, f₁, newKey, f', T', ht', r, hsplit, horder₁, hnewKey, hf', hcall, hr, horder', -⟩
  · omega
  · have hweak : TreeInv (f.setNode leaf n) (L.height f.rootPage) L.level (some leaf) :=
      hput.inv.same (.refl _) hput.inv.shaped hput.inv.ordered.weaken
    obtain ⟨hinv, hpairs, hseps⟩ := hweak.maintainParentLoop_spec (Nat.zero_le _) hmem hf'
    have hroot : f'.rootPage = f.rootPage := hshape.links.root
    refine ⟨f', leaf, L, hcall, hshape.order, ⟨⟨_, hshape.balanced hb₁⟩, hroot.symm ▸ hinv⟩,
      .fits hput hfits hroot (hpairs 0 le_rfl)
        (fun hpos e he => ?_) (sameChain_maintainParentLoop hf')⟩
    rw [← hput.flat_level_one hpos]
    exact hseps hpos e he
  · have hb₁ := hb.setLeaf hleaf hnparent hnleaf
    have hself : (f.setNode leaf n).pairs leaf = n.pairs := by
      rw [pairs_setNode, Function.update_self]
    have hlength : ((f.setNode leaf n).pairs leaf).length = (f.setNode leaf n).maxSize := by
      rw [hself]
      exact hmax
    have htop (q : ℤ) (hq : f.Reach q) :=
      hb₁.closed.eq_root ((sameLinks_setNode_leaf hleaf hnparent hnleaf).attached ha) hq
    have hne : leaf ≠ (f.setNode leaf n).nextPageNo := (hb₁.closed.bound leaf hreach).2.ne
    have hsplits := (split_spec hne hsplit).2
    have hnewKey : firstKey (f₁.pairs f.nextPageNo) = some newKey :=
      IxNode.keyAt_zero.symm.trans hnewKey
    have hsep' (hpos : 0 < L.height f.rootPage) (e : K × Rid)
      (he : e ∈ flat (f.setNode leaf n).pairs (L.level 1))
        (hpage : pageOf e.2 = leaf) : e.1 < newKey := by
      rw [hput.flat_level_one hpos] at he
      refine hsep leaf n hput hmax hpos e he hpage newKey ?_
      have hright := hsplits.pairs_right hne
      rw [hself] at hright
      exact hright ▸ hnewKey
    obtain ⟨T'', ht'', lev', hb', hinv', hinto⟩ :=
      hb₁.splitInto f₁.fuel hput.inv htop (Nat.zero_le _) hmem hlength
      hsplits horder₁ hnewKey (fun _ => hsep') hf'
    exact ⟨f', r, ⟨ht'', lev'⟩, hcall, horder', ⟨⟨T'', hb'⟩, hinv'⟩,
      .splits hput hmax hsplit hinto hr⟩

/-- A key that is bound stays so, and `insert_entry` returns no page. -/
theorem Insertion.same (h : f.Insertion L key value f' r L') (hkey : (key, rid) ∈ f.entries L) :
    f' = f ∧ L' = L ∧ r = IX_NO_PAGE := by
  cases h with
  | bound => exact ⟨rfl, rfl, rfl⟩
  | fits hput => exact absurd hkey (hput.unbound rid)
  | splits hput => exact absurd hkey (hput.unbound rid)

/-- A new key is bound to its value. -/
theorem Insertion.perm (h : f.Insertion L key value f' r L') (hl : f.Laid L)
    (hkey : ∀ rid, (key, rid) ∉ f.entries L) :
    (f'.entries L').Perm ((key, value) :: f.entries L) := by
  cases h with
  | bound hmem => exact absurd hmem (hkey _)
  | fits hput _ _ hpairs =>
    rw [entries, flat_congr hpairs]
    exact hput.perm hl
  | splits hput _ _ hinto =>
    rw [entries, hinto.content 0 le_rfl]
    exact hput.perm hl

/-! ### The chain of leaves -/

theorem Laid.leaf_bound (h : f.Laid L) {p : ℤ} (hp : p ∈ L.level 0) : 2 ≤ p ∧ p < f.nextPageNo := by
  obtain ⟨T, hb⟩ := h.balanced
  exact hb.closed.bound p (hb.closed.placed h.inv.shaped (Nat.zero_le _) hp).1

omit [LinearOrder K] in
/-- The leaves after a split. -/
theorem mem_split_level {l l' A B : List ℤ} {new q : ℤ} (hl : l = A ++ leaf :: B)
    (hl' : l' = A ++ leaf :: new :: B) : q ∈ l' ↔ q ∈ l ∨ q = new := by
  rw [hl, hl']
  simp only [List.mem_append, List.mem_cons]
  tauto

/-- The chain while the pair is put into its leaf. -/
theorem PutAt.chain (h : f.PutAt L key value leaf n) (hchain : f.LeafChain (L.level 0)) :
    (f.setNode leaf n).LeafChain (L.level 0) :=
  hchain.unchanged fun _ => sameChain_setNode (.inl ⟨h.next, h.prev⟩)

/-- `insert_entry` keeps the chain of leaves. -/
theorem Insertion.chain (h : f.Insertion L key value f' r L') (hl : f.Laid L)
    (hchain : f.LeafChain (L.level 0)) : f'.LeafChain (L'.level 0) := by
  have hheader : IX_LEAF_HEADER_PAGE = 1 := rfl
  cases h with
  | bound => exact hchain
  | @fits leaf n f' hput _ _ _ _ hsame =>
    obtain ⟨hpos, hlt⟩ := hl.leaf_bound hput.mem
    exact (hput.chain hchain).same hsame (by omega) fun p hp => (hl.leaf_bound hp).2
  | @splits leaf r n f₁ f' L' hput hsize hsplit hinto hr =>
    obtain ⟨hpos, hlt⟩ := hl.leaf_bound hput.mem
    obtain ⟨A, B, hlev⟩ := List.append_of_mem hput.mem
    have hleaf : (f.setNode leaf n).leafOf leaf = true := by
      rw [hput.inv.leaf 0 (Nat.zero_le _) leaf hput.mem]
      rfl
    have hput' := hput.chain hchain
    have hnodup := hl.inv.shaped.nodup 0 (Nat.zero_le _)
    rw [hlev] at hput' hnodup
    have hsplitChain := hput'.split hleaf hsplit hnodup fun q hq => hl.leaf_bound (hlev ▸ hq)
    have hnext : f₁.nextPageNo = f.nextPageNo + 1 :=
      (split_spec (show leaf ≠ (f.setNode leaf n).nextPageNo from hlt.ne) hsplit).2.next
    have hlev' : L'.level 0 = A ++ leaf :: f.nextPageNo :: B := hinto.level A B hlev
    rw [hlev']
    refine hsplitChain.same hinto.chain (by omega) fun q hq => ?_
    rw [hnext]
    rcases (mem_split_level hlev hlev').1 (hlev' ▸ hq) with hq | rfl
    · exact Int.lt_add_one_of_le (hl.leaf_bound hq).2.le
    · exact Int.lt_succ _

end Insertion

end IxIndexHandle

end Rmdb
