import Rmdb.Index.KeyOrder
import Rmdb.Index.TreeOrder
import Rmdb.Lib.KeyIndex
import Rmdb.System.SmManager

/-!
# The index as a map

`delete_entry` keeps the keys of an ordered tree in order, through merges, borrowed pairs and a root
that is left out. With what `insert_entry` does, an index answers every call as a finite map does,
as long as no insertion splits a leaf whose separator is stale.

`insert_entry` calls `maintain_parent` when the leaf has room, and not when it is split.  A new
smallest key that splits the first leaf so leaves the separator of the leaf where it was, above the
new key.  That does no harm by itself, since the keys of the first leaf are found from its parent
whatever its separator says; but when deletions have made the leaf take in its neighbour and it is
split again, the key for the new leaf may be the separator or lie below it.  The parent then ignores
the new leaf or puts it before the old one, and the keys of one of them are lost.
-/

namespace Rmdb

open Levels

variable {K : Type} [LinearOrder K]

namespace IxIndexHandle

section Delete

variable {f f₁ f₂ f' : IxIndexHandle K} {T : Set ℤ} {ht : ℤ → ℕ} {lev : ℕ → List ℤ} {h i index : ℕ}
  {p nb P q : ℤ}
  {A B : List ℤ} {u v : List (K × Rid)} {e e' : K × Rid} {k k' : K}

/-! ## The root -/

/-- The root is left out, or nothing changes. -/
theorem Balanced.adjustRoot_ordered (hb : f.Balanced T ht (some f.rootPage)) (ha : f.Attached T)
    (hf : TreeInv f (ht f.rootPage) lev none) (hshort : f.Short f.rootPage) :
    ∃ f' r T', f.adjustRoot f.rootPage = some (f', r) ∧ f'.btreeOrder = f.btreeOrder ∧
    f'.Balanced T' ht none ∧
      TreeInv f' (ht f'.rootPage) lev none ∧ flat f'.pairs (lev 0) = flat f.pairs (lev 0) := by
  obtain ⟨f', r, T', hf', horder, hb', -, hcase⟩ := hb.adjustRoot ha hshort
  refine ⟨f', r, T', hf', horder, hb', ?_⟩
  rcases hcase with ⟨hroot, hpairs⟩ | ⟨e, hone, hinner, hroot, hpairs⟩
  · rw [hpairs]
    refine ⟨hb'.closed.treeInv hb'.root ?_ ?_, rfl⟩
    · rw [hroot, hpairs]
      exact hf.shaped
    · rw [hroot, hpairs]
      exact hf.ordered
  · have hkid := hb.closed.kid f.rootPage hb.closed.root hinner (pageOf e.2) (by simp [kids, hone])
    have hheight : ht f.rootPage = ht (pageOf e.2) + 1 := hkid.2.2.symm
    have hs := hf.shaped
    have ho := hf.ordered
    rw [hheight] at hs ho
    have hne (j : ℕ) (hj : j ≤ ht (pageOf e.2)) (q : ℤ) (hq : q ∈ lev j) :
        f'.pairs q = f.pairs q := by
      refine hpairs q ?_
      rintro rfl
      have := hs.rank j (by omega) _ le_rfl f.rootPage hq hs.root_mem
      omega
    refine ⟨hb'.closed.treeInv hb'.root ?_ ?_, flat_congr (hne 0 (Nat.zero_le _))⟩
    · rw [hroot]
      exact (hs.shrink hone).congr hne
    · rw [hroot]
      exact ho.shrink.congr (hs.shrink hone) hne

/-! ## Neighbours -/

omit [LinearOrder K] in
theorem pairs_of_kids {a b : ℤ} (ha : (f.kids P)[i]? = some a) (hb : (f.kids P)[i + 1]? = some b) :
    ∃ u e e' v, f.pairs P = u ++ e :: e' :: v ∧ u.length = i ∧ pageOf e.2 = a ∧
    pageOf e'.2 = b := by
  rw [kids, List.getElem?_map, Option.map_eq_some_iff] at ha hb
  obtain ⟨e, he, hea⟩ := ha
  obtain ⟨e', he', heb⟩ := hb
  obtain ⟨hlt, he⟩ := List.getElem?_eq_some_iff.1 he
  obtain ⟨hlt', he'⟩ := List.getElem?_eq_some_iff.1 he'
  refine ⟨(f.pairs P).take i, e, e', (f.pairs P).drop (i + 2), ?_, ?_, hea, heb⟩
  · rw [← he, ← he', ← List.drop_eq_getElem_cons hlt', ← List.drop_eq_getElem_cons hlt,
      List.take_append_drop]
  · rw [List.length_take]
    omega

omit [LinearOrder K] in
/-- The pairs of the page and its neighbour are next to each other. -/
theorem Neighbour.pairs (hn : f.Neighbour T p nb index) :
    ∃ u e e' v, f.pairs (f.parentOf p) = u ++ e :: e' :: v ∧
    pageOf e.2 = (if index = 0 then p else nb) ∧ pageOf e'.2 = (if index = 0 then nb else p) := by
  have hpage := hn.page
  have hneighbour := hn.neighbour
  by_cases hindex : index = 0
  · subst hindex
    obtain ⟨u, e, e', v, hpairs, -, he, he'⟩ := pairs_of_kids hpage hneighbour
    exact ⟨u, e, e', v, hpairs, he, he'⟩
  · rw [if_neg hindex] at hneighbour
    obtain ⟨u, e, e', v, hpairs, -, he, he'⟩ := pairs_of_kids hneighbour (show _ = some p by
      rw [Nat.sub_add_cancel (Nat.one_le_iff_ne_zero.2 hindex)]
      exact hpage)
    rw [if_neg hindex, if_neg hindex]
    exact ⟨u, e, e', v, hpairs, he, he'⟩

omit [LinearOrder K] in
/-- The place of a child is unique. -/
theorem index_eq (hpairs : f.pairs P = u ++ e :: v) (hnodup : (f.kids P).Nodup) {j : ℕ}
    (hj : (f.kids P)[j]? = some (pageOf e.2)) : j = u.length := by
  have hlen : u.length < (f.kids P).length := by
    rw [kids, hpairs]
    simp
  refine ((List.getElem?_inj hlen hnodup).1 (Eq.trans ?_ hj.symm)).symm
  rw [kids, hpairs]
  simp

/-- `coalesce` merges two neighbours. -/
theorem TreeInv.merge {left right : ℤ} {j : ℕ} (hf : TreeInv f h lev none) (hi : i < h)
    (hP : lev (i + 1) = A ++ P :: B)
    (hpairs : f.pairs P = u ++ e :: e' :: v) (hleft : pageOf e.2 = left)
    (hright : pageOf e'.2 = right)
    (hfilled : f.pairs left ≠ []) (hnodup : (f.kids P).Nodup) (hj : (f.kids P)[j]? = some right)
    (hf₁ : f₁.pairs = Function.update
      (Function.update f.pairs left (f.pairs left ++ f.pairs right)) P
      ((f.pairs P).eraseIdx j)) :
      Merge pageOf f.pairs f₁.pairs h lev i left right P A B u v e e' := by
  have hmem : P ∈ lev (i + 1) := by
    rw [hP]
    simp
  have hne : left ≠ P := by
    rintro rfl
    have hkid := hf.shaped.mem_child hi hmem (e := e) (by rw [hpairs]; simp)
    rw [hleft] at hkid
    have := hf.shaped.rank i hi.le (i + 1) hi left hkid hmem
    omega
  have hj' : j = (u ++ [e]).length := by
    refine index_eq (e := e') (v := v) ?_ hnodup ?_
    · rw [hpairs]
      simp
    · rw [hright]
      exact hj
  refine ⟨hi, hP, hpairs, ?_, hleft, hright, ?_, hfilled, fun q hql _ hqP => ?_⟩
  · rw [hf₁, Function.update_self, hj', hpairs]
    have hsplit : u ++ e :: e' :: v = (u ++ [e]) ++ e' :: v := by simp
    rw [hsplit, List.eraseIdx_append_of_length_le le_rfl]
    simp
  · rw [hf₁, Function.update_of_ne hne, Function.update_self]
  · rw [hf₁, Function.update_of_ne hqP, Function.update_of_ne hql]

omit [LinearOrder K] in
theorem modify_append {g : K × Rid → K × Rid} (w w' : List (K × Rid)) (d : K × Rid) :
    (w ++ d :: w').modify w.length g = w ++ g d :: w' := by
  rw [List.modify_eq_take_cons_drop (by simp)]
  simp

/-- `redistribute` moves a pair between two neighbours. -/
theorem TreeInv.shift (hf : TreeInv f h lev none) (hi : i < h) (hP : lev (i + 1) = A ++ P :: B)
    (hpairs : f.pairs P = u ++ e :: e' :: v) (hleft : pageOf e.2 = if index = 0 then p else nb)
    (hright : pageOf e'.2 = if index = 0 then nb else p) (hne : nb ≠ p) (hnodup : (f.kids P).Nodup)
    (hmoved : f.Moved f₁ nb p P index) (hsep : f₁.Reseparated f₂ P p nb k k') :
    ∃ kl kr, Shift pageOf f.pairs f₂.pairs h lev i (if index = 0 then p else nb)
    (if index = 0 then nb else p) P A B u v e e' kl kr := by
  have hmem : P ∈ lev (i + 1) := by
    rw [hP]
    simp
  have hkid (d : K × Rid) (hd : d ∈ f.pairs P) : pageOf d.2 ≠ P := by
    intro heq
    have hkid := hf.shaped.mem_child hi hmem hd
    rw [heq] at hkid
    have := hf.shaped.rank i hi.le (i + 1) hi P hkid hmem
    omega
  have hle := hkid e (by rw [hpairs]; simp)
  have hre := hkid e' (by rw [hpairs]; simp)
  rw [hleft] at hle
  rw [hright] at hre
  have hpP : p ≠ P ∧ nb ≠ P := by
    split at hle
    · rename_i hindex
      rw [if_pos hindex] at hre
      exact ⟨hle, hre⟩
    · rename_i hindex
      rw [if_neg hindex] at hre
      exact ⟨hre, hle⟩
  obtain ⟨l, l', hl, hl', hpairs₁⟩ := hmoved.pairs
  obtain ⟨ip, jn, hip, hjn, hpairs₂⟩ := hsep.pairs
  have hPpairs : f₁.pairs P = f.pairs P := by
    rw [hpairs₁, Function.update_of_ne hpP.2.symm, Function.update_of_ne hpP.1.symm]
  have hkids : f₁.kids P = f.kids P := congrArg (List.map _) hPpairs
  rw [hkids] at hip hjn
  rw [hPpairs, hpairs₁] at hpairs₂
  have hp₂ : f₂.pairs p = l := by
    rw [hpairs₂, Function.update_of_ne hpP.1, Function.update_of_ne hne.symm, Function.update_self]
  have hnb₂ : f₂.pairs nb = l' := by
    rw [hpairs₂, Function.update_of_ne hpP.2, Function.update_self]
  have hkey : firstKey l = some k := by
    have hkey : firstKey (f₁.pairs p) = some k := IxNode.keyAt_zero.symm.trans hsep.key
    rwa [hpairs₁, Function.update_of_ne hne.symm, Function.update_self] at hkey
  have hkey' : firstKey l' = some k' := by
    have hkey' : firstKey (f₁.pairs nb) = some k' := IxNode.keyAt_zero.symm.trans hsep.key'
    rwa [hpairs₁, Function.update_self] at hkey'
  have hframe (q : ℤ) (hqp : q ≠ p) (hqn : q ≠ nb) (hqP : q ≠ P) : f₂.pairs q = f.pairs q := by
    rw [hpairs₂, Function.update_of_ne hqP, Function.update_of_ne hqn, Function.update_of_ne hqp]
  have hpairsE : f.pairs P = (u ++ [e]) ++ e' :: v := by
    rw [hpairs]
    simp
  by_cases hindex : index = 0
  · rw [if_pos hindex] at hleft hright
    obtain rfl : ip = u.length := index_eq hpairs hnodup (hleft ▸ hip)
    obtain rfl : jn = (u ++ [(k, e.2)]).length :=
      (index_eq hpairsE hnodup (hright ▸ hjn)).trans (by simp)
    rw [if_pos hindex, if_pos hindex]
    refine ⟨k, k', hi, hP, hpairs, ?_, hleft, hright,
      ?_, by rw [hp₂, hkey], by rw [hnb₂, hkey'], hframe⟩
    · have hsplit : u ++ (k, e.2) :: e' :: v = (u ++ [(k, e.2)]) ++ e' :: v := by simp
      rw [hpairs₂, Function.update_self, hpairs, modify_append, hsplit, modify_append]
      simp
    · rw [hp₂, hnb₂]
      exact hl hindex
  · rw [if_neg hindex] at hleft hright
    obtain rfl : jn = u.length := index_eq hpairs hnodup (hleft ▸ hjn)
    obtain rfl : ip = (u ++ [e]).length := index_eq hpairsE hnodup (hright ▸ hip)
    rw [if_neg hindex, if_neg hindex]
    refine ⟨k', k, hi, hP, hpairs, ?_, hleft, hright, ?_, by rw [hnb₂, hkey'], by rw [hp₂, hkey],
      fun q hqn hqp hqP => hframe q hqp hqn hqP⟩
    · have hsplit : (u ++ [e]) ++ (k, e'.2) :: v = u ++ e :: (k, e'.2) :: v := by simp
      rw [hpairs₂, Function.update_self, hpairsE, modify_append, hsplit, modify_append]
    · rw [hp₂, hnb₂]
      exact hl' hindex

/-- `redistribute` keeps the order. -/
theorem Balanced.redistribute_ordered (hb : f.Balanced T ht (some p)) (ha : f.Attached T)
    (hf : TreeInv f (ht f.rootPage) lev none) (hi : i < ht f.rootPage)
    (hP : f.parentOf p ∈ lev (i + 1))
    (hn : f.Neighbour T p nb index) (hnbSize : f.minSize < (f.pairs nb).length) :
    ∃ f', f.redistribute nb p (f.parentOf p) index = some f' ∧ f'.btreeOrder = f.btreeOrder ∧
    f'.Balanced T ht none ∧
      TreeInv f' (ht f'.rootPage) lev none ∧ flat f'.pairs (lev 0) = flat f.pairs (lev 0) := by
  obtain ⟨hpP, hnbP⟩ := hn.mem_kids
  obtain ⟨f', f₁, f₂, k, k', hf', horder, hb', -, hmoved, hb₁, ha₁, hs₂, hsep, hmaintain⟩ :=
    hb.redistribute index ha hn.parent hn.inner hpP hnbP hn.ne hn.short hnbSize
  obtain ⟨A, B, hlev⟩ := List.append_of_mem hP
  obtain ⟨u, e, e', v, hpairs, hleft, hright⟩ := hn.pairs
  obtain ⟨kl, kr, hshift⟩ := TreeInv.shift hf hi hlev hpairs hleft hright hn.ne
    (hb.closed.nodup _ hn.parent hn.inner) hmoved hsep
  have hroot₂ : f₂.rootPage = f.rootPage := hs₂.links.root.trans hmoved.root
  have hrebuild := hshift.rebuild hf.shaped
  have hshaped := hrebuild.shaped hf.shaped
  rw [hshift.relevel_eq hf.shaped] at hshaped
  have hb₂ := hs₂.balanced hb₁
  have hinv₂ : TreeInv f₂ (ht f₂.rootPage) lev (some (f.parentOf p)) := by
    refine hb₂.closed.treeInv hb₂.root ?_ ?_
    · rw [hroot₂]
      exact hshaped
    · rw [hroot₂]
      exact hshift.ordered hf.shaped hf.ordered
  rw [hroot₂] at hinv₂
  obtain ⟨hinv', hsame, -⟩ := hinv₂.maintainParentLoop_spec hi hP hmaintain
  have hroot' : f'.rootPage = f.rootPage :=
    (sameLinks_maintainParentLoop hmaintain).root.trans hroot₂
  refine ⟨f', hf', horder, hb', by rw [hroot']; exact hinv', ?_⟩
  rw [flat_congr (hsame 0 (Nat.zero_le _))]
  rcases Nat.eq_zero_or_pos i with rfl | hpos
  · have hself := hrebuild.flat_self hf.shaped
    rwa [hshift.relevel_eq hf.shaped] at hself
  · exact hrebuild.flat_other hf.shaped (Nat.zero_le _) (by omega) (by omega)

/-- A merge of two leaves leaves the right one out of the chain, and one of two inner pages does not
touch it. -/
theorem Balanced.merge_chain {left right : ℤ} {r : Bool} (hb : f.Balanced T ht (some p))
    (hf : TreeInv f (ht f.rootPage) lev none)
    (hmerge : Merge pageOf f.pairs f₁.pairs (ht f.rootPage) lev i left right P A B u v e e')
    (hf₁ : f.coalesce (fun f _ => some (f, true)) nb p P index = some (f₁, r))
    (hleft : (if index = 0 then p else nb) = left) (hright : (if index = 0 then nb else p) = right)
    (hchain : f.LeafChain (lev 0)) :
    f₁.LeafChain (relevel pageOf lev i (flat f₁.pairs (lev (i + 1))) 0) := by
  obtain ⟨X, Y, hlev, hlev₁⟩ := hmerge.relevel_eq hf.shaped
  have hnodup := hf.shaped.nodup i hmerge.lt.le
  rw [hlev] at hnodup
  have hne : left ≠ right := fun heq =>
    (List.nodup_cons.1 (List.nodup_append.1 hnodup).2.1).1 (heq ▸ List.mem_cons_self)
  have hleaf : f.leafOf right = decide (i = 0) := hf.leaf i hmerge.lt.le right (by rw [hlev]; simp)
  have hlinks := coalesce_chain hf₁ hleft hright hne
  rw [hleaf] at hlinks
  cases i with
  | zero =>
    rw [if_pos (decide_eq_true rfl)] at hlinks
    rw [hlev] at hchain
    rw [hlev₁]
    refine hchain.merge hnodup (fun hmem => ?_) hlinks.1 hlinks.2.1 hlinks.2.2.1 hlinks.2.2.2
    have hbound := hb.closed.bound _ (hb.closed.placed hf.shaped (Nat.zero_le _) (hlev ▸ hmem)).1
    rw [IX_LEAF_HEADER_PAGE] at hbound
    omega
  | succ i =>
    rw [decide_eq_false (Nat.succ_ne_zero i), if_neg Bool.false_ne_true] at hlinks
    rw [relevel_of_ne _ (Nat.succ_ne_zero i).symm]
    exact hchain.unchanged hlinks

/-- `coalesce_or_redistribute` returns, and the tree is in order again, with its chain of leaves. -/
theorem Balanced.coalesceOrRedistribute_ordered (fuel : ℕ) (hb : f.Balanced T ht (some p))
    (ha : f.Attached T)
    (hf : TreeInv f (ht f.rootPage) lev none) (hi : i ≤ ht f.rootPage) (hp : p ∈ lev i)
    (hshort : f.Short p) (hfuel : ∀ q ∈ T, ht q < i + fuel) :
    ∃ f' r T' lev', IxIndexHandle.coalesceOrRedistribute fuel f p = some (f', r) ∧
    f'.btreeOrder = f.btreeOrder ∧ f'.Balanced T' ht none ∧ TreeInv f' (ht f'.rootPage) lev' none ∧
      flat f'.pairs (lev' 0) = flat f.pairs (lev 0) ∧
      (f.LeafChain (lev 0) → f'.LeafChain (lev' 0)) := by
  induction fuel generalizing f T lev i p with
  | zero =>
    obtain ⟨hpT, hheight⟩ := hb.closed.placed hf.shaped hi hp
    have := hfuel p hpT
    omega
  | succ fuel ih =>
    obtain ⟨hpT, hheight⟩ := hb.closed.placed hf.shaped hi hp
    rcases hb.coalesceOrRedistribute_cases fuel ha hpT hshort with
      ⟨rfl, heq⟩ | ⟨hb₁, heq⟩ | ⟨nb, index, hn, hrest⟩
    · obtain ⟨f', r, T', hf', horder, hb', hinv, hflat⟩ := hb.adjustRoot_ordered ha hf hshort
      exact ⟨f', r, T', lev, heq.trans hf', horder, hb', hinv, hflat,
        fun hchain => hchain.unchanged fun _ => sameChain_adjustRoot hf'⟩
    · obtain ⟨f', hf', hs⟩ := hb₁.exists_maintainParent ha hb₁.pos_below hpT
      have hweak : TreeInv f (ht f.rootPage) lev (some p) :=
        hf.same (.refl f) hf.shaped hf.ordered.weaken
      obtain ⟨hinv, hsame, -⟩ := hweak.maintainParentLoop_spec hi hp hf'
      exact ⟨f', false, T, lev, by rw [heq, hf']; rfl, hs.order,
        hs.balanced hb₁, by rw [hs.links.root]; exact hinv, flat_congr (hsame 0 (Nat.zero_le _)),
        fun hchain => hchain.unchanged fun _ => sameChain_maintainParentLoop hf'⟩
    · obtain ⟨hpP, hnbP⟩ := hn.mem_kids
      have hlt : i < ht f.rootPage := by
        refine lt_of_le_of_ne hi fun hi => ?_
        subst hi
        rw [hf.shaped.top, List.mem_singleton] at hp
        exact hb.closed.ne_no_page hn.parent (by rw [hp]; exact hb.root)
      obtain ⟨q, A, B, _, _, _, hq⟩ := hf.hangs hlt hp
      have hlevel : lev (i + 1) = A ++ f.parentOf p :: B := hq.parent.symm ▸ hq.level
      have hP : f.parentOf p ∈ lev (i + 1) := by
        rw [hlevel]
        simp
      rcases hrest with ⟨hnbSize, heq⟩ | ⟨hsum, heq⟩
      · obtain ⟨f', hf', horder, hb', hinv, hflat⟩ :=
          hb.redistribute_ordered ha hf hlt hP hn hnbSize
        exact ⟨f', false, T, lev, by rw [heq, hf']; rfl, horder, hb', hinv, hflat,
          fun hchain => hchain.unchanged fun _ => sameChain_redistribute hf'⟩
      · obtain ⟨u, e, e', v, hpairs, hleft, hright⟩ := hn.pairs
        obtain ⟨f₁, hcoalesce, horder, hb₁, ha₁, -, hshort₁, hroot₁, j, hj, hpairs₁⟩ :=
          hb.coalesce (fun f _ => some (f, true)) index ha hn.parent hn.inner hpP hnbP hn.ne rfl rfl
            hn.short hsum
        have hf₁ : f.coalesce (IxIndexHandle.coalesceOrRedistribute fuel) nb p
          (f.parentOf p) index = IxIndexHandle.coalesceOrRedistribute fuel f₁ (f.parentOf p) := by
          rw [coalesce_eq_bind, hcoalesce]
          rfl
        have hfilled : f.pairs (if index = 0 then p else nb) ≠ [] := by
          have hmin := hb.minSize_ge
          have hnbT := (hb.closed.kid _ hn.parent hn.inner nb hnbP)
          refine List.ne_nil_of_length_pos ?_
          split
          · have := hn.short
            omega
          · refine hb.pos (hb.filled nb hnbT.1 fun heq => hn.ne (Option.some.inj heq)) (.inl ?_)
            rintro rfl
            exact hb.closed.ne_no_page hn.parent (hnbT.2.1.symm.trans hb.root)
        have hmerge := TreeInv.merge hf hlt hlevel hpairs hleft hright hfilled
          (hb.closed.nodup _ hn.parent hn.inner) hj hpairs₁
        have hrebuild := hmerge.rebuild
        have hinv₁ := hb₁.closed.treeInv hb₁.root (by rw [hroot₁]; exact hrebuild.shaped hf.shaped)
          (by rw [hroot₁]; exact hmerge.ordered hf.shaped hf.ordered)
        have hle : i + 1 ≤ ht f₁.rootPage := by
          rw [hroot₁]
          exact hlt
        obtain ⟨f', r, T', lev', hf', horder', hb', hinv', hflat, hchain'⟩ := ih hb₁ ha₁ hinv₁ hle
          (by rw [relevel_of_ne _ (by omega)]; exact hP) hshort₁ fun q hq => by
            have := hfuel q hq.1
            omega
        refine ⟨f', r, T', lev', heq.trans (hf₁.trans hf'), horder'.trans horder, hb', hinv',
          hflat.trans ?_,
          fun hchain => hchain' (hb.merge_chain hf hmerge hcoalesce rfl rfl hchain)⟩
        rcases Nat.eq_zero_or_pos i with rfl | hpos
        · exact hrebuild.flat_self hf.shaped
        · rw [relevel_of_ne _ (by omega)]
          exact hrebuild.flat_other hf.shaped (Nat.zero_le _) (by omega) (by omega)

/-! ## Deletion -/

variable {L : Layout} {key : K} {rid : Rid} {leaf : ℤ} {n : IxNode K}

/-- A leaf with some of its pairs left out is in order. -/
theorem Laid.sublist (hl : f.Laid L) (hleaf : f.leafOf leaf = true) (hmem : leaf ∈ L.level 0)
    (hparent : n.parent = f.parentOf leaf) (hnleaf : n.isLeaf = f.leafOf leaf)
    (hpairs : n.pairs.Sublist (f.pairs leaf)) :
    TreeInv (f.setNode leaf n) (L.height f.rootPage) L.level none := by
  have hs := hl.inv.shaped
  have ho := hl.inv.ordered
  refine hl.inv.same (sameLinks_setNode_leaf hleaf hparent hnleaf) ?_ ?_
  · rw [pairs_setNode]
    exact hs.update_leaf hmem
  · rw [pairs_setNode]
    exact ho.update_leaf hs hmem ((ho.sorted leaf hmem).sublist hpairs)
      fun d hd => ho.routed_leaf hs hmem (hpairs.mem hd)

omit [LinearOrder K] in
/-- A page keeps its neighbours when it loses a pair. -/
theorem remove_neighbours [Ord K] {n n' : IxNode K} (h : n.remove key = some n') :
    n'.nextLeaf = n.nextLeaf ∧ n'.prevLeaf = n.prevLeaf := by
  unfold IxNode.remove at h
  split at h
  · exact erasePair_neighbours h
  · cases h
    exact ⟨rfl, rfl⟩

/-- `delete_entry` returns, and the tree is in order again, without the key. -/
theorem Laid.deleteEntry (hl : f.Laid L) (key : K) :
    ∃ f' r L', f.deleteEntry key = some (f', r) ∧ f'.btreeOrder = f.btreeOrder ∧ f'.Laid L' ∧
      (f.LeafChain (L.level 0) → f'.LeafChain (L'.level 0)) ∧
      (r = true ∧ (∃ rid, (f.entries L).Perm ((key, rid) :: f'.entries L')) ∨
        r = false ∧ f' = f ∧ L' = L ∧ ∀ rid, (key, rid) ∉ f.entries L) := by
  obtain ⟨T, hb₀⟩ := hl.balanced
  obtain ⟨leaf, hfind, hreach, hleaf⟩ := hb₀.exists_leaf key
  obtain ⟨hb, ha⟩ := hb₀.reach
  obtain ⟨hmem, -⟩ := hl.inv.findLeafPage_spec hfind
  have hsorted : Sorted (f.pages leaf).pairs := hl.inv.ordered.sorted leaf hmem
  simp only [IxIndexHandle.deleteEntry, hfind, Option.bind_eq_bind, Option.bind_some]
  by_cases hbound : ∃ rid, (key, rid) ∈ f.pairs leaf
  · obtain ⟨rid, hrid⟩ := hbound
    obtain ⟨u, v, hpairs, hu, hv⟩ := IxNode.exists_present hsorted hrid
    obtain ⟨n, hn, hnpairs⟩ := IxNode.remove_present hpairs hu hv
    obtain ⟨hnparent, hnleaf⟩ := remove_fields hn
    have hsize : n.size + 1 = (f.pages leaf).size := by
      rw [IxNode.size, IxNode.size, hnpairs, hpairs, List.length_append, List.length_append,
        List.length_cons]
      omega
    obtain ⟨hb₁, hshort⟩ := hb.removeLeaf hreach hleaf hnparent hnleaf hsize
    have hs := sameLinks_setNode_leaf hleaf hnparent hnleaf
    have hsub : n.pairs.Sublist (f.pairs leaf) := by
      rw [hnpairs, IxIndexHandle.pairs, hpairs]
      exact (List.sublist_cons_self _ v).append_left u
    have hfuel (q : ℤ) (hq : f.Reach q) : L.height q < 0 + f.fuel := by
      rw [Nat.zero_add]
      exact hb₁.fuel q hq
    obtain ⟨f', r, T', lev', hf', horder, hb', hinv, hflat, hchain⟩ :=
      hb₁.coalesceOrRedistribute_ordered f.fuel
      (hs.attached ha) (hl.sublist hleaf hmem hnparent hnleaf hsub)
        (Nat.zero_le _) hmem hshort hfuel
    obtain ⟨hnnext, hnprev⟩ := remove_neighbours hn
    refine ⟨f', true, ⟨L.height, lev'⟩, ?_, horder, ⟨⟨T', hb'⟩, hinv⟩,
      fun h => hchain (h.unchanged fun _ => sameChain_setNode (.inl ⟨hnnext, hnprev⟩)),
        .inl ⟨rfl, rid, ?_⟩⟩
    · rw [hn, Option.bind_some, if_neg (by omega), hf']
      rfl
    · obtain ⟨X, Y, hold, hnew⟩ := hl.inv.shaped.flat_update_leaf hmem
      rw [entries, entries, hflat, pairs_setNode, hnew, hold, hnpairs, IxIndexHandle.pairs, hpairs]
      have hperm : (X ++ u ++ (key, rid) :: (v ++ Y)).Perm ((key, rid) :: (X ++ u ++ (v ++ Y))) :=
        List.perm_middle
      simpa only [List.append_assoc, List.cons_append] using hperm
  · have habsent : ∀ e ∈ (f.pages leaf).pairs, e.1 ≠ key := by
      rintro ⟨k, rid⟩ he rfl
      exact hbound ⟨rid, he⟩
    obtain ⟨u, v, hpairs, hu, hv⟩ := IxNode.exists_absent hsorted habsent
    refine ⟨f, false, L, ?_, rfl, hl, id, .inr ⟨rfl, rfl, rfl, fun rid hrid => hbound ⟨rid, ?_⟩⟩⟩
    · rw [IxNode.remove_absent hpairs hu hv, Option.bind_some, if_pos rfl]
      rfl
    · exact (hl.inv.mem_leaf_iff hfind).2 hrid

end Delete

/-! ## Stale separators -/

section Stale

variable (f : IxIndexHandle K)

omit [LinearOrder K] in
/-- The key of the pair that leads to a page. -/
def separatorOf (p : ℤ) : Option K := do
  let rank ← (f.pages (f.pages p).parent).findChild p
  (f.pages (f.pages p).parent).keyAt rank

/-- The key goes to a leaf without room, and more than half of the keys that the leaf then has are
not above its separator. -/
def splitsStale (key : K) : Bool :=
  match f.findLeafPage key with
  | some (some leaf) =>
    let n := f.pages leaf
    !n.hasKey key && decide (n.size + 1 = f.maxSize) && !f.isRootPage leaf &&
      (f.separatorOf leaf).any fun sep =>
        decide (f.maxSize / 2 < (key :: n.pairs.map Prod.fst).countP fun k => (compare k sep).isLE)
  | _ => false

def callSplitsStale : TreeCall K → Bool
  | .insertEntry key _ => f.splitsStale key
  | .deleteEntry _ => false

/-- No call of the run splits a leaf with a stale separator. -/
def neverSplitsStale : IxIndexHandle K → List (TreeCall K) → Bool
  | _, [] => true
  | f, c :: cs => !f.callSplitsStale c && (f.call c).all fun f' => neverSplitsStale f' cs

end Stale

section Separator

variable {f : IxIndexHandle K} {L : Layout} {key : K} {value : Rid} {leaf : ℤ} {n : IxNode K}
  {e : K × Rid}

theorem Laid.separatorOf_eq (hl : f.Laid L) (hpos : 0 < L.height f.rootPage)
    (he : e ∈ flat f.pairs (L.level 1)) :
    f.separatorOf (pageOf e.2) = some e.1 ∧ f.isRootPage (pageOf e.2) = false := by
  obtain ⟨q, hq, he⟩ := mem_flat.1 he
  obtain ⟨u, v, hpairs⟩ := List.append_of_mem he
  have hparent : (f.pages (pageOf e.2)).parent = q := hl.inv.parent 0 hpos q hq e he
  have hrank := findChild_append hpairs (hl.inv.not_mem_siblings hpos hq hpairs).1
  have hpairs : (f.pages q).pairs = u ++ e :: v := hpairs
  constructor
  · rw [separatorOf, hparent, hrank, Option.bind_eq_bind, Option.bind_some, IxNode.keyAt, hpairs,
      List.getElem?_append_right (Nat.le_refl _), Nat.sub_self]
    rfl
  · rw [isRootPage, hparent]
    have := (hl.inv.pageNo 1 hpos q hq).1
    rw [decide_eq_false_iff_not, INVALID_PAGE_ID]
    omega

/-- Where at most `i` keys of a sorted list are not above `sep`, the key at the position `i` is
above it. -/
theorem lt_of_countP_le {l : List (K × Rid)} {i : ℕ} {sep : K} (hl : Sorted l)
    (hcount : (l.map Prod.fst).countP (fun k => (compare k sep).isLE) ≤ i) (he : l[i]? = some e) :
    sep < e.1 := by
  by_contra hle
  have hle : e.1 ≤ sep := not_lt.1 hle
  obtain ⟨hi, hget⟩ := List.getElem?_eq_some_iff.1 he
  have hall : ∀ k ∈ (l.take (i + 1)).map Prod.fst, (compare k sep).isLE = true := by
    intro k hk
    obtain ⟨d, hd, rfl⟩ := List.mem_map.1 hk
    obtain ⟨j, hj, rfl⟩ := List.mem_take_iff_getElem.1 hd
    rw [isLE_compare_iff]
    refine le_trans ?_ hle
    rcases Nat.lt_or_ge j i with hji | hji
    · rw [← hget]
      exact le_of_lt (List.pairwise_iff_getElem.1 hl j i (by omega) hi hji)
    · obtain rfl : j = i := by omega
      rw [hget]
  have htake : ((l.take (i + 1)).map Prod.fst).countP (fun k => (compare k sep).isLE) = i + 1 := by
    rw [List.countP_eq_length.2 hall, List.length_map, List.length_take]
    omega
  have hsub : ((l.take (i + 1)).map Prod.fst).countP (fun k => (compare k sep).isLE) ≤ _ :=
    ((List.take_sublist (i + 1) l).map Prod.fst).countP_le
  omega

/-- A separator that at most half of the keys of a full leaf reach is below the middle key. -/
theorem PutAt.lt_middle (hput : f.PutAt L key value leaf n) {sep k : K}
    (hcount : (key :: (f.pages leaf).pairs.map Prod.fst).countP
      (fun k => (compare k sep).isLE) ≤ n.size / 2)
    (hk : firstKey (n.pairs.drop (n.size / 2)) = some k) : sep < k := by
  obtain ⟨u, v, hpairs, -, -, hn⟩ := hput.place
  have hpairs : (f.pages leaf).pairs = u ++ v := hpairs
  have hperm : (n.pairs.map Prod.fst).Perm (key :: (f.pages leaf).pairs.map Prod.fst) := by
    rw [hn, hpairs]
    exact (List.perm_middle (a := (key, value))).map Prod.fst
  have hsorted : Sorted ((f.setNode leaf n).pairs leaf) := hput.inv.ordered.sorted leaf hput.mem
  rw [pairs_setNode, Function.update_self] at hsorted
  obtain ⟨d, hd, rfl⟩ := Option.map_eq_some_iff.1 hk
  rw [List.head?_drop] at hd
  rw [← hperm.countP_eq] at hcount
  exact lt_of_countP_le hsorted hcount hd

/-- A call that is not about to split a leaf with a stale separator keeps the order. -/
theorem Laid.splitsInOrder (hl : f.Laid L) (h : f.splitsStale key = false) :
    f.SplitsInOrder L key value := by
  intro leaf n hput hsize hpos e he hpage k hk
  subst hpage
  obtain ⟨hsep, hroot⟩ := hl.separatorOf_eq hpos he
  obtain ⟨u, v, hpairs, hu, hv, -⟩ := hput.place
  have hfull : (f.pages (pageOf e.2)).size + 1 = f.maxSize := hput.size.symm.trans hsize
  simp only [splitsStale, hput.found, IxNode.hasKey_absent hpairs hu hv, hfull, hroot, hsep,
    Option.any_some,
    Bool.not_false, decide_true, Bool.true_and, decide_eq_false_iff_not, not_lt] at h
  refine hput.lt_middle ?_ hk
  rw [hsize]
  exact h

end Separator

/-! ## The reference map -/

section Map

/-- The reference map after a call. -/
def refCall (m : K → Option Rid) : TreeCall K → K → Option Rid
  | .insertEntry key value => KeyIndex.insertEntry m key value
  | .deleteEntry key => KeyIndex.deleteEntry m key

/-- The reference map after a sequence of calls on a new index. -/
def refMap (cs : List (TreeCall K)) : K → Option Rid := cs.foldl refCall fun _ => none

/-- Every call that may follow returns, with the result that the map has for it. -/
structure Refines (f : IxIndexHandle K) (m : K → Option Rid) : Prop where
  getValue : ∀ q, f.getValue q = some (m q)
  insertEntry : ∀ k rid, ∃ f' r, f.insertEntry k rid = some (f', r) ∧
    (r = IX_NO_PAGE ↔ (m k).isSome)
  deleteEntry : ∀ k, ∃ f' r, f.deleteEntry k = some (f', r) ∧ (r = true ↔ (m k).isSome)

/-- An ordered tree whose leaves hold the map. -/
def Represents (f : IxIndexHandle K) (m : K → Option Rid) : Prop :=
  ∃ L, f.Laid L ∧ ∀ k rid, (k, rid) ∈ f.entries L ↔ m k = some rid

variable {f f' : IxIndexHandle K} {L L' : Layout} {m : K → Option Rid} {key : K} {value : Rid}
  {leaf r : ℤ}
  {n : IxNode K} {c : TreeCall K} {cs : List (TreeCall K)}

/-- A new index is a tree of one leaf without pairs. -/
theorem laid_createIndex {btreeOrder : ℕ} (h : 4 ≤ btreeOrder + 1) :
    (createIndex K btreeOrder).Laid ⟨fun _ => 0, fun _ => [IX_INIT_ROOT_PAGE]⟩ := by
  have hb : (createIndex K btreeOrder).Balanced {IX_INIT_ROOT_PAGE} (fun _ => 0) none :=
    balanced_createIndex h
  refine ⟨⟨_, hb⟩, hb.closed.treeInv hb.root ?_ ?_⟩
  · exact ⟨rfl, fun i hi => absurd hi (Nat.not_lt_zero i), fun i hpos hi => absurd hpos (by omega),
      fun _ _ => List.nodup_singleton _, fun i hi j hj p hp hp' => by omega⟩
  · refine ⟨fun p hp => ?_, fun hpos => absurd hpos (Nat.lt_irrefl 0), fun i _ hi =>
      absurd hi (Nat.not_lt_zero i)⟩
    rw [List.mem_singleton.1 hp]
    exact List.Pairwise.nil

omit [LinearOrder K] in
theorem entries_createIndex (btreeOrder : ℕ) :
    (createIndex K btreeOrder).entries ⟨fun _ => 0, fun _ => [IX_INIT_ROOT_PAGE]⟩ = [] := rfl

theorem represents_createIndex {btreeOrder : ℕ} (h : 4 ≤ btreeOrder + 1) :
    (createIndex K btreeOrder).Represents fun _ => none := by
  refine ⟨_, laid_createIndex h, fun k rid => ?_⟩
  rw [entries_createIndex]
  exact iff_of_false List.not_mem_nil fun h => by cases h

omit [LinearOrder K] in
theorem isSome_iff_mem (hm : ∀ k rid, (k, rid) ∈ f.entries L ↔ m k = some rid) :
    (m key).isSome ↔ ∃ rid, (key, rid) ∈ f.entries L := by
  rw [Option.isSome_iff_exists]
  exact exists_congr fun rid => (hm key rid).symm

/-- An index that represents a map answers every call as the map does. -/
theorem Represents.refines (h : f.Represents m) : f.Refines m := by
  obtain ⟨L, hl, hm⟩ := h
  refine ⟨fun q => ?_, fun k rid => ?_, fun k => ?_⟩
  · obtain ⟨r, hr⟩ := hl.exists_getValue q
    rw [hr, Option.some_inj]
    ext rid
    rw [← hm, ← hl.getValue_iff, hr, Option.some_inj]
  · rw [isSome_iff_mem hm]
    by_cases hbound : ∃ rid, (k, rid) ∈ f.entries L
    · obtain ⟨rid', hrid⟩ := hbound
      exact ⟨f, IX_NO_PAGE, hl.insertEntry_bound hrid, iff_of_true rfl ⟨rid', hrid⟩⟩
    · obtain ⟨f', r, hf', hr⟩ := hl.insertEntry_unbound fun rid' hrid => hbound ⟨rid', hrid⟩
      exact ⟨f', r, hf', iff_of_false hr hbound⟩
  · obtain ⟨f', r, L', hf', -, -, -, hcase⟩ := hl.deleteEntry k
    refine ⟨f', r, hf', ?_⟩
    rw [isSome_iff_mem hm]
    rcases hcase with ⟨rfl, rid, hperm⟩ | ⟨rfl, -, -, hnone⟩
    · exact iff_of_true rfl ⟨rid, hperm.mem_iff.2 List.mem_cons_self⟩
    · exact iff_of_false Bool.false_ne_true fun ⟨rid, hrid⟩ => hnone rid hrid

/-- The entries of an ordered tree hold the map. -/
def Binds (f : IxIndexHandle K) (L : Layout) (m : K → Option Rid) : Prop :=
  ∀ k rid, (k, rid) ∈ f.entries L ↔ m k = some rid

/-- A call that keeps the order keeps the tree, its chain of leaves and the map after the call. -/
theorem Laid.call (hl : f.Laid L) (hm : f.Binds L m) (hc : f.callSplitsStale c = false)
    (hf : f.call c = some f') :
    ∃ L', f'.Laid L' ∧ (f.LeafChain (L.level 0) → f'.LeafChain (L'.level 0)) ∧ f'.Binds L'
    (refCall m c) := by
  cases c with
  | insertEntry key value =>
    obtain ⟨f₁, r, L', hf₁, -, hl', hins⟩ := hl.insertEntry key value (hl.splitsInOrder hc)
    rw [IxIndexHandle.call, hf₁] at hf
    obtain rfl : f₁ = f' := Option.some.inj hf
    refine ⟨L', hl', hins.chain hl, fun k rid => ?_⟩
    rw [refCall, KeyIndex.insertEntry_eq_some_iff, ← hm]
    by_cases hbound : ∃ rid, (key, rid) ∈ f.entries L
    · obtain ⟨rid', hrid⟩ := hbound
      obtain ⟨rfl, rfl, -⟩ := hins.same hrid
      have hsome : m key = some rid' := (hm key rid').1 hrid
      simp [hsome]
    · have hnone : m key = none := by
        rw [← Option.not_isSome_iff_eq_none, isSome_iff_mem hm]
        exact hbound
      rw [(hins.perm hl fun rid hrid => hbound ⟨rid, hrid⟩).mem_iff, List.mem_cons,
        Prod.mk.injEq, or_comm]
      simp [hnone]
  | deleteEntry key =>
    obtain ⟨f₁, r, L', hf₁, -, hl', hchain, hcase⟩ := hl.deleteEntry key
    rw [IxIndexHandle.call, hf₁] at hf
    obtain rfl : f₁ = f' := Option.some.inj hf
    refine ⟨L', hl', hchain, fun k rid => ?_⟩
    rw [refCall, KeyIndex.deleteEntry_eq_some_iff, ← hm]
    rcases hcase with ⟨-, rid', hperm⟩ | ⟨-, rfl, rfl, hnone⟩
    · have hsorted : (((key, rid') :: f₁.entries L').map Prod.fst).Nodup := by
        rw [← (hperm.map Prod.fst).nodup_iff]
        exact (List.pairwise_map.2 hl.entries_sorted).imp fun hlt => ne_of_lt hlt
      rw [List.map_cons, List.nodup_cons] at hsorted
      rw [hperm.mem_iff, List.mem_cons, Prod.mk.injEq]
      constructor
      · intro hrid
        refine ⟨?_, .inr hrid⟩
        rintro rfl
        exact hsorted.1 (List.mem_map.2 ⟨_, hrid, rfl⟩)
      · rintro ⟨hne, ⟨heq, -⟩ | hrid⟩
        · exact absurd heq hne
        · exact hrid
    · refine ⟨fun hrid => ⟨?_, hrid⟩, And.right⟩
      rintro rfl
      exact hnone rid hrid

/-- A call that keeps the order makes the index represent the map after the call. -/
theorem Represents.call (h : f.Represents m) (hc : f.callSplitsStale c = false)
    (hf : f.call c = some f') : f'.Represents (refCall m c) := by
  obtain ⟨L, hl, hm⟩ := h
  obtain ⟨L', hl', -, hm'⟩ := hl.call hm hc hf
  exact ⟨L', hl', hm'⟩

/-- The calls return, and every index that is reached represents the map. -/
theorem Represents.calls (h : f.Represents m) (hcs : f.neverSplitsStale cs = true)
    (pre : List (TreeCall K))
    (hpre : pre <+: cs) : ∃ f', f.calls pre = some f' ∧ f'.Represents (pre.foldl refCall m) := by
  induction pre generalizing f m cs with
  | nil => exact ⟨f, rfl, h⟩
  | cons c pre ih =>
    obtain ⟨post, rfl⟩ := hpre
    obtain ⟨f₁, hf₁⟩ : ∃ f₁, f.call c = some f₁ := by
      obtain ⟨L, ⟨⟨T, hb⟩, -⟩, -⟩ := h
      obtain ⟨f₁, T₁, ht₁, hf₁, -⟩ := hb.call c
      exact ⟨f₁, hf₁⟩
    rw [List.cons_append, neverSplitsStale, Bool.and_eq_true, Bool.not_eq_true', hf₁] at hcs
    obtain ⟨f', hf', h'⟩ := ih (h.call hcs.1 hf₁) hcs.2 (List.prefix_append pre post)
    refine ⟨f', ?_, h'⟩
    rw [IxIndexHandle.calls, List.foldlM_cons, hf₁]
    exact hf'

end Map

/-- The assertion in `create_index` holds for every length that it accepts. -/
theorem two_lt_btreeOrderOf {n : ℕ} (h : (n : ℤ) ≤ IX_MAX_COL_LEN) : 2 < btreeOrderOf n := by
  rw [IX_MAX_COL_LEN] at h
  have hdiv : (7 : ℤ) ≤ (4096 - 24) / ((n : ℤ) + 8) := by
    rw [Int.le_ediv_iff_mul_le (by omega)]
    omega
  have hdef : btreeOrderOf n = (4096 - 24) / ((n : ℤ) + 8) - 1 := rfl
  omega

/-- The index that `create_index` makes for the columns `cols`. -/
def createKeyIndex (cols : List KeyCol) : IxIndexHandle (Key cols) :=
  createIndex (Key cols) (btreeOrderOf (cols.map KeyCol.len).sum).toNat

/-- In a run that never splits a leaf with a stale separator, every index that is reached refines
the map. -/
theorem index_refines_map (cols : List KeyCol)
    (hlen : ((cols.map KeyCol.len).sum : ℕ) ≤ IX_MAX_COL_LEN)
    (cs : List (TreeCall (Key cols))) (hcs : (createKeyIndex cols).neverSplitsStale cs = true) :
    ∀ pre, pre <+: cs → ∃ f, (createKeyIndex cols).calls pre = some f ∧ f.Refines (refMap pre) := by
  intro pre hpre
  have horder : 4 ≤ (btreeOrderOf (cols.map KeyCol.len).sum).toNat + 1 := by
    have := two_lt_btreeOrderOf hlen
    omega
  obtain ⟨f, hf, h⟩ := (represents_createIndex horder).calls hcs pre hpre
  exact ⟨f, hf, h.refines⟩

/-- A key of one `CHAR(500)` column. -/
def charKey (n : ℕ) : Key [.char 500] :=
  ⟨UInt8.ofNat n :: List.replicate 499 0, by rw [List.length_cons, List.length_replicate]; rfl⟩

/-- Twelve keys, and then four times a key of the first leaf is replaced by a new smallest key. -/
def staleCalls : List (TreeCall (Key [.char 500])) :=
  ((List.range 12).map fun i => .insertEntry (charKey (10 + i)) ⟨1, i⟩) ++
    (List.range 4).flatMap fun i =>
      [.deleteEntry (charKey (12 + i)), .insertEntry (charKey (9 - i)) ⟨1, 12 + i⟩]

theorem index_refines_map_char :
    (createKeyIndex [.char 500]).neverSplitsStale (staleCalls.take 19) = true ∧
    ∀ pre, pre <+: staleCalls.take 19 → ∃ f, (createKeyIndex [.char 500]).calls pre = some f ∧
      f.Refines (refMap pre) := by
  have hcs : (createKeyIndex [.char 500]).neverSplitsStale (staleCalls.take 19) = true := by
    decide +kernel
  exact ⟨hcs, index_refines_map [.char 500] (by decide) _ hcs⟩

/-- The key 10 is bound, and the search does not find it. -/
theorem index_loses_keys : ¬ ∀ cols :
    List KeyCol, ((cols.map KeyCol.len).sum : ℕ) ≤ IX_MAX_COL_LEN →
    ∀ cs : List (TreeCall (Key cols)), ∃ f, (createKeyIndex cols).calls cs = some f ∧ f.Refines
    (refMap cs) := by
  intro h
  obtain ⟨f, hf, href⟩ := h [.char 500] (by decide) staleCalls
  have hlost : ((createKeyIndex [.char 500]).calls staleCalls).bind
      (fun f => f.getValue (charKey 10)) = some none := by
    decide +kernel
  have hbound : refMap staleCalls (charKey 10) = some ⟨1, 0⟩ := by decide +kernel
  rw [hf, Option.bind_some, href.getValue, hbound] at hlost
  cases hlost


end IxIndexHandle

end Rmdb
