import Mathlib.Data.List.Nodup
import Rmdb.Index.Links
import Rmdb.Lib.LinkedList

/-!
# The chain of leaves

`prev_leaf`, `next_leaf`, `first_leaf_` and `last_leaf_`.  The leaves and the leaf header page form
a ring.  Only the split of a leaf and the merge of two change it: the new leaf comes after the old
one, and the right one of two is left out.
-/

namespace Rmdb

variable {K : Type}

namespace IxIndexHandle

def nextOf (f : IxIndexHandle K) (p : ℤ) : ℤ := (f.pages p).nextLeaf

def prevOf (f : IxIndexHandle K) (p : ℤ) : ℤ := (f.pages p).prevLeaf

section Views

variable (f : IxIndexHandle K) (p q : ℤ) (n : IxNode K) (l : List (K × Rid))

theorem nextOf_setNode : (f.setNode p n).nextOf = Function.update f.nextOf p n.nextLeaf := by
  funext r
  by_cases hr : r = p
  · subst hr
    simp [nextOf, setNode]
  · simp [nextOf, setNode, hr]

theorem prevOf_setNode : (f.setNode p n).prevOf = Function.update f.prevOf p n.prevLeaf := by
  funext r
  by_cases hr : r = p
  · subst hr
    simp [prevOf, setNode]
  · simp [prevOf, setNode, hr]

theorem nextOf_setNextLeaf : (f.setNextLeaf p q).nextOf = Function.update f.nextOf p q :=
  nextOf_setNode ..

theorem prevOf_setPrevLeaf : (f.setPrevLeaf p q).prevOf = Function.update f.prevOf p q :=
  prevOf_setNode ..

theorem nextOf_setPrevLeaf : (f.setPrevLeaf p q).nextOf = f.nextOf := by
  rw [setPrevLeaf, nextOf_setNode]
  exact Function.update_eq_self p f.nextOf

theorem prevOf_setNextLeaf : (f.setNextLeaf p q).prevOf = f.prevOf := by
  rw [setNextLeaf, prevOf_setNode]
  exact Function.update_eq_self p f.prevOf

theorem nextOf_setPairs : (f.setPairs p l).nextOf = f.nextOf := by
  rw [setPairs, nextOf_setNode]
  exact Function.update_eq_self p f.nextOf

theorem prevOf_setPairs : (f.setPairs p l).prevOf = f.prevOf := by
  rw [setPairs, prevOf_setNode]
  exact Function.update_eq_self p f.prevOf

theorem nextOf_createNode : f.createNode.1.nextOf = Function.update f.nextOf f.nextPageNo 0 :=
  nextOf_setNode ..

theorem prevOf_createNode : f.createNode.1.prevOf = Function.update f.prevOf f.nextPageNo 0 :=
  prevOf_setNode ..

end Views

/-! ## Steps that leave the chain as it is -/

/-- The pages below `m` have the same neighbours. -/
structure SameChain (m : ℤ) (f f' : IxIndexHandle K) : Prop where
  first : f'.firstLeaf = f.firstLeaf
  last : f'.lastLeaf = f.lastLeaf
  next : ∀ q < m, f'.nextOf q = f.nextOf q
  prev : ∀ q < m, f'.prevOf q = f.prevOf q

section SameChain

variable {f f' f'' : IxIndexHandle K} {m m' p q : ℤ} {n : IxNode K}

theorem SameChain.refl (m : ℤ) (f : IxIndexHandle K) : SameChain m f f :=
  ⟨rfl, rfl, fun _ _ => rfl, fun _ _ => rfl⟩

theorem SameChain.trans (h : SameChain m f f') (h' : SameChain m' f' f'') (hm : m ≤ m') :
    SameChain m f f'' := by
  refine ⟨h'.first.trans h.first, h'.last.trans h.last, fun q hq => ?_, fun q hq => ?_⟩
  · rw [h'.next q (lt_of_lt_of_le hq hm), h.next q hq]
  · rw [h'.prev q (lt_of_lt_of_le hq hm), h.prev q hq]

/-- The page has its neighbours still, or it is not below `m`. -/
theorem sameChain_setNode (h : n.nextLeaf = f.nextOf p ∧ n.prevLeaf = f.prevOf p ∨ m ≤ p) :
    SameChain m f (f.setNode p n) := by
  refine ⟨rfl, rfl, fun q hq => ?_, fun q hq => ?_⟩
  · rw [nextOf_setNode]
    by_cases hqp : q = p
    · subst hqp
      rw [Function.update_self]
      exact (h.resolve_right (not_le_of_gt hq)).1
    · rw [Function.update_of_ne hqp]
  · rw [prevOf_setNode]
    by_cases hqp : q = p
    · subst hqp
      rw [Function.update_self]
      exact (h.resolve_right (not_le_of_gt hq)).2
    · rw [Function.update_of_ne hqp]

theorem sameChain_setParentPageNo : SameChain m f (f.setParentPageNo p q) :=
  sameChain_setNode (.inl ⟨rfl, rfl⟩)

theorem sameChain_createNode (f : IxIndexHandle K) : SameChain f.nextPageNo f f.createNode.1 :=
  ⟨rfl, rfl, fun _ hq => by rw [nextOf_createNode, Function.update_of_ne hq.ne],
    fun _ hq => by rw [prevOf_createNode, Function.update_of_ne hq.ne]⟩

theorem sameChain_maintainChildren (node : ℤ) (start : ℕ) :
    SameChain m f (f.maintainChildren node start) := by
  have hloop (l : List (K × Rid)) (f : IxIndexHandle K) :
      SameChain m f (l.foldl (fun f e => f.setParentPageNo e.2.pageNo node) f) := by
    induction l generalizing f with
    | nil => exact .refl m f
    | cons e l ih => exact sameChain_setParentPageNo.trans (ih _) le_rfl
  unfold maintainChildren
  split
  · exact .refl m f
  · exact hloop _ f

/-- The split of an inner page. -/
theorem sameChain_split {new : ℤ} (hleaf : f.leafOf p = false) (h : f.split p = some (f', new)) :
    SameChain f.nextPageNo f f' := by
  have hleaf : (f.pages p).isLeaf = false := hleaf
  unfold IxIndexHandle.split at h
  simp only [hleaf, Option.bind_eq_bind, Option.bind_eq_some_iff] at h
  obtain ⟨n, -, h⟩ := h
  rw [if_neg Bool.false_ne_true] at h
  cases h
  refine SameChain.trans ?_ (sameChain_maintainChildren _ _) le_rfl
  refine SameChain.trans ?_ (sameChain_setNode (.inr le_rfl)) le_rfl
  refine SameChain.trans ?_ (sameChain_setNode (.inr le_rfl)) le_rfl
  refine SameChain.trans ?_ (sameChain_setNode (.inl ⟨rfl, rfl⟩)) le_rfl
  exact (sameChain_createNode f).trans (sameChain_setNode (.inr le_rfl)) le_rfl

theorem sameChain_newRoot {old new : ℤ} (h : f.newRoot old new = some f') :
    SameChain f.nextPageNo f f' := by
  unfold IxIndexHandle.newRoot at h
  simp only [Option.bind_eq_bind, Option.bind_eq_some_iff] at h
  obtain ⟨oldKey, -, newKey, -, n, -, n', -, h⟩ := h
  cases h
  have hcreate :=
    (sameChain_createNode f).trans (sameChain_setParentPageNo (m := f.nextPageNo) (p := old)
    (q := f.createNode.2)) le_rfl
  have hparents := hcreate.trans
    (sameChain_setParentPageNo (m := f.nextPageNo) (p := new) (q := f.createNode.2)) le_rfl
  have hroot := hparents.trans (sameChain_setNode (n := n') (m := f.nextPageNo)
    (p := f.createNode.2) (.inr le_rfl)) le_rfl
  exact ⟨hroot.first, hroot.last, hroot.next, hroot.prev⟩

theorem sameChain_maintainParentLoop [DecidableEq K] {fuel : ℕ}
    (h : maintainParentLoop fuel f p = some f') : SameChain m f f' := by
  induction fuel generalizing f p with
  | zero => cases h
  | succ fuel ih =>
    rw [maintainParentLoop] at h
    split at h
    · cases h
      exact .refl _ _
    · simp only [Option.bind_eq_bind, Option.bind_eq_some_iff] at h
      obtain ⟨rank, -, parentKey, -, childKey, -, h⟩ := h
      split at h
      · cases h
        exact .refl _ _
      · have hs : SameChain m f (f.setNode (f.pages p).parent
          ((f.pages (f.pages p).parent).setKey rank childKey)) :=
          sameChain_setNode (.inl ⟨rfl, rfl⟩)
        exact hs.trans (ih h) le_rfl

theorem sameChain_adjustRoot {r : Bool} (h : f.adjustRoot p = some (f', r)) : SameChain m f f' := by
  unfold IxIndexHandle.adjustRoot at h
  simp only at h
  split at h
  · simp only [Option.bind_eq_bind, Option.bind_eq_some_iff] at h
    obtain ⟨child, -, n, hn, h⟩ := h
    rw [erasePair_eq hn] at h
    cases h
    have hnode := (sameChain_setNode (f := f) (m := m) (p := p) (n := { f.pages p with
      pairs := (f.pages p).pairs.eraseIdx 0 }) (.inl ⟨rfl, rfl⟩)).trans
        (sameChain_setParentPageNo (m := m) (p := child)
      (q := IX_NO_PAGE)) le_rfl
    exact ⟨hnode.first, hnode.last, hnode.next, hnode.prev⟩
  · split at h
    · cases h
      exact ⟨rfl, rfl, fun _ _ => rfl, fun _ _ => rfl⟩
    · cases h
      exact .refl m f

theorem sameChain_maintainChild {i : ℕ} (h : f.maintainChild p i = some f') : SameChain m f f' := by
  unfold IxIndexHandle.maintainChild at h
  split at h
  · cases h
    exact .refl m f
  · simp only [Option.bind_eq_bind, Option.bind_eq_some_iff] at h
    obtain ⟨child, -, h⟩ := h
    cases h
    exact sameChain_setParentPageNo

/-- Two nodes keep their neighbours. -/
theorem sameChain_setNodes {n' : IxNode K} (hn : n.nextLeaf = f.nextOf p ∧ n.prevLeaf = f.prevOf p)
    (hn' : n'.nextLeaf = f.nextOf q ∧ n'.prevLeaf = f.prevOf q) :
    SameChain m f ((f.setNode p n).setNode q n') := by
  refine (sameChain_setNode (.inl hn)).trans (sameChain_setNode (.inl ?_)) (le_refl m)
  rw [nextOf_setNode, prevOf_setNode]
  by_cases hqp : q = p
  · subst hqp
    rw [Function.update_self, Function.update_self, hn.1, hn.2]
    exact hn'
  · rw [Function.update_of_ne hqp, Function.update_of_ne hqp]
    exact hn'

theorem insertPairs_neighbours {n n' : IxNode K} {maxSize pos : ℕ} {l : List (K × Rid)}
    (h : n.insertPairs maxSize pos l = some n') :
    n'.nextLeaf = n.nextLeaf ∧ n'.prevLeaf = n.prevLeaf := by
  rw [insertPairs_eq h]
  exact ⟨rfl, rfl⟩

theorem erasePair_neighbours {n n' : IxNode K} {pos : ℕ} (h : n.erasePair pos = some n') :
    n'.nextLeaf = n.nextLeaf ∧ n'.prevLeaf = n.prevLeaf := by
  rw [erasePair_eq h]
  exact ⟨rfl, rfl⟩

theorem sameChain_setKey (p : ℤ) (i : ℕ) (key : K) :
    SameChain m f (f.setNode p ((f.pages p).setKey i key)) :=
  sameChain_setNode (.inl ⟨rfl, rfl⟩)

theorem sameChain_redistribute [DecidableEq K] {nb P : ℤ} {index : ℕ}
    (h : f.redistribute nb p P index = some f') : SameChain m f f' := by
  unfold IxIndexHandle.redistribute at h
  split at h
  all_goals
    simp only [Option.bind_eq_bind, Option.bind_eq_some_iff] at h
    obtain ⟨e, -, n, hn, n', hn', f₁, hmove, i, -, key, -, j, -, key', -, hmaintain⟩ := h
    have hpairs : SameChain m f f₁ :=
      (sameChain_setNodes (insertPairs_neighbours hn) (erasePair_neighbours hn')).trans
        (sameChain_maintainChild hmove) le_rfl
    have hkeys : SameChain m f₁ f' := (sameChain_setKey P i key).trans
      ((sameChain_setKey P j key').trans (sameChain_maintainParentLoop hmaintain) le_rfl) le_rfl
    exact hpairs.trans hkeys le_rfl

/-- `coalesce` and the call at its end. -/
theorem coalesce_eq_bind (next : IxIndexHandle K → ℤ → Option (IxIndexHandle K × Bool)) (nb P : ℤ)
    (index : ℕ) :
    f.coalesce next nb p P index = (f.coalesce (fun f _ => some (f, true)) nb p P index).bind
    fun r => next r.1 P := by
  simp only [IxIndexHandle.coalesce, Option.bind_eq_bind, Option.bind_assoc, Option.bind_some]

/-- A merge: the left one of two leaves takes the place of both. -/
theorem coalesce_chain {left right nb P : ℤ} {index : ℕ} {r : Bool}
    (h : f.coalesce (fun f _ => some (f, true)) nb p P index = some (f', r))
    (hleft : (if index = 0 then p else nb) = left) (hright : (if index = 0 then nb else p) = right)
    (hne : left ≠ right) :
    if f.leafOf right then
      f'.firstLeaf = f.firstLeaf ∧ f'.lastLeaf = (if f.lastLeaf = right then left else f.lastLeaf) ∧
        f'.nextOf = Function.update f.nextOf left (f.nextOf right) ∧
        f'.prevOf = Function.update f.prevOf (f.nextOf right) left
    else ∀ m, SameChain m f f' := by
  unfold IxIndexHandle.coalesce at h
  simp only [hleft, hright, Option.bind_eq_bind, Option.bind_eq_some_iff] at h
  obtain ⟨n, hn, h⟩ := h
  generalize hf₁ : (f.setNode left n).maintainChildren left (f.pages left).size = f₁ at h
  generalize hf₂ : (if (f₁.pages right).isLeaf = true then _ else f₁) = f₂ at h
  obtain ⟨rightIndex, -, n', hn', h⟩ := h
  obtain ⟨rfl, -⟩ := Prod.mk.inj (Option.some.inj h)
  have hparent (m : ℤ) : SameChain m f₂ (f₂.setNode P n') :=
    sameChain_setNode (.inl (erasePair_neighbours hn'))
  have hleafOf : f₁.leafOf = f.leafOf := by
    rw [← hf₁, (maintainChildren_spec ..).2.1, leafOf_setNode, insertPairs_eq hn]
    exact Function.update_eq_self left f.leafOf
  have hleaf : (f₁.pages right).isLeaf = f.leafOf right := congrFun hleafOf right
  have hsame (m : ℤ) : SameChain m f f₁ := by
    rw [← hf₁]
    exact (sameChain_setNode (.inl (insertPairs_neighbours hn))).trans
      (sameChain_maintainChildren ..) le_rfl
  rw [hleaf] at hf₂
  split
  · next hright =>
    rw [if_pos hright] at hf₂
    have hnextOf : f₁.nextOf = f.nextOf := funext fun q => (hsame (q + 1)).next q (Int.lt_succ q)
    have hprevOf : f₁.prevOf = f.prevOf := funext fun q => (hsame (q + 1)).prev q (Int.lt_succ q)
    have hnext' : (f₂.setNode P n').nextOf = f₂.nextOf :=
      funext fun q => (hparent (q + 1)).next q (Int.lt_succ q)
    have hprev' : (f₂.setNode P n').prevOf = f₂.prevOf :=
      funext fun q => (hparent (q + 1)).prev q (Int.lt_succ q)
    have hrightNext : (f₁.setNextLeaf left (f₁.pages right).nextLeaf).nextOf right =
        f.nextOf right := by
      rw [nextOf_setNextLeaf, Function.update_of_ne hne.symm, hnextOf]
    generalize hg : (f₁.setNextLeaf left (f₁.pages right).nextLeaf).setPrevLeaf _ left = g at hf₂
    have hfirst : g.firstLeaf = f.firstLeaf := by
      rw [← hg]
      exact (hsame 0).first
    have hlast : g.lastLeaf = f.lastLeaf := by
      rw [← hg]
      exact (hsame 0).last
    have hnext : g.nextOf = Function.update f.nextOf left (f.nextOf right) := by
      rw [← hg, nextOf_setPrevLeaf, nextOf_setNextLeaf, ← hnextOf]
      rfl
    have hprev : g.prevOf = Function.update f.prevOf (f.nextOf right) left := by
      rw [← hg, prevOf_setPrevLeaf, prevOf_setNextLeaf, hprevOf, ← hrightNext]
      rfl
    show f₂.firstLeaf = _ ∧ f₂.lastLeaf = _ ∧ (f₂.setNode P n').nextOf = _ ∧
      (f₂.setNode P n').prevOf = _
    rw [hnext', hprev', ← hfirst, ← hlast, ← hnext, ← hprev, ← hf₂]
    split
    · exact ⟨rfl, rfl, rfl, rfl⟩
    · exact ⟨rfl, rfl, rfl, rfl⟩
  · next hright =>
    rw [if_neg hright] at hf₂
    subst hf₂
    intro m
    have hs := (hsame m).trans (hparent m) le_rfl
    exact ⟨hs.first, hs.last, hs.next, hs.prev⟩

/-- The split of a leaf. -/
theorem split_leaf {new : ℤ} (hleaf : f.leafOf p = true) (h : f.split p = some (f', new)) :
    f'.firstLeaf = f.firstLeaf ∧ f'.lastLeaf =
    (if f.lastLeaf = p then f.nextPageNo else f.lastLeaf) ∧
      f'.nextOf = Function.update (Function.update f.nextOf f.nextPageNo (f.nextOf p)) p
      f.nextPageNo ∧
      f'.prevOf = Function.update (Function.update f.prevOf f.nextPageNo p)
      (f.nextOf p) f.nextPageNo := by
  have hleaf : (f.pages p).isLeaf = true := hleaf
  unfold IxIndexHandle.split at h
  simp only [hleaf, Option.bind_eq_bind, Option.bind_eq_some_iff] at h
  obtain ⟨n, -, h⟩ := h
  rw [if_pos trivial] at h
  obtain ⟨g, hg⟩ : ∃ g, g = (((((f.createNode.1.setNode f.createNode.2 n).setPairs p
      ((f.pages p).pairs.take ((f.pages p).size / 2))).setPrevLeaf f.createNode.2 p).setNextLeaf
        f.createNode.2
      (f.pages p).nextLeaf).setPrevLeaf (f.pages p).nextLeaf f.createNode.2).setNextLeaf p
        f.createNode.2 := ⟨_, rfl⟩
  rw [← hg] at h
  have hfirst : g.firstLeaf = f.firstLeaf := by
    rw [hg]
    rfl
  have hlast : g.lastLeaf = f.lastLeaf := by
    rw [hg]
    rfl
  have hnext : g.nextOf = Function.update (Function.update f.nextOf f.nextPageNo (f.nextOf p)) p
      f.nextPageNo := by
    rw [hg, nextOf_setNextLeaf, nextOf_setPrevLeaf, nextOf_setNextLeaf, nextOf_setPrevLeaf,
      nextOf_setPairs,
      nextOf_setNode, nextOf_createNode, createNode_snd, Function.update_idem, Function.update_idem]
    rfl
  have hprev : g.prevOf = Function.update (Function.update f.prevOf f.nextPageNo p)
      (f.nextOf p) f.nextPageNo := by
    rw [hg, prevOf_setNextLeaf, prevOf_setPrevLeaf, prevOf_setNextLeaf, prevOf_setPrevLeaf,
      prevOf_setPairs,
      prevOf_setNode, prevOf_createNode, createNode_snd, Function.update_idem, Function.update_idem]
    rfl
  obtain ⟨hf', -⟩ := Prod.mk.inj (Option.some.inj h)
  rw [← hf', ← hfirst, ← hlast, ← hnext, ← hprev]
  split
  · exact ⟨rfl, rfl, rfl, rfl⟩
  · exact ⟨rfl, rfl, rfl, rfl⟩

end SameChain

/-! ## The chain -/

/-- The leaves of a list form a ring with the leaf header page. -/
structure LeafChain (f : IxIndexHandle K) (l : List ℤ) : Prop where
  linked : DoublyLinked f.nextOf f.prevOf (IX_LEAF_HEADER_PAGE :: l ++ [IX_LEAF_HEADER_PAGE])
  first : l.head? = some f.firstLeaf
  last : l.getLast? = some f.lastLeaf

section LeafChain

variable {f f' : IxIndexHandle K} {l A B : List ℤ} {m p : ℤ}

theorem LeafChain.same (h : f.LeafChain l) (hs : SameChain m f f') (hm : IX_LEAF_HEADER_PAGE < m)
    (hl : ∀ p ∈ l, p < m) : f'.LeafChain l := by
  have hlt (p : ℤ) (hp : p ∈ IX_LEAF_HEADER_PAGE :: l ++ [IX_LEAF_HEADER_PAGE]) : p < m := by
    rcases List.mem_append.mp hp with hp | hp
    · rcases List.mem_cons.mp hp with rfl | hp
      · exact hm
      · exact hl p hp
    · rw [List.mem_singleton.mp hp]
      exact hm
  refine ⟨h.linked.congr (fun p hp => hs.next p (hlt p hp))
    fun p hp => hs.prev p (hlt p hp), ?_, ?_⟩
  · rw [hs.first]
    exact h.first
  · rw [hs.last]
    exact h.last

/-- The new leaf comes after the old one. -/
theorem LeafChain.split {new : ℤ} (h : f.LeafChain (A ++ p :: B)) (hleaf : f.leafOf p = true)
    (hsplit : f.split p = some (f', new)) (hnodup : (A ++ p :: B).Nodup)
    (hl : ∀ q ∈ A ++ p :: B, 2 ≤ q ∧ q < f.nextPageNo) :
    f'.LeafChain (A ++ p :: f.nextPageNo :: B) := by
  obtain ⟨hfirst, hlast, hnext, hprev⟩ := split_leaf hleaf hsplit
  have hlp := hl p (by simp)
  obtain ⟨x, B', hxB⟩ : ∃ x B', B ++ [IX_LEAF_HEADER_PAGE] = x :: B' :=
    List.exists_cons_of_ne_nil (by simp)
  have hring : IX_LEAF_HEADER_PAGE :: (A ++ p :: B) ++ [IX_LEAF_HEADER_PAGE] =
      (IX_LEAF_HEADER_PAGE :: A) ++ p :: x :: B' := by
    rw [← hxB]
    simp
  have hring' : IX_LEAF_HEADER_PAGE :: (A ++ p :: f.nextPageNo :: B) ++ [IX_LEAF_HEADER_PAGE] =
      (IX_LEAF_HEADER_PAGE :: A) ++ p :: f.nextPageNo :: x :: B' := by
    rw [← hxB]
    simp
  have hlinked := h.linked
  rw [hring] at hlinked
  have hnextp : f.nextOf p = x := (List.isChain_append_cons_cons.mp hlinked).2.1.1
  have hheader : IX_LEAF_HEADER_PAGE = 1 := rfl
  have hne (q : ℤ) (hq : q ∈ A ++ p :: B) : q ≠ IX_LEAF_HEADER_PAGE := by
    have := hl q hq
    omega
  obtain ⟨-, hpB, hAp⟩ := List.nodup_append.mp hnodup
  obtain ⟨hpB, hB⟩ := List.nodup_cons.mp hpB
  -- the page after `p` is another leaf or the header page
  have hBheader : (B ++ [IX_LEAF_HEADER_PAGE]).Nodup := by
    refine List.nodup_append.mpr ⟨hB, List.nodup_singleton _, fun a ha b hb heq => ?_⟩
    rw [List.mem_singleton] at hb
    exact hne a (by simp [ha]) (heq.trans hb)
  have hxmem : x ∈ B ++ [IX_LEAF_HEADER_PAGE] := by
    rw [hxB]
    exact List.mem_cons_self
  refine ⟨?_, ?_, ?_⟩
  · rw [hnext, hprev, hring', hnextp]
    refine hlinked.insert ?_ ?_ ?_
    · rw [← hring]
      intro hmem
      rcases List.mem_append.mp hmem with hmem | hmem
      · rcases List.mem_cons.mp hmem with heq | hmem
        · omega
        · have := (hl _ hmem).2
          omega
      · rw [List.mem_singleton] at hmem
        omega
    · intro hmem
      rw [List.cons_append, List.tail_cons] at hmem
      rcases List.mem_append.mp hxmem with hxB | hxH
      · rcases List.mem_append.mp hmem with hmem | hmem
        · exact hAp x hmem x (List.mem_cons_of_mem _ hxB) rfl
        · rw [List.mem_singleton] at hmem
          exact hpB (hmem ▸ hxB)
      · rw [List.mem_singleton] at hxH
        refine hne x ?_ hxH
        rcases List.mem_append.mp hmem with hmem | hmem
        · exact List.mem_append_left _ hmem
        · rw [List.mem_singleton.mp hmem]
          simp
    · rw [hxB] at hBheader
      exact (List.nodup_cons.mp hBheader).1
  · rw [hfirst, ← h.first]
    cases A with
    | nil => rfl
    | cons a A => rfl
  · have hold := h.last
    rw [hlast]
    rw [List.getLast?_append, List.getLast?_cons_cons] at *
    cases B with
    | nil =>
      obtain rfl : p = f.lastLeaf := by simpa using hold
      simp
    | cons b B =>
      rw [List.getLast?_cons_cons] at hold ⊢
      have hmem : f.lastLeaf ∈ b :: B := by
        obtain ⟨y, hy⟩ : ∃ y, (b :: B).getLast? = some y :=
          ⟨_, List.getLast?_eq_some_getLast (List.cons_ne_nil b B)⟩
        rw [hy, Option.some_or] at hold
        cases hold
        exact List.mem_of_getLast? hy
      rw [if_neg fun heq : f.lastLeaf = p => hpB (heq ▸ hmem)]
      exact hold

theorem LeafChain.unchanged (h : f.LeafChain l) (hs : ∀ m, SameChain m f f') : f'.LeafChain l := by
  refine ⟨h.linked.congr (fun p _ => (hs (p + 1)).next p (Int.lt_succ p)) fun p _ =>
    (hs (p + 1)).prev p (Int.lt_succ p), ?_, ?_⟩
  · rw [(hs 0).first]
    exact h.first
  · rw [(hs 0).last]
    exact h.last

/-- The left one of two leaves takes the place of both. -/
theorem LeafChain.merge {left right : ℤ} (h : f.LeafChain (A ++ left :: right :: B))
    (hnodup : (A ++ left :: right :: B).Nodup)
    (hheader : IX_LEAF_HEADER_PAGE ∉ A ++ left :: right :: B)
    (hfirst : f'.firstLeaf = f.firstLeaf)
    (hlast : f'.lastLeaf = if f.lastLeaf = right then left else f.lastLeaf)
    (hnext : f'.nextOf = Function.update f.nextOf left (f.nextOf right))
    (hprev : f'.prevOf = Function.update f.prevOf (f.nextOf right) left) :
    f'.LeafChain (A ++ left :: B) := by
  obtain ⟨x, B', hxB⟩ : ∃ x B', B ++ [IX_LEAF_HEADER_PAGE] = x :: B' :=
    List.exists_cons_of_ne_nil (by simp)
  have hring : IX_LEAF_HEADER_PAGE :: (A ++ left :: right :: B) ++ [IX_LEAF_HEADER_PAGE] =
      (IX_LEAF_HEADER_PAGE :: A) ++ left :: right :: x :: B' := by
    rw [← hxB]
    simp
  have hring' : IX_LEAF_HEADER_PAGE :: (A ++ left :: B) ++ [IX_LEAF_HEADER_PAGE] =
      (IX_LEAF_HEADER_PAGE :: A) ++ left :: x :: B' := by
    rw [← hxB]
    simp
  have hlinked := h.linked
  rw [hring] at hlinked
  have hnextRight : f.nextOf right = x := by
    obtain ⟨-, -, hB⟩ := List.isChain_append_cons_cons.mp hlinked
    exact (List.isChain_cons_cons.mp hB).1.1
  -- the list of pages from the first leaf to the header page has no page twice
  have hall : (A ++ [left] ++ right :: x :: B').Nodup := by
    have hnodup' : (A ++ left :: right :: B ++ [IX_LEAF_HEADER_PAGE]).Nodup := by
      refine List.nodup_append.mpr ⟨hnodup, List.nodup_singleton _, fun a ha b hb heq => ?_⟩
      rw [List.mem_singleton] at hb
      exact hheader (hb ▸ heq ▸ ha)
    rw [List.append_assoc, List.cons_append, List.cons_append, hxB] at hnodup'
    rw [List.append_assoc]
    exact hnodup'
  obtain ⟨-, hright, hdisjoint⟩ := List.nodup_append.mp hall
  obtain ⟨hrightB, hxB'⟩ := List.nodup_cons.mp hright
  refine ⟨?_, ?_, ?_⟩
  · rw [hnext, hprev, hring', hnextRight]
    refine hlinked.remove ?_ hrightB ?_ (List.nodup_cons.mp hxB').1
    · exact fun hmem => hdisjoint right hmem right List.mem_cons_self rfl
    · exact fun hmem => hdisjoint x hmem x (List.mem_cons_of_mem _ List.mem_cons_self) rfl
  · rw [hfirst, ← h.first]
    cases A with
    | nil => rfl
    | cons a A => rfl
  · have hold := h.last
    rw [hlast]
    rw [List.getLast?_append, List.getLast?_cons_cons] at hold
    rw [List.getLast?_append]
    cases B with
    | nil =>
      obtain rfl : right = f.lastLeaf := by simpa using hold
      simp
    | cons b B =>
      rw [List.getLast?_cons_cons] at hold ⊢
      have hmem : f.lastLeaf ∈ b :: B := by
        obtain ⟨y, hy⟩ : ∃ y, (b :: B).getLast? = some y :=
          ⟨_, List.getLast?_eq_some_getLast (List.cons_ne_nil b B)⟩
        rw [hy, Option.some_or] at hold
        cases hold
        exact List.mem_of_getLast? hy
      have hne : f.lastLeaf ≠ right := by
        rintro heq
        refine hrightB ?_
        rw [← hxB, ← heq]
        exact List.mem_append_left _ hmem
      rw [if_neg hne]
      exact hold

end LeafChain

end IxIndexHandle

end Rmdb
