import Rmdb.Index.BTree

/-!
# Views of the pages of a B+ tree

What the proofs need of a page: its pairs, its parent and whether it is a leaf, as functions of the
page number, with a lemma for each way of changing a page.
-/

namespace Rmdb

variable {K : Type}

namespace IxIndexHandle

/-- The pairs of a page. -/
def pairs (f : IxIndexHandle K) (p : ℤ) : List (K × Rid) := (f.pages p).pairs

/-- The parent of a page. -/
def parentOf (f : IxIndexHandle K) (p : ℤ) : ℤ := (f.pages p).parent

/-- Whether a page is a leaf. -/
def leafOf (f : IxIndexHandle K) (p : ℤ) : Bool := (f.pages p).isLeaf

variable (f : IxIndexHandle K) (p q : ℤ) (n : IxNode K) (l : List (K × Rid))

@[simp] theorem pairs_setNode : (f.setNode p n).pairs = Function.update f.pairs p n.pairs := by
  funext r
  by_cases hr : r = p
  · subst hr
    simp [pairs, setNode]
  · simp [pairs, setNode, hr]

@[simp] theorem parentOf_setNode :
    (f.setNode p n).parentOf = Function.update f.parentOf p n.parent := by
  funext r
  by_cases hr : r = p
  · subst hr
    simp [parentOf, setNode]
  · simp [parentOf, setNode, hr]

@[simp] theorem leafOf_setNode : (f.setNode p n).leafOf = Function.update f.leafOf p n.isLeaf := by
  funext r
  by_cases hr : r = p
  · subst hr
    simp [leafOf, setNode]
  · simp [leafOf, setNode, hr]

@[simp] theorem rootPage_setNode : (f.setNode p n).rootPage = f.rootPage := rfl
@[simp] theorem nextPageNo_setNode : (f.setNode p n).nextPageNo = f.nextPageNo := rfl
@[simp] theorem btreeOrder_setNode : (f.setNode p n).btreeOrder = f.btreeOrder := rfl

@[simp] theorem pairs_setParentPageNo : (f.setParentPageNo p q).pairs = f.pairs := by
  simp only [setParentPageNo, pairs_setNode]
  exact Function.update_eq_self p f.pairs

@[simp] theorem parentOf_setParentPageNo :
    (f.setParentPageNo p q).parentOf = Function.update f.parentOf p q := by
  simp only [setParentPageNo, parentOf_setNode]

@[simp] theorem leafOf_setParentPageNo : (f.setParentPageNo p q).leafOf = f.leafOf := by
  simp only [setParentPageNo, leafOf_setNode]
  exact Function.update_eq_self p f.leafOf

@[simp] theorem pairs_setPrevLeaf : (f.setPrevLeaf p q).pairs = f.pairs := by
  simp only [setPrevLeaf, pairs_setNode]
  exact Function.update_eq_self p f.pairs

@[simp] theorem parentOf_setPrevLeaf : (f.setPrevLeaf p q).parentOf = f.parentOf := by
  simp only [setPrevLeaf, parentOf_setNode]
  exact Function.update_eq_self p f.parentOf

@[simp] theorem leafOf_setPrevLeaf : (f.setPrevLeaf p q).leafOf = f.leafOf := by
  simp only [setPrevLeaf, leafOf_setNode]
  exact Function.update_eq_self p f.leafOf

@[simp] theorem pairs_setNextLeaf : (f.setNextLeaf p q).pairs = f.pairs := by
  simp only [setNextLeaf, pairs_setNode]
  exact Function.update_eq_self p f.pairs

@[simp] theorem parentOf_setNextLeaf : (f.setNextLeaf p q).parentOf = f.parentOf := by
  simp only [setNextLeaf, parentOf_setNode]
  exact Function.update_eq_self p f.parentOf

@[simp] theorem leafOf_setNextLeaf : (f.setNextLeaf p q).leafOf = f.leafOf := by
  simp only [setNextLeaf, leafOf_setNode]
  exact Function.update_eq_self p f.leafOf

@[simp] theorem pairs_setPairs : (f.setPairs p l).pairs = Function.update f.pairs p l := by
  simp only [setPairs, pairs_setNode]

@[simp] theorem parentOf_setPairs : (f.setPairs p l).parentOf = f.parentOf := by
  simp only [setPairs, parentOf_setNode]
  exact Function.update_eq_self p f.parentOf

@[simp] theorem leafOf_setPairs : (f.setPairs p l).leafOf = f.leafOf := by
  simp only [setPairs, leafOf_setNode]
  exact Function.update_eq_self p f.leafOf

@[simp] theorem rootPage_setPairs : (f.setPairs p l).rootPage = f.rootPage := rfl
@[simp] theorem nextPageNo_setPairs : (f.setPairs p l).nextPageNo = f.nextPageNo := rfl
@[simp] theorem rootPage_setPrevLeaf : (f.setPrevLeaf p q).rootPage = f.rootPage := rfl
@[simp] theorem nextPageNo_setPrevLeaf : (f.setPrevLeaf p q).nextPageNo = f.nextPageNo := rfl
@[simp] theorem rootPage_setNextLeaf : (f.setNextLeaf p q).rootPage = f.rootPage := rfl
@[simp] theorem nextPageNo_setNextLeaf : (f.setNextLeaf p q).nextPageNo = f.nextPageNo := rfl

@[simp] theorem pairs_createNode :
    f.createNode.1.pairs = Function.update f.pairs f.nextPageNo [] := by
  funext r
  by_cases hr : r = f.nextPageNo
  · subst hr
    simp [pairs, createNode]
  · simp [pairs, createNode, hr]

@[simp] theorem parentOf_createNode :
    f.createNode.1.parentOf = Function.update f.parentOf f.nextPageNo 0 := by
  funext r
  by_cases hr : r = f.nextPageNo
  · subst hr
    simp [parentOf, createNode]
  · simp [parentOf, createNode, hr]

@[simp] theorem leafOf_createNode :
    f.createNode.1.leafOf = Function.update f.leafOf f.nextPageNo false := by
  funext r
  by_cases hr : r = f.nextPageNo
  · subst hr
    simp [leafOf, createNode]
  · simp [leafOf, createNode, hr]

@[simp] theorem createNode_snd : f.createNode.2 = f.nextPageNo := rfl
@[simp] theorem rootPage_createNode : f.createNode.1.rootPage = f.rootPage := rfl
@[simp] theorem nextPageNo_createNode : f.createNode.1.nextPageNo = f.nextPageNo + 1 := rfl

/-- The children of an inner page. -/
def kids (p : ℤ) : List ℤ := (f.pairs p).map fun e => e.2.pageNo

@[simp] theorem rootPage_setParentPageNo : (f.setParentPageNo p q).rootPage = f.rootPage := rfl
@[simp] theorem nextPageNo_setParentPageNo : (f.setParentPageNo p q).nextPageNo =
    f.nextPageNo := rfl

/-- The loop that gives children a new parent. -/
theorem foldl_setParentPageNo (node : ℤ) (l : List (K × Rid)) (f : IxIndexHandle K) :
    (l.foldl (fun f e => f.setParentPageNo e.2.pageNo node) f).pairs = f.pairs ∧
    (l.foldl (fun f e => f.setParentPageNo e.2.pageNo node) f).leafOf = f.leafOf ∧
    (l.foldl (fun f e => f.setParentPageNo e.2.pageNo node) f).rootPage = f.rootPage ∧
    (l.foldl (fun f e => f.setParentPageNo e.2.pageNo node) f).nextPageNo = f.nextPageNo ∧
    (l.foldl (fun f e => f.setParentPageNo e.2.pageNo node) f).parentOf =
      fun q => if q ∈ l.map (fun e => e.2.pageNo) then node else f.parentOf q := by
  induction l generalizing f with
  | nil => simp
  | cons e l ih =>
    obtain ⟨hpairs, hleaf, hroot, hnext, hparent⟩ := ih (f.setParentPageNo e.2.pageNo node)
    rw [List.foldl_cons]
    refine ⟨by rw [hpairs]; simp, by rw [hleaf]; simp, by rw [hroot]; simp, by rw [hnext]; simp, ?_⟩
    rw [hparent]
    funext q
    by_cases hq : q ∈ l.map fun e => e.2.pageNo
    · simp [hq]
    · by_cases hqe : q = e.2.pageNo
      · simp [hqe]
      · simp [hq, hqe]

/-- The loop of `maintain_child` over the pairs from `start` on. -/
theorem maintainChildren_spec (node : ℤ) (start : ℕ) :
    (f.maintainChildren node start).pairs = f.pairs ∧
    (f.maintainChildren node start).leafOf = f.leafOf ∧
    (f.maintainChildren node start).rootPage = f.rootPage ∧
    (f.maintainChildren node start).nextPageNo = f.nextPageNo ∧
    (f.maintainChildren node start).parentOf = fun q =>
      if f.leafOf node = false ∧ q ∈ (f.kids node).drop start then node else f.parentOf q := by
  unfold maintainChildren
  by_cases hleaf : (f.pages node).isLeaf = true
  · have hleafOf : f.leafOf node = true := hleaf
    rw [if_pos hleaf]
    simp [hleafOf]
  · have hleafOf : f.leafOf node = false := (Bool.not_eq_true _).mp hleaf
    rw [if_neg hleaf]
    obtain ⟨hpairs, hleaves, hroot, hnext, hparent⟩ :=
      foldl_setParentPageNo node ((f.pages node).pairs.drop start) f
    refine ⟨hpairs, hleaves, hroot, hnext, hparent.trans ?_⟩
    funext q
    rw [kids, ← List.map_drop]
    simp [hleafOf, pairs]

theorem btreeOrder_maintainChildren (node : ℤ) (start : ℕ) :
    (f.maintainChildren node start).btreeOrder = f.btreeOrder := by
  have hloop (l : List (K × Rid)) (f : IxIndexHandle K) :
      (l.foldl (fun f e => f.setParentPageNo e.2.pageNo node) f).btreeOrder = f.btreeOrder := by
    induction l generalizing f with
    | nil => rfl
    | cons e l ih => exact ih (f.setParentPageNo e.2.pageNo node)
  unfold maintainChildren
  split
  · rfl
  · exact hloop _ f

/-- The views do not see the pointer to the last leaf. -/
theorem pairs_lastLeaf (c : Prop) [Decidable c] (v : ℤ) :
    (if c then { f with lastLeaf := v } else f).pairs = f.pairs := by
  split <;> rfl

theorem leafOf_lastLeaf (c : Prop) [Decidable c] (v : ℤ) :
    (if c then { f with lastLeaf := v } else f).leafOf = f.leafOf := by
  split <;> rfl

theorem parentOf_lastLeaf (c : Prop) [Decidable c] (v : ℤ) :
    (if c then { f with lastLeaf := v } else f).parentOf = f.parentOf := by
  split <;> rfl

theorem rootPage_lastLeaf (c : Prop) [Decidable c] (v : ℤ) :
    (if c then { f with lastLeaf := v } else f).rootPage = f.rootPage := by
  split <;> rfl

theorem nextPageNo_lastLeaf (c : Prop) [Decidable c] (v : ℤ) :
    (if c then { f with lastLeaf := v } else f).nextPageNo = f.nextPageNo := by
  split <;> rfl

end IxIndexHandle

end Rmdb
