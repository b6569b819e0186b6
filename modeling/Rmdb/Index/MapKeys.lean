import Rmdb.Index.BTree

/-!
# Indexes over other keys

An index does nothing with its keys but to compare them.  A map of keys that keeps their comparison
commutes with every operation, so what holds of an index over a linear order of keys holds of one
over the bytes of these keys.
-/

namespace Rmdb

variable {K K' : Type} {g : K → K'}

/-- A map that keeps the comparison of keys and tells them apart. -/
structure KeyEmbedding [Ord K] [Ord K'] (g : K → K') : Prop where
  compare_eq : ∀ a b, compare (g a) (g b) = compare a b
  injective : Function.Injective g

/-- The pairs with their keys mapped. -/
def mapPairs (g : K → K') (l : List (K × Rid)) : List (K' × Rid) := l.map fun e => (g e.1, e.2)

@[simp] theorem length_mapPairs (l : List (K × Rid)) : (mapPairs g l).length = l.length :=
  List.length_map _

@[simp] theorem getElem?_mapPairs (l : List (K × Rid)) (i : ℕ) :
    (mapPairs g l)[i]? = l[i]?.map fun e => (g e.1, e.2) := List.getElem?_map

theorem take_mapPairs (l : List (K × Rid)) (i : ℕ) :
    (mapPairs g l).take i = mapPairs g (l.take i) :=
  List.map_take.symm

theorem drop_mapPairs (l : List (K × Rid)) (i : ℕ) :
    (mapPairs g l).drop i = mapPairs g (l.drop i) :=
  List.map_drop.symm

/-! ## Nodes -/

namespace IxNode

def mapKeys (g : K → K') (n : IxNode K) : IxNode K' where
  parent := n.parent
  isLeaf := n.isLeaf
  prevLeaf := n.prevLeaf
  nextLeaf := n.nextLeaf
  pairs := mapPairs g n.pairs

variable (n : IxNode K) (key : K) (value : Rid) (maxSize pos : ℕ) (l : List (K × Rid))

@[simp] theorem pairs_mapKeys : (n.mapKeys g).pairs = mapPairs g n.pairs := rfl

@[simp] theorem parent_mapKeys : (n.mapKeys g).parent = n.parent := rfl

@[simp] theorem isLeaf_mapKeys : (n.mapKeys g).isLeaf = n.isLeaf := rfl

@[simp] theorem prevLeaf_mapKeys : (n.mapKeys g).prevLeaf = n.prevLeaf := rfl

@[simp] theorem nextLeaf_mapKeys : (n.mapKeys g).nextLeaf = n.nextLeaf := rfl

@[simp] theorem size_mapKeys : (n.mapKeys g).size = n.size := length_mapPairs n.pairs

@[simp] theorem keyAt_mapKeys (i : ℕ) : (n.mapKeys g).keyAt i = (n.keyAt i).map g := by
  simp [keyAt, Function.comp_def]

@[simp] theorem valueAt_mapKeys (i : ℕ) : (n.mapKeys g).valueAt i = n.valueAt i := by
  simp [valueAt, Function.comp_def]

@[simp] theorem findChild_mapKeys (child : ℤ) :
    (n.mapKeys g).findChild child = n.findChild child := by
  simp [findChild, mapPairs, Function.comp_def]

@[simp] theorem insertPairs_mapKeys :
    (n.mapKeys g).insertPairs maxSize pos (mapPairs g l) = (n.insertPairs maxSize pos l).map
    (mapKeys g) := by
  rw [insertPairs, insertPairs, size_mapKeys, length_mapPairs]
  split
  · simp [mapKeys, mapPairs]
  · rfl

/-- The pairs of a new page. -/
theorem insertPairs_mapPairs (parent prevLeaf nextLeaf : ℤ) (isLeaf : Bool) :
    insertPairs ⟨parent, isLeaf, prevLeaf, nextLeaf, []⟩ maxSize pos (mapPairs g l) =
      (insertPairs ⟨parent, isLeaf, prevLeaf, nextLeaf, []⟩ maxSize pos l).map (mapKeys g) :=
  insertPairs_mapKeys ⟨parent, isLeaf, prevLeaf, nextLeaf, []⟩ maxSize pos l

@[simp] theorem setKey_mapKeys (i : ℕ) :
    (n.mapKeys g).setKey i (g key) = (n.setKey i key).mapKeys g := by
  have hpairs : (mapPairs g n.pairs).modify i (fun e => (g key, e.2)) =
      mapPairs g (n.pairs.modify i fun e => (key, e.2)) := by
    refine List.ext_getElem? fun j => ?_
    rw [getElem?_mapPairs, List.getElem?_modify, List.getElem?_modify, getElem?_mapPairs]
    cases n.pairs[j]? with
    | none => rfl
    | some e =>
      by_cases hj : i = j
      · simp [hj]
      · simp [hj]
  rw [setKey, pairs_mapKeys, hpairs]
  rfl

section Search

variable [Ord K] [Ord K'] (hg : KeyEmbedding g)

include hg

theorem lowerBound_mapKeys : (n.mapKeys g).lowerBound (g key) = n.lowerBound key := by
  simp only [lowerBound, pairs_mapKeys, mapPairs, bisect_map, hg.compare_eq]

theorem upperBound_mapKeys : (n.mapKeys g).upperBound (g key) = n.upperBound key := by
  simp only [upperBound, pairs_mapKeys, mapPairs, bisect_map, hg.compare_eq]

theorem hasKey_mapKeys : (n.mapKeys g).hasKey (g key) = n.hasKey key := by
  simp only [hasKey, lowerBound_mapKeys n key hg, pairs_mapKeys, getElem?_mapPairs, Option.any_map,
    hg.compare_eq]

theorem leafLookup_mapKeys : (n.mapKeys g).leafLookup (g key) = n.leafLookup key := by
  simp [leafLookup, hasKey_mapKeys n key hg, lowerBound_mapKeys n key hg, Function.comp_def]

theorem internalLookup_mapKeys : (n.mapKeys g).internalLookup (g key) = n.internalLookup key := by
  rw [internalLookup, upperBound_mapKeys n key hg, valueAt_mapKeys, internalLookup]

theorem insert_mapKeys :
    (n.mapKeys g).insert maxSize (g key) value = (n.insert maxSize key value).map (mapKeys g) := by
  rw [insert, insert, hasKey_mapKeys n key hg, lowerBound_mapKeys n key hg]
  split
  · rfl
  · exact insertPairs_mapKeys n maxSize _ [(key, value)]

end Search

end IxNode

/-! ## Pages -/

namespace IxIndexHandle

def mapKeys (g : K → K') (f : IxIndexHandle K) : IxIndexHandle K' where
  btreeOrder := f.btreeOrder
  rootPage := f.rootPage
  firstLeaf := f.firstLeaf
  lastLeaf := f.lastLeaf
  numPages := f.numPages
  nextPageNo := f.nextPageNo
  pages := fun p => (f.pages p).mapKeys g

section Pages

variable (f : IxIndexHandle K) (p q node : ℤ) (n : IxNode K) (l : List (K × Rid)) (start : ℕ)

@[simp] theorem pages_mapKeys : (f.mapKeys g).pages p = (f.pages p).mapKeys g := rfl

@[simp] theorem rootPage_mapKeys : (f.mapKeys g).rootPage = f.rootPage := rfl

@[simp] theorem lastLeaf_mapKeys : (f.mapKeys g).lastLeaf = f.lastLeaf := rfl

@[simp] theorem nextPageNo_mapKeys : (f.mapKeys g).nextPageNo = f.nextPageNo := rfl

@[simp] theorem maxSize_mapKeys : (f.mapKeys g).maxSize = f.maxSize := rfl

@[simp] theorem fuel_mapKeys : (f.mapKeys g).fuel = f.fuel := rfl

@[simp] theorem isRootPage_mapKeys : (f.mapKeys g).isRootPage p = f.isRootPage p := rfl

@[simp] theorem setNode_mapKeys :
    (f.mapKeys g).setNode p (n.mapKeys g) = (f.setNode p n).mapKeys g := by
  have hpages : Function.update (f.mapKeys g).pages p (n.mapKeys g) =
      fun q => (Function.update f.pages p n q).mapKeys g := by
    funext q
    by_cases hq : q = p
    · rw [hq, Function.update_self, Function.update_self]
    · rw [Function.update_of_ne hq, Function.update_of_ne hq, pages_mapKeys]
  rw [setNode, hpages]
  rfl

@[simp] theorem setParentPageNo_mapKeys :
    (f.mapKeys g).setParentPageNo p q = (f.setParentPageNo p q).mapKeys g :=
  setNode_mapKeys f p { f.pages p with parent := q }

@[simp] theorem setPrevLeaf_mapKeys :
    (f.mapKeys g).setPrevLeaf p q = (f.setPrevLeaf p q).mapKeys g :=
  setNode_mapKeys f p { f.pages p with prevLeaf := q }

@[simp] theorem setNextLeaf_mapKeys :
    (f.mapKeys g).setNextLeaf p q = (f.setNextLeaf p q).mapKeys g :=
  setNode_mapKeys f p { f.pages p with nextLeaf := q }

@[simp] theorem setPairs_mapKeys :
    (f.mapKeys g).setPairs p (mapPairs g l) = (f.setPairs p l).mapKeys g :=
  setNode_mapKeys f p { f.pages p with pairs := l }

@[simp] theorem createNode_mapKeys :
    (f.mapKeys g).createNode = (f.createNode.1.mapKeys g, f.createNode.2) := by
  have hpages := congrArg pages (setNode_mapKeys (g := g) f f.nextPageNo ⟨0, false, 0, 0, []⟩)
  rw [createNode]
  refine Prod.ext ?_ rfl
  exact congrArg (IxIndexHandle.mk f.btreeOrder f.rootPage f.firstLeaf f.lastLeaf (f.numPages + 1)
    (f.nextPageNo + 1)) hpages

@[simp] theorem maintainChildren_mapKeys :
    (f.mapKeys g).maintainChildren node start = (f.maintainChildren node start).mapKeys g := by
  have hloop (l : List (K × Rid)) (f : IxIndexHandle K) :
      (mapPairs g l).foldl (fun f e => f.setParentPageNo e.2.pageNo node) (f.mapKeys g) =
        (l.foldl (fun f e => f.setParentPageNo e.2.pageNo node) f).mapKeys g := by
    induction l generalizing f with
    | nil => rfl
    | cons e l ih =>
      rw [mapPairs, List.map_cons, List.foldl_cons, setParentPageNo_mapKeys]
      exact ih _
  rw [maintainChildren, maintainChildren, pages_mapKeys, IxNode.isLeaf_mapKeys]
  split
  · rfl
  · rw [IxNode.pairs_mapKeys, mapPairs, ← List.map_drop]
    exact hloop _ f

end Pages

section Calls

variable [Ord K] [DecidableEq K] [Ord K'] [DecidableEq K'] (hg : KeyEmbedding g)
  (f : IxIndexHandle K) (key : K) (value : Rid) (p node old new : ℤ) (fuel : ℕ)

include hg

omit [DecidableEq K] [DecidableEq K'] in
theorem descend_mapKeys : (f.mapKeys g).descend (g key) fuel p = f.descend key fuel p := by
  induction fuel generalizing p with
  | zero => rfl
  | succ fuel ih =>
    simp only [descend, pages_mapKeys, IxNode.isLeaf_mapKeys,
      IxNode.internalLookup_mapKeys _ key hg, ih]

omit [DecidableEq K] [DecidableEq K'] in
theorem findLeafPage_mapKeys : (f.mapKeys g).findLeafPage (g key) = f.findLeafPage key := by
  simp only [findLeafPage, rootPage_mapKeys, fuel_mapKeys, descend_mapKeys hg]

omit [DecidableEq K] [DecidableEq K'] in
theorem getValue_mapKeys : (f.mapKeys g).getValue (g key) = f.getValue key := by
  simp only [getValue, findLeafPage_mapKeys hg, pages_mapKeys, IxNode.leafLookup_mapKeys _ key hg]

theorem maintainParentLoop_mapKeys :
    maintainParentLoop fuel (f.mapKeys g) p = (maintainParentLoop fuel f p).map (mapKeys g) := by
  induction fuel generalizing f p with
  | zero => rfl
  | succ fuel ih =>
    simp only [maintainParentLoop, pages_mapKeys, IxNode.parent_mapKeys, IxNode.findChild_mapKeys,
      IxNode.keyAt_mapKeys, Option.bind_eq_bind, Option.bind_map, Function.comp_def,
        hg.injective.eq_iff,
      IxNode.setKey_mapKeys, setNode_mapKeys, ih]
    split
    · rfl
    · simp only [Option.map_bind, Function.comp_def]
      refine Option.bind_congr fun rank _ => Option.bind_congr fun parentKey _ =>
        Option.bind_congr fun childFirstKey _ => ?_
      split
      · rfl
      · rfl

omit [Ord K] [DecidableEq K] [Ord K'] [DecidableEq K'] hg in
theorem split_mapKeys : (f.mapKeys g).split p = (f.split p).map fun r => (r.1.mapKeys g, r.2) := by
  simp only [split, pages_mapKeys, createNode_mapKeys, IxNode.pairs_mapKeys, IxNode.size_mapKeys,
    IxNode.parent_mapKeys, IxNode.isLeaf_mapKeys, IxNode.nextLeaf_mapKeys, maxSize_mapKeys,
      take_mapPairs,
    drop_mapPairs, IxNode.insertPairs_mapPairs, Option.bind_eq_bind, Option.bind_map,
      Option.map_bind,
    Function.comp_def, setNode_mapKeys, setPairs_mapKeys, setPrevLeaf_mapKeys, setNextLeaf_mapKeys,
    maintainChildren_mapKeys, lastLeaf_mapKeys]
  refine Option.bind_congr fun new _ => ?_
  split
  · split
    · rfl
    · rfl
  · rfl

omit [Ord K] [DecidableEq K] [Ord K'] [DecidableEq K'] hg in
theorem newRoot_mapKeys : (f.mapKeys g).newRoot old new = (f.newRoot old new).map (mapKeys g) := by
  have hpair (k : K) (p : ℤ) : [(g k, (⟨p, -1⟩ : Rid))] = mapPairs g [(k, ⟨p, -1⟩)] := rfl
  simp only [newRoot, createNode_mapKeys, setParentPageNo_mapKeys, pages_mapKeys,
    IxNode.keyAt_mapKeys,
    maxSize_mapKeys, Option.bind_eq_bind, Option.bind_map, Option.map_bind,
      Function.comp_def, hpair,
    IxNode.insertPairs_mapPairs, IxNode.insertPairs_mapKeys, setNode_mapKeys]
  rfl

omit [DecidableEq K] [DecidableEq K'] in
theorem insertIntoParent_mapKeys : insertIntoParent fuel (f.mapKeys g) old (g key) new =
    (insertIntoParent fuel f old key new).map (mapKeys g) := by
  induction fuel generalizing f old key new with
  | zero => rfl
  | succ fuel ih =>
    simp only [insertIntoParent, isRootPage_mapKeys, newRoot_mapKeys, pages_mapKeys,
      IxNode.parent_mapKeys,
      IxNode.insert_mapKeys _ _ _ _ hg, maxSize_mapKeys, Option.bind_eq_bind, Option.bind_map,
        Function.comp_def,
      IxNode.size_mapKeys, setNode_mapKeys, split_mapKeys, IxNode.keyAt_mapKeys, ih]
    split
    · rfl
    · simp only [Option.map_bind, Function.comp_def]
      refine Option.bind_congr fun n _ => ?_
      split
      · simp only [Option.map_bind, Function.comp_def]
      · rfl

theorem insertEntry_mapKeys : (f.mapKeys g).insertEntry (g key) value =
    (f.insertEntry key value).map fun r => (r.1.mapKeys g, r.2) := by
  simp only [insertEntry, findLeafPage_mapKeys hg, pages_mapKeys, IxNode.insert_mapKeys _ _ _ _ hg,
    maxSize_mapKeys,
    Option.bind_eq_bind, Option.bind_map, Function.comp_def, IxNode.size_mapKeys, setNode_mapKeys,
      split_mapKeys,
    IxNode.keyAt_mapKeys, insertIntoParent_mapKeys hg, fuel_mapKeys, maintainParent,
      maintainParentLoop_mapKeys hg,
    Option.map_bind, hg.compare_eq]
  refine Option.bind_congr fun leaf _ => ?_
  cases leaf with
  | none => rfl
  | some leaf =>
    simp only [Option.map_bind, Function.comp_def]
    refine Option.bind_congr fun n _ => ?_
    split
    · rfl
    · split
      · simp only [Option.map_bind, Function.comp_def]
        rfl
      · simp only [Option.map_bind, Function.comp_def]
        rfl

end Calls

end IxIndexHandle

/-- A new index has no keys. -/
theorem createIndex_mapKeys (g : K → K') (btreeOrder : ℕ) :
    (createIndex K btreeOrder).mapKeys g = createIndex K' btreeOrder := by
  refine congrArg (IxIndexHandle.mk _ _ _ _ _ _) ?_
  funext p
  rw [createIndex]
  dsimp only
  split
  · rfl
  · split
    · rfl
    · rfl

end Rmdb
