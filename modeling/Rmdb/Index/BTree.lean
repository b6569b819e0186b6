import Mathlib.Order.Lattice
import Mathlib.Logic.Function.Basic
import Rmdb.Defs
import Rmdb.Lib.Bisect

/-!
# The B+ tree

`IxNodeHandle` and `IxIndexHandle` (`index/ix_index_handle.{h,cpp}`).  A page holds the links to its
parent and its neighbours and the pairs of keys and record ids; in an inner page the record id names
a child page.  The page cache always returns the latest content of a page, so pages are a function,
and a handle of a node is its page number.

Keys are compared by `compare`, which stands for `ix_compare`, and their bytes by equality.  `none`
is a failed assertion, a read outside the pairs of a page, or a loop that does not end within as
many turns as there are pages.
-/

namespace Rmdb

/-- `IX_NO_PAGE`. -/
def IX_NO_PAGE : ℤ := -1

/-- `IX_LEAF_HEADER_PAGE`. -/
def IX_LEAF_HEADER_PAGE : ℤ := 1

/-- `IX_INIT_ROOT_PAGE`. -/
def IX_INIT_ROOT_PAGE : ℤ := 2

/-- `IX_INIT_NUM_PAGES`. -/
def IX_INIT_NUM_PAGES : ℤ := 3

/-- A page of the tree: what is used of `IxPageHdr`, and the pairs. -/
structure IxNode (K : Type) where
  parent : ℤ
  isLeaf : Bool
  prevLeaf : ℤ
  nextLeaf : ℤ
  pairs : List (K × Rid)
deriving DecidableEq, Repr

/-- An open index: what is used of `IxFileHdr`, the number of the next page of the file, and the
pages. -/
structure IxIndexHandle (K : Type) where
  btreeOrder : ℕ
  rootPage : ℤ
  firstLeaf : ℤ
  lastLeaf : ℤ
  numPages : ℤ
  nextPageNo : ℤ
  pages : ℤ → IxNode K

variable {K : Type} [Ord K] [DecidableEq K]

/-! ## Nodes -/

namespace IxNode

variable (n : IxNode K)

def size : ℕ := n.pairs.length

def keyAt (i : ℕ) : Option K := n.pairs[i]?.map Prod.fst

def valueAt (i : ℕ) : Option ℤ := n.pairs[i]?.map fun e => e.2.pageNo

def lowerBound (target : K) : ℕ := bisect (fun e => (compare e.1 target).isLT) n.pairs

def upperBound (target : K) : ℕ := bisect (fun e => (compare e.1 target).isLE) n.pairs

/-- The key is at the place where `lower_bound` puts it. -/
def hasKey (key : K) : Bool := n.pairs[n.lowerBound key]?.any fun e => (compare e.1 key).isEq

def leafLookup (key : K) : Option Rid :=
  if n.hasKey key then n.pairs[n.lowerBound key]?.map Prod.snd else none

/-- A position before the first pair counts as the first one. -/
def internalLookup (key : K) : Option ℤ := n.valueAt (n.upperBound key - 1)

def insertPairs (maxSize pos : ℕ) (l : List (K × Rid)) : Option (IxNode K) :=
  if pos ≤ n.size ∧ n.size + l.length ≤ maxSize then
    some { n with pairs := n.pairs.take pos ++ l ++ n.pairs.drop pos }
  else none

def insert (maxSize : ℕ) (key : K) (value : Rid) : Option (IxNode K) :=
  if n.hasKey key then some n else n.insertPairs maxSize (n.lowerBound key) [(key, value)]

def erasePair (pos : ℕ) : Option (IxNode K) :=
  if pos < n.size then some { n with pairs := n.pairs.eraseIdx pos } else none

def remove (key : K) : Option (IxNode K) :=
  if n.hasKey key then n.erasePair (n.lowerBound key) else some n

def findChild (child : ℤ) : Option ℕ := n.pairs.findIdx? fun e => decide (e.2.pageNo = child)

/-- `set_key`; the position is one of a pair. -/
def setKey (i : ℕ) (key : K) : IxNode K :=
  { n with pairs := n.pairs.modify i fun e => (key, e.2) }

end IxNode

/-! ## Pages -/

namespace IxIndexHandle

variable (f : IxIndexHandle K)

def maxSize : ℕ := f.btreeOrder + 1

def minSize : ℕ := f.maxSize / 2

/-- More turns than the tree has levels. -/
def fuel : ℕ := f.nextPageNo.toNat

def setNode (p : ℤ) (n : IxNode K) : IxIndexHandle K :=
  { f with pages := Function.update f.pages p n }

def setParentPageNo (p parent : ℤ) : IxIndexHandle K :=
  f.setNode p { f.pages p with parent := parent }

def setPrevLeaf (p prev : ℤ) : IxIndexHandle K := f.setNode p { f.pages p with prevLeaf := prev }

def setNextLeaf (p next : ℤ) : IxIndexHandle K := f.setNode p { f.pages p with nextLeaf := next }

def setPairs (p : ℤ) (l : List (K × Rid)) : IxIndexHandle K :=
  f.setNode p { f.pages p with pairs := l }

def isRootPage (p : ℤ) : Bool := decide ((f.pages p).parent = INVALID_PAGE_ID)

/-- A new page is filled with zeros. -/
def createNode : IxIndexHandle K × ℤ :=
  ({ f with
      numPages := f.numPages + 1
      nextPageNo := f.nextPageNo + 1
      pages := Function.update f.pages f.nextPageNo ⟨0, false, 0, 0, []⟩ }, f.nextPageNo)

/-- `maintain_child`. -/
def maintainChild (node : ℤ) (childIdx : ℕ) : Option (IxIndexHandle K) :=
  if (f.pages node).isLeaf then some f
  else do
    let child ← (f.pages node).valueAt childIdx
    return f.setParentPageNo child node

/-- The loop over `maintain_child` from the pair `start` on. -/
def maintainChildren (node : ℤ) (start : ℕ) : IxIndexHandle K :=
  if (f.pages node).isLeaf then f
  else ((f.pages node).pairs.drop start).foldl (fun f e => f.setParentPageNo e.2.pageNo node) f

/-! ## Search -/

/-- The loop of `find_leaf_page`. -/
def descend (key : K) : ℕ → ℤ → Option ℤ
  | 0, _ => none
  | fuel + 1, node =>
    if (f.pages node).isLeaf then some node
    else do
      let child ← (f.pages node).internalLookup key
      descend key fuel child

/-- `find_leaf_page`; no page at all is a null pointer. -/
def findLeafPage (key : K) : Option (Option ℤ) :=
  if f.rootPage = IX_NO_PAGE then some none else (f.descend key f.fuel f.rootPage).map some

/-- `get_value`: the record id that is found. -/
def getValue (key : K) : Option (Option Rid) := do
  match ← f.findLeafPage key with
  | none => return none
  | some leaf => return (f.pages leaf).leafLookup key

/-! ## Separators -/

/-- `maintain_parent`. -/
def maintainParentLoop : ℕ → IxIndexHandle K → ℤ → Option (IxIndexHandle K)
  | 0, _, _ => none
  | fuel + 1, f, curr => do
    let parent := (f.pages curr).parent
    if parent = IX_NO_PAGE then return f
    let rank ← (f.pages parent).findChild curr
    let parentKey ← (f.pages parent).keyAt rank
    let childFirstKey ← (f.pages curr).keyAt 0
    if parentKey = childFirstKey then return f
    maintainParentLoop fuel (f.setNode parent ((f.pages parent).setKey rank childFirstKey)) parent

def maintainParent (node : ℤ) : Option (IxIndexHandle K) := maintainParentLoop f.fuel f node

/-! ## Insertion -/

def split (node : ℤ) : Option (IxIndexHandle K × ℤ) := do
  let n := f.pages node
  let (f, newNode) := f.createNode
  let moveStart := n.size / 2
  let new ← IxNode.insertPairs ⟨n.parent, n.isLeaf, 0, 0, []⟩ f.maxSize 0 (n.pairs.drop moveStart)
  let f := f.setNode newNode new
  let f := f.setPairs node (n.pairs.take moveStart)
  if n.isLeaf then
    let f := f.setPrevLeaf newNode node
    let f := f.setNextLeaf newNode n.nextLeaf
    let f := f.setPrevLeaf n.nextLeaf newNode
    let f := f.setNextLeaf node newNode
    return (if f.lastLeaf = node then { f with lastLeaf := newNode } else f, newNode)
  else
    let f := f.setPrevLeaf newNode IX_NO_PAGE
    let f := f.setNextLeaf newNode IX_NO_PAGE
    return (f.maintainChildren newNode 0, newNode)

/-- The new root of `insert_into_parent`. -/
def newRoot (oldNode newNode : ℤ) : Option (IxIndexHandle K) := do
  let (f, root) := f.createNode
  let f := f.setParentPageNo oldNode root
  let f := f.setParentPageNo newNode root
  let oldKey ← (f.pages oldNode).keyAt 0
  let newKey ← (f.pages newNode).keyAt 0
  let n ← IxNode.insertPairs ⟨IX_NO_PAGE, false, IX_NO_PAGE, IX_NO_PAGE, []⟩ f.maxSize 0
    [(oldKey, ⟨oldNode, -1⟩)]
  let n ← n.insertPairs f.maxSize 1 [(newKey, ⟨newNode, -1⟩)]
  return { f.setNode root n with rootPage := root }

def insertIntoParent : ℕ → IxIndexHandle K → ℤ → K → ℤ → Option (IxIndexHandle K)
  | 0, _, _, _, _ => none
  | fuel + 1, f, oldNode, key, newNode =>
    if f.isRootPage oldNode then f.newRoot oldNode newNode
    else do
      let parent := (f.pages oldNode).parent
      let n ← (f.pages parent).insert f.maxSize key ⟨newNode, -1⟩
      let f := f.setNode parent n
      if f.maxSize ≤ n.size then
        let (f, newParent) ← f.split parent
        let newKey ← (f.pages newParent).keyAt 0
        insertIntoParent fuel f parent newKey newParent
      else return f

/-- `insert_entry`, with the page that it returns. -/
def insertEntry (key : K) (value : Rid) : Option (IxIndexHandle K × ℤ) := do
  match ← f.findLeafPage key with
  | none => none
  | some leaf =>
    let n ← (f.pages leaf).insert f.maxSize key value
    if n.size = (f.pages leaf).size then return (f, IX_NO_PAGE)
    let f := f.setNode leaf n
    if f.maxSize ≤ n.size then
      let (f, newLeaf) ← f.split leaf
      let newKey ← (f.pages newLeaf).keyAt 0
      let f ← insertIntoParent f.fuel f leaf newKey newLeaf
      let newKey ← (f.pages newLeaf).keyAt 0
      return (f, if (compare key newKey).isGE then newLeaf else leaf)
    else
      let f ← f.maintainParent leaf
      return (f, leaf)

/-! ## Deletion -/

def adjustRoot (oldRootNode : ℤ) : Option (IxIndexHandle K × Bool) := do
  let n := f.pages oldRootNode
  if !n.isLeaf && n.size = 1 then
    let child ← n.valueAt 0
    let n ← n.erasePair 0
    let f := f.setNode oldRootNode n
    let f := f.setParentPageNo child IX_NO_PAGE
    return ({ f with rootPage := child }, true)
  else if n.isLeaf && n.size = 0 then return ({ f with rootPage := oldRootNode }, false)
  else return (f, false)

def redistribute (neighborNode node parent : ℤ) (index : ℕ) : Option (IxIndexHandle K) := do
  let f ← if index = 0 then do
      let e ← (f.pages neighborNode).pairs[0]?
      let n ← (f.pages node).insertPairs f.maxSize (f.pages node).size [e]
      let n' ← (f.pages neighborNode).erasePair 0
      let f := (f.setNode node n).setNode neighborNode n'
      f.maintainChild node (n.size - 1)
    else do
      let e ← (f.pages neighborNode).pairs[(f.pages neighborNode).size - 1]?
      let n ← (f.pages node).insertPairs f.maxSize 0 [e]
      let n' ← (f.pages neighborNode).erasePair ((f.pages neighborNode).size - 1)
      let f := (f.setNode node n).setNode neighborNode n'
      f.maintainChild node 0
  let i ← (f.pages parent).findChild node
  let key ← (f.pages node).keyAt 0
  let f := f.setNode parent ((f.pages parent).setKey i key)
  let j ← (f.pages parent).findChild neighborNode
  let key ← (f.pages neighborNode).keyAt 0
  let f := f.setNode parent ((f.pages parent).setKey j key)
  f.maintainParent parent

/-- `coalesce`; `next` is the call of `coalesce_or_redistribute` at its end. -/
def coalesce (next : IxIndexHandle K → ℤ → Option (IxIndexHandle K × Bool))
    (neighborNode node parent : ℤ) (index : ℕ) : Option (IxIndexHandle K × Bool) := do
  let left := if index = 0 then node else neighborNode
  let right := if index = 0 then neighborNode else node
  let oldLeftSize := (f.pages left).size
  let n ← (f.pages left).insertPairs f.maxSize oldLeftSize (f.pages right).pairs
  let f := f.setNode left n
  let f := f.maintainChildren left oldLeftSize
  let f := if (f.pages right).isLeaf then
      let f := f.setNextLeaf left (f.pages right).nextLeaf
      let f := f.setPrevLeaf (f.pages right).nextLeaf left
      if f.lastLeaf = right then { f with lastLeaf := left } else f
    else f
  let rightIndex ← (f.pages parent).findChild right
  let n ← (f.pages parent).erasePair rightIndex
  let f := f.setNode parent n
  next { f with numPages := f.numPages - 1 } parent

def coalesceOrRedistribute : ℕ → IxIndexHandle K → ℤ → Option (IxIndexHandle K × Bool)
  | 0, _, _ => none
  | fuel + 1, f, node =>
    if f.isRootPage node then f.adjustRoot node
    else if f.minSize ≤ (f.pages node).size then (f.maintainParent node).map fun f => (f, false)
    else do
      let parent := (f.pages node).parent
      let index ← (f.pages parent).findChild node
      let neighborIndex := if index = 0 then 1 else index - 1
      let neighbor ← (f.pages parent).valueAt neighborIndex
      if f.minSize * 2 ≤ (f.pages node).size + (f.pages neighbor).size then
        (f.redistribute neighbor node parent index).map fun f => (f, false)
      else f.coalesce (coalesceOrRedistribute fuel) neighbor node parent index

/-- `delete_entry`. -/
def deleteEntry (key : K) : Option (IxIndexHandle K × Bool) := do
  match ← f.findLeafPage key with
  | none => return (f, false)
  | some leaf =>
    let n ← (f.pages leaf).remove key
    if n.size = (f.pages leaf).size then return (f, false)
    let (f, _) ← coalesceOrRedistribute f.fuel (f.setNode leaf n) leaf
    return (f, true)

end IxIndexHandle

/-- The index that `create_index` leaves and `open_index` opens. -/
def createIndex (K : Type) (btreeOrder : ℕ) : IxIndexHandle K where
  btreeOrder := btreeOrder
  rootPage := IX_INIT_ROOT_PAGE
  firstLeaf := IX_INIT_ROOT_PAGE
  lastLeaf := IX_INIT_ROOT_PAGE
  numPages := IX_INIT_NUM_PAGES
  nextPageNo := IX_INIT_NUM_PAGES
  pages := fun p =>
    if p = IX_LEAF_HEADER_PAGE then ⟨IX_NO_PAGE, true, IX_INIT_ROOT_PAGE, IX_INIT_ROOT_PAGE, []⟩
    else if p = IX_INIT_ROOT_PAGE then
      ⟨IX_NO_PAGE, true, IX_LEAF_HEADER_PAGE, IX_LEAF_HEADER_PAGE, []⟩
    else ⟨0, false, 0, 0, []⟩

end Rmdb
