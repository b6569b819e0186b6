import Rmdb.Index.Links
import Rmdb.Lib.Run

/-!
# Page numbers of an index

`create_node` takes its page number from the counter of the disk manager, which starts at the
`num_pages_` of the header when the index is opened.  The header counts pages down when nodes are
merged and the counter does not, so that after a merge the counter goes back at the next opening.
As long as it stays above every page in use, new pages are new.
-/

namespace Rmdb

variable {K : Type}

namespace IxIndexHandle

/-- The next page number is that of no page in use, of the leaf header or of the file header. -/
def Fresh (f : IxIndexHandle K) : Prop :=
  ¬ f.Reach f.nextPageNo ∧ f.nextPageNo ≠ IX_LEAF_HEADER_PAGE ∧ f.nextPageNo ≠ 0

theorem Closed.fresh {f : IxIndexHandle K} {T : Set ℤ} {ht : ℤ → ℕ} (h : f.Closed T ht) :
    f.Fresh := by
  have hroot := h.bound _ h.root
  refine ⟨fun hreach => ?_, ?_, by omega⟩
  · have hlt := (h.bound _ (h.mem_of_reach hreach)).2
    omega
  · rw [IX_LEAF_HEADER_PAGE]
    omega

theorem IsTree.fresh {f : IxIndexHandle K} (h : f.IsTree) : f.Fresh := by
  obtain ⟨-, T, ht, hclosed⟩ := h
  exact hclosed.fresh

/-- An insertion into a page changes only its pairs. -/
theorem insert_fields [Ord K] {n n' : IxNode K} {maxSize : ℕ} {key : K} {value : Rid}
    (h : n.insert maxSize key value = some n') : n'.parent = n.parent ∧ n'.isLeaf = n.isLeaf := by
  unfold IxNode.insert at h
  split at h
  · cases h
    exact ⟨rfl, rfl⟩
  · rw [insertPairs_eq h]
    exact ⟨rfl, rfl⟩

variable [LinearOrder K]

/-! ## Calls of `create_node` -/

/-- The handles at the calls of `create_node` in `insert_entry`. -/
def createCalls (f : IxIndexHandle K) (key : K) (value : Rid) : List (IxIndexHandle K) :=
  match f.findLeafPage key with
  | some (some leaf) =>
    match (f.pages leaf).insert f.maxSize key value with
    | none => []
    | some n =>
      if n.size = (f.pages leaf).size then []
      else
        let f := f.setNode leaf n
        if f.maxSize ≤ n.size then
          f :: match f.split leaf with
            | none => []
            | some (f, newLeaf) =>
              match (f.pages newLeaf).keyAt 0 with
              | none => []
              | some newKey => insertIntoParentCalls f.fuel f leaf newKey newLeaf
        else []
  | _ => []

/-- Insertion keeps the tree of pages, and finds it whenever it makes a new page. -/
theorem IsTree.insertEntry {f : IxIndexHandle K} {key : K} {value : Rid} (h : f.IsTree) :
    (∀ g ∈ f.createCalls key value, g.IsTree) ∧
      ∀ f' r, f.insertEntry key value = some (f', r) → f'.IsTree := by
  have ⟨hroot, T, ht, hclosed⟩ := h
  unfold createCalls IxIndexHandle.insertEntry
  simp only [Option.bind_eq_bind]
  cases hfind : f.findLeafPage key with
  | none => simp
  | some leaf? =>
    cases leaf? with
    | none => simp
    | some leaf =>
      obtain ⟨hreach, hleaf⟩ := reach_of_findLeafPage hfind
      have hmem := hclosed.mem_of_reach hreach
      simp only [Option.bind_some]
      cases hn : (f.pages leaf).insert f.maxSize key value with
      | none => simp
      | some n =>
        obtain ⟨hnparent, hnleaf⟩ := insert_fields hn
        have hs := sameLinks_setNode_leaf hleaf hnparent hnleaf
        have hroot₁ := (hs.isTree h).1
        have hclosed₁ := hs.closed hclosed
        simp only [Option.bind_some]
        split
        · refine ⟨by simp, fun f' r hf' => ?_⟩
          cases hf'
          exact h
        · split
          · cases hsplit : (f.setNode leaf n).split leaf with
            | none =>
              refine ⟨fun g hg => ?_, by simp⟩
              rw [List.mem_singleton.1 hg]
              exact hs.isTree h
            | some r =>
              obtain ⟨f₂, newLeaf⟩ := r
              obtain ⟨rfl, hsplits⟩ := split_spec (hclosed₁.bound _ hmem).2.ne hsplit
              have hsplitting := hclosed₁.split hroot₁ hmem hsplits
              simp only [Option.bind_some]
              cases hkey : (f₂.pages (f.setNode leaf n).nextPageNo).keyAt 0 with
              | none =>
                refine ⟨fun g hg => ?_, by simp⟩
                rw [List.mem_singleton.1 hg]
                exact hs.isTree h
              | some newKey =>
                obtain ⟨hcalls, hresult⟩ := hsplitting.insertIntoParent f₂.fuel newKey
                refine ⟨fun g hg => ?_, fun f' r hf' => ?_⟩
                · rcases List.mem_cons.1 hg with rfl | hg
                  · exact hs.isTree h
                  · exact hcalls g hg
                · simp only [Option.bind_some, Option.bind_eq_some_iff] at hf'
                  obtain ⟨f₃, hf₃, newKey', -, heq⟩ := hf'
                  cases heq
                  exact hresult f' hf₃
          · refine ⟨by simp, fun f' r hf' => ?_⟩
            obtain ⟨f₂, hf₂, heq⟩ := Option.bind_eq_some_iff.1 hf'
            cases heq
            exact (sameLinks_maintainParentLoop hf₂).isTree (hs.isTree h)

/-! ## Runs -/

end IxIndexHandle

/-- The calls on an index: `reopen` is `close_index` followed by `open_index`. -/
inductive IndexOp (K : Type)
  | insertEntry (key : K) (value : Rid)
  | deleteEntry (key : K)
  | reopen

namespace IxIndexHandle

/-- The page numbers go on from the `num_pages_` of the header. -/
def reopen (f : IxIndexHandle K) : IxIndexHandle K := { f with nextPageNo := f.numPages }

theorem IsTree.reopen {f : IxIndexHandle K} (h : f.IsTree)
    (hpages : ∀ p, f.Reach p → p < f.numPages) : f.reopen.IsTree := by
  obtain ⟨hroot, T, ht, hclosed⟩ := h
  have hreach := (hclosed.reach hroot).1
  exact ⟨hroot, _, ht, hreach.root, fun p hp => ⟨(hreach.bound p hp).1, hpages p hp⟩,
    hreach.leaf, hreach.kid, hreach.nodup, hreach.up⟩

theorem closed_createIndex (btreeOrder : ℕ) :
    (createIndex K btreeOrder).Closed {IX_INIT_ROOT_PAGE} fun _ => 0 := by
  refine ⟨rfl, ?_, ?_, ?_, ?_, ?_⟩
  · rintro p rfl
    exact ⟨le_refl _, Int.lt_succ _⟩
  · rintro p rfl
    rfl
  · rintro p rfl hleaf
    cases hleaf
  · rintro p rfl hleaf
    cases hleaf
  · rintro p rfl hparent
    exact absurd rfl hparent

theorem isTree_createIndex (btreeOrder : ℕ) : (createIndex K btreeOrder).IsTree :=
  ⟨rfl, _, _, closed_createIndex btreeOrder⟩

variable [LinearOrder K]

def apply (f : IxIndexHandle K) : IndexOp K → Option (IxIndexHandle K)
  | .insertEntry key value => (f.insertEntry key value).map Prod.fst
  | .deleteEntry key => (f.deleteEntry key).map Prod.fst
  | .reopen => some f.reopen

/-- A call on the index. -/
def Step (f : IxIndexHandle K) (op : IndexOp K) (f' : IxIndexHandle K) : Prop :=
  f.apply op = some f'

/-- The index is closed only while `num_pages_` is above every page in use. -/
def ReopensAbove (f : IxIndexHandle K) : IndexOp K → Prop
  | .reopen => ∀ p, f.Reach p → p < f.numPages
  | _ => True

theorem IsTree.step {f f' : IxIndexHandle K} {op : IndexOp K} (h : f.IsTree)
    (hstep : Meeting ReopensAbove Step f op f') : f'.IsTree := by
  obtain ⟨hcond, hstep⟩ := hstep
  cases op with
  | insertEntry key value =>
    obtain ⟨⟨f₁, r⟩, hf₁, rfl⟩ := Option.map_eq_some_iff.1 hstep
    exact h.insertEntry.2 f₁ r hf₁
  | deleteEntry key =>
    obtain ⟨⟨f₁, r⟩, hf₁, rfl⟩ := Option.map_eq_some_iff.1 hstep
    exact h.deleteEntry hf₁
  | reopen =>
    cases hstep
    exact h.reopen hcond

/-- Every page number that `create_node` returns is new: the pages in use, the leaf header and the
file header have other numbers. -/
def NewPagesFresh (f : IxIndexHandle K) : Prop :=
  ∀ key value, ∀ g ∈ f.createCalls key value, g.Fresh

/-- In every run in which the index is closed only while `num_pages_` is above every page in use,
new pages are new. -/
theorem new_pages_fresh_of_reopens_above (btreeOrder : ℕ) (ops : List (IndexOp K))
    (f : IxIndexHandle K)
    (hrun : Run (Meeting ReopensAbove Step) (createIndex K btreeOrder) ops f) :
    f.NewPagesFresh := by
  have htree : f.IsTree :=
    hrun.invariant (P := IsTree) (fun _ _ _ hstep h => h.step hstep) (isTree_createIndex btreeOrder)
  intro key value g hg
  exact (htree.insertEntry.1 g hg).fresh

/-- Keys 1 to 7 fill the pages 2 and 3 under the root 4; the deletions merge page 3 into page 2,
which is the root again. -/
def mergedRoot : List (IndexOp ℕ) :=
  ((List.range 7).map fun i => .insertEntry (i + 1) ⟨1, i⟩) ++ [.deleteEntry 1, .deleteEntry 2]

/-- With the merged page below `num_pages_` the index is closed and opened, which takes the page
numbers back to 4, and filled up again: key 9 splits the root, and the new pages are new. -/
theorem new_pages_fresh_merged_root : ∃ f g : IxIndexHandle ℕ,
    Run (Meeting ReopensAbove Step) (createIndex ℕ 6)
    (mergedRoot ++ [.reopen, .insertEntry 8 ⟨1, 8⟩]) f ∧
      g ∈ f.createCalls 9 ⟨1, 9⟩ ∧ g.nextPageNo = 4 ∧ g.Fresh := by
  obtain ⟨f, hrun, hf⟩ := Run.exists_of_any apply (createIndex ℕ 6) mergedRoot
    (fun f => f.leafOf f.rootPage && decide (f.rootPage = 2 ∧ f.numPages = 4 ∧ f.nextPageNo = 5) &&
      (f.reopen.apply (.insertEntry 8 ⟨1, 8⟩)).any fun f =>
        (f.createCalls 9 ⟨1, 9⟩).any fun g => decide (g.nextPageNo = 4)) (by decide +kernel)
  simp only [Bool.and_eq_true, decide_eq_true_eq] at hf
  obtain ⟨⟨hleaf, hroot, hnum, -⟩, hf⟩ := hf
  obtain ⟨f', hinsert, hf'⟩ := (Option.any_eq_true _ _).1 hf
  obtain ⟨g, hg, hnext⟩ := List.any_eq_true.1 hf'
  -- the root is a leaf, so no other page is reached
  have hreach {p : ℤ} (hp : f.Reach p) : p = f.rootPage := by
    induction hp with
    | root => rfl
    | kid _ hnot _ ih =>
      rw [ih, hleaf] at hnot
      cases hnot
  have habove : f.ReopensAbove .reopen := by
    intro p hp
    rw [hreach hp]
    omega
  have hmerged : Run (Meeting ReopensAbove Step) (createIndex ℕ 6) mergedRoot f :=
    hrun.meeting fun op hop s => by
      simp only [mergedRoot, List.mem_append, List.mem_map, List.mem_cons, List.not_mem_nil,
        or_false] at hop
      obtain ⟨_, -, rfl⟩ | rfl | rfl := hop <;> trivial
  have hstep : Meeting ReopensAbove Step f.reopen (.insertEntry 8 ⟨1, 8⟩) f' := ⟨trivial, hinsert⟩
  have hrun' := hmerged.append (.cons ⟨habove, rfl⟩ (.single hstep))
  exact ⟨f', g, hrun', hg, of_decide_eq_true hnext,
    new_pages_fresh_of_reopens_above 6 _ _ hrun' 9 ⟨1, 9⟩ g hg⟩

/-- Keys 1 to 10 fill the pages 2, 3 and 5 under the root 4; the deletion of 1 merges page 3 into
page 2 and takes 1 from `num_pages_`, which is 5 again when the index is opened. -/
def reusedPage : List (IndexOp ℕ) :=
  ((List.range 10).map fun i => .insertEntry (i + 1) ⟨1, i⟩) ++ [.deleteEntry 1, .reopen] ++
    [.insertEntry 11 ⟨1, 11⟩, .insertEntry 12 ⟨1, 12⟩]

/-- The split of page 5 that key 13 causes gets page 5 as its new page. -/
theorem not_new_pages_fresh :
    ¬ ∀ (ops : List (IndexOp ℕ)) (f : IxIndexHandle ℕ), Run Step (createIndex ℕ 6) ops f →
    f.NewPagesFresh := by
  intro hfresh
  obtain ⟨f, hrun, hf⟩ := Run.exists_of_any apply (createIndex ℕ 6) reusedPage
    (fun f => (f.createCalls 13 ⟨1, 13⟩).any fun g =>
      !g.leafOf g.rootPage && decide (g.nextPageNo ∈ g.kids g.rootPage)) (by decide +kernel)
  obtain ⟨g, hg, hlive⟩ := List.any_eq_true.1 hf
  simp only [Bool.and_eq_true, Bool.not_eq_true', decide_eq_true_eq] at hlive
  exact (hfresh reusedPage f hrun 13 ⟨1, 13⟩ g hg).1 (.kid .root hlive.1 hlive.2)

end IxIndexHandle

end Rmdb
