import Mathlib.Data.Fintype.Card
import Rmdb.Index.Views
import Rmdb.Lib.Separators

/-!
# The invariant of the B+ tree

The pages of an index form a tree of levels whose keys are in order; every page knows its parent and
whether it is a leaf.  `TreeInv` allows for one child whose separator is not up to date, and `Sized`
for one page with too many or too few pairs.
-/

namespace Rmdb

open Levels

variable {K : Type}

/-! ## The invariant -/

/-- The page that a pair of an inner page names. -/
abbrev pageOf : Rid → ℤ := Rid.pageNo

/-- `find_child` finds a child where it is. -/
theorem findChild_append {n : IxNode K} {u v : List (K × Rid)} {e : K × Rid}
    (hpairs : n.pairs = u ++ e :: v)
    (hu : pageOf e.2 ∉ children pageOf u) : n.findChild (pageOf e.2) = some u.length := by
  rw [IxNode.findChild, hpairs, List.findIdx?_eq_some_iff_getElem]
  have hlt : u.length < (u ++ e :: v).length := by simp
  refine ⟨hlt, ?_, fun j hj => ?_⟩
  · rw [List.getElem_append_right (Nat.le_refl _)]
    simp
  · rw [List.getElem_append_left hj]
    have hne : pageOf u[j].2 ≠ pageOf e.2 := fun heq => hu (heq ▸ child_mem (List.getElem_mem hj))
    simpa using hne

variable [LinearOrder K]

/-- The pages are the levels `lev` of a tree of height `h`, in order up to the separators of `x`. -/
structure TreeInv (f : IxIndexHandle K) (h : ℕ) (lev : ℕ → List ℤ) (x : Option ℤ) : Prop where
  shaped : Shaped pageOf f.pairs h lev f.rootPage
  ordered : Ordered pageOf f.pairs h lev x
  rootParent : f.parentOf f.rootPage = IX_NO_PAGE
  parent : ∀ i < h, ∀ q ∈ lev (i + 1), ∀ e ∈ f.pairs q, f.parentOf (pageOf e.2) = q
  leaf : ∀ i ≤ h, ∀ p ∈ lev i, f.leafOf p = decide (i = 0)
  pageNo : ∀ i ≤ h, ∀ p ∈ lev i, 0 ≤ p ∧ p < f.nextPageNo

/-- The number of pairs of a page of level `i`. -/
structure PageSize (maxSize h i n : ℕ) : Prop where
  lt : n < maxSize
  min : i < h → maxSize / 2 ≤ n
  two : 0 < i → 2 ≤ n

/-- The pages are neither too full nor too empty, up to the page `x`. -/
def Sized (f : IxIndexHandle K) (h : ℕ) (lev : ℕ → List ℤ) (x : Option ℤ) : Prop :=
  ∀ i ≤ h, ∀ p ∈ lev i, some p ≠ x → PageSize f.maxSize h i (f.pairs p).length

section Pages

variable {f f' : IxIndexHandle K} {h i : ℕ} {lev : ℕ → List ℤ} {x x' : Option ℤ} {p q : ℤ}

/-- Where a page below the root hangs. -/
structure Hangs (f : IxIndexHandle K) (lev : ℕ → List ℤ) (i : ℕ) (p q : ℤ) (A B : List ℤ)
    (u : List (K × Rid)) (e : K × Rid) (v : List (K × Rid)) : Prop where
  level : lev (i + 1) = A ++ q :: B
  pairs : f.pairs q = u ++ e :: v
  child : pageOf e.2 = p
  parent : f.parentOf p = q
  rank : (f.pages q).findChild p = some u.length

theorem TreeInv.not_mem_siblings (hf : TreeInv f h lev x) (hi : i < h) {u v : List (K × Rid)}
    {e : K × Rid} (hq : q ∈ lev (i + 1)) (hpairs : f.pairs q = u ++ e :: v) :
    pageOf e.2 ∉ children pageOf u ∧ pageOf e.2 ∉ children pageOf v := by
  obtain ⟨A, B, hlev⟩ := List.append_of_mem hq
  have hE : flat f.pairs (lev (i + 1)) = (flat f.pairs A ++ u) ++ e :: (v ++ flat f.pairs B) := by
    rw [hlev, flat_append, flat_cons, hpairs]
    simp only [List.append_assoc, List.cons_append]
  obtain ⟨hX, hY⟩ := hf.shaped.not_mem_of_append hi hE
  rw [children_append, List.mem_append, not_or] at hX hY
  exact ⟨hX.2, hY.1⟩

theorem TreeInv.hangs (hf : TreeInv f h lev x) (hi : i < h) (hp : p ∈ lev i) :
    ∃ q A B u e v, Hangs f lev i p q A B u e v := by
  obtain ⟨q, A, B, u, e, v, hlev, hpairs, rfl⟩ := hf.shaped.exists_parent hi hp
  have hq : q ∈ lev (i + 1) := by
    rw [hlev]
    exact List.mem_append_right _ List.mem_cons_self
  have he : e ∈ f.pairs q := by
    rw [hpairs]
    exact List.mem_append_right _ List.mem_cons_self
  exact ⟨q, A, B, u, e, v, hlev, hpairs, rfl, hf.parent i hi q hq e he,
    findChild_append hpairs (hf.not_mem_siblings hi hq hpairs).1⟩

end Pages

end Rmdb
