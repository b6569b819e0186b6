import Mathlib.Data.List.Nodup
import Mathlib.Data.Nat.Notation
import Mathlib.Logic.Function.Basic
import Mathlib.Order.Lattice

/-!
# Search trees as lists of levels

A node `p : N` holds pairs `P p` of a key and a value.  `lev i` lists the nodes of level `i` from
left to right; level 0 are the leaves, level `h` is the root.  In a level above the leaves the value
of a pair names a child, and the children of the nodes of one level, in order, are the nodes of the
level below.

The keys of an inner node separate the keys below its children.  Above level 1 such a key is the
first key of the child.  In level 1 it may be older: it bounds the keys of the leaf from below,
except for the leftmost leaf, and those of the leaves before it from above.
-/

namespace Rmdb.Levels

variable {K V N : Type*}

/-- The children that pairs name. -/
def children (child : V → N) (l : List (K × V)) : List N := l.map fun e => child e.2

/-- The pairs of several nodes. -/
def flat (P : N → List (K × V)) (l : List N) : List (K × V) := l.flatMap P

/-- The pairs are in the order of their keys. -/
def Sorted [LT K] (l : List (K × V)) : Prop := l.Pairwise fun e e' => e.1 < e'.1

section Lists

variable {child : V → N} {P P' : N → List (K × V)} {l l' : List N} {p : N} {e : K × V}

theorem mem_children {m : List (K × V)} : p ∈ children child m ↔ ∃ e ∈ m, child e.2 = p :=
  List.mem_map

theorem child_mem {m : List (K × V)} (h : e ∈ m) : child e.2 ∈ children child m :=
  List.mem_map_of_mem h

theorem children_append (m m' : List (K × V)) :
    children child (m ++ m') = children child m ++ children child m' := List.map_append

theorem mem_flat : e ∈ flat P l ↔ ∃ p ∈ l, e ∈ P p := List.mem_flatMap

theorem flat_append : flat P (l ++ l') = flat P l ++ flat P l' := List.flatMap_append

theorem flat_cons : flat P (p :: l) = P p ++ flat P l := List.flatMap_cons

theorem flat_singleton : flat P [p] = P p := List.flatMap_singleton ..

theorem flat_congr (h : ∀ p ∈ l, P' p = P p) : flat P' l = flat P l := List.flatMap_congr h

/-- The first key of a node. -/
def firstKey (m : List (K × V)) : Option K := m.head?.map Prod.fst

theorem mem_of_firstKey {m : List (K × V)} {k : K} (h : firstKey m = some k) :
    ∃ d ∈ m, d.1 = k := by
  cases m with
  | nil => cases h
  | cons d m => exact ⟨d, List.mem_cons_self, Option.some.inj h⟩

theorem firstKey_append {m m' : List (K × V)} (h : m ≠ []) : firstKey (m ++ m') = firstKey m := by
  cases m with
  | nil => exact absurd rfl h
  | cons d m => rfl

theorem firstKey_le [LinearOrder K] {m : List (K × V)} {k : K} (hm : Sorted m)
    (h : firstKey m = some k) {d : K × V} (hd : d ∈ m) : k ≤ d.1 := by
  cases m with
  | nil => cases h
  | cons d₀ m =>
    obtain rfl : d₀.1 = k := Option.some.inj h
    rcases List.mem_cons.1 hd with rfl | hd
    · exact le_rfl
    · exact le_of_lt ((List.pairwise_cons.1 hm).1 d hd)

end Lists

/-! ## Shape -/

section Shape

variable (child : V → N)

/-- The levels of a tree. -/
structure Shaped (P : N → List (K × V)) (h : ℕ) (lev : ℕ → List N) (root : N) : Prop where
  top : lev h = [root]
  below : ∀ i < h, children child (flat P (lev (i + 1))) = lev i
  nonempty : ∀ i, 0 < i → i ≤ h → ∀ p ∈ lev i, P p ≠ []
  nodup : ∀ i ≤ h, (lev i).Nodup
  rank : ∀ i ≤ h, ∀ j ≤ h, ∀ p ∈ lev i, p ∈ lev j → i = j

variable {child} {P P' : N → List (K × V)} {h : ℕ} {lev : ℕ → List N} {root p q : N} {i j : ℕ}
  {e : K × V}

theorem Shaped.congr (hs : Shaped child P h lev root) (hP : ∀ i ≤ h, ∀ p ∈ lev i, P' p = P p) :
    Shaped child P' h lev root := by
  refine { hs with below := fun i hi => ?_, nonempty := fun i hpos hi p hp => ?_ }
  · rw [flat_congr (hP (i + 1) hi), hs.below i hi]
  · rw [hP i hi p hp]
    exact hs.nonempty i hpos hi p hp

theorem Shaped.root_mem (hs : Shaped child P h lev root) : root ∈ lev h := by
  rw [hs.top]
  exact List.mem_cons_self

theorem Shaped.mem_child (hs : Shaped child P h lev root) (hi : i < h) {e : K × V}
    (hq : q ∈ lev (i + 1)) (he : e ∈ P q) : child e.2 ∈ lev i := by
  rw [← hs.below i hi]
  exact child_mem (mem_flat.2 ⟨q, hq, he⟩)

/-- A node below the root is the child of one node of the next level. -/
theorem Shaped.exists_parent (hs : Shaped child P h lev root) (hi : i < h) (hp : p ∈ lev i) :
    ∃ q A B u e v, lev (i + 1) = A ++ q :: B ∧ P q = u ++ e :: v ∧ child e.2 = p := by
  rw [← hs.below i hi] at hp
  obtain ⟨e, he, hchild⟩ := mem_children.1 hp
  obtain ⟨q, hq, he⟩ := mem_flat.1 he
  obtain ⟨A, B, hlev⟩ := List.append_of_mem hq
  obtain ⟨u, v, huv⟩ := List.append_of_mem he
  exact ⟨q, A, B, u, e, v, hlev, huv, hchild⟩

/-- A node has one place in its level. -/
theorem Shaped.eq_of_append (hs : Shaped child P h lev root) (hi : i < h) {A B : List N}
    {X Y : List (K × V)} (hE : flat P (lev (i + 1)) = X ++ e :: Y)
    (hlev : lev i = A ++ child e.2 :: B) : A = children child X ∧ B = children child Y := by
  have hnodup := hs.nodup i (Nat.le_of_lt hi)
  have heq := hs.below i hi
  rw [hE, children_append, hlev] at heq
  rw [hlev, List.nodup_append, List.nodup_cons] at hnodup
  have hA : child e.2 ∉ A := fun hmem => hnodup.2.2 _ hmem _ List.mem_cons_self rfl
  obtain ⟨hX, -, hY⟩ := (List.append_cons_inj_of_notMem hA hnodup.2.1.1).1 heq.symm
  exact ⟨hX, hY⟩

theorem Shaped.not_mem_of_append (hs : Shaped child P h lev root) (hi : i < h)
    {X Y : List (K × V)} (hE : flat P (lev (i + 1)) = X ++ e :: Y) :
    child e.2 ∉ children child X ∧ child e.2 ∉ children child Y := by
  have hnodup := hs.nodup i (Nat.le_of_lt hi)
  rw [← hs.below i hi, hE, children_append, List.nodup_append] at hnodup
  refine ⟨fun hmem => hnodup.2.2 _ hmem _ List.mem_cons_self rfl, ?_⟩
  exact (List.nodup_cons.1 hnodup.2.1).1

/-! ### Changing a leaf -/

variable [DecidableEq N] {l : List (K × V)}

/-- Other pairs in a leaf. -/
theorem Shaped.update_leaf (hs : Shaped child P h lev root) (hp : p ∈ lev 0) :
    Shaped child (Function.update P p l) h lev root := by
  have hne (i : ℕ) (hpos : 0 < i) (hi : i ≤ h) (q : N) (hq : q ∈ lev i) :
      Function.update P p l q = P q := by
    refine Function.update_of_ne ?_ ..
    rintro rfl
    exact absurd (hs.rank i hi 0 (Nat.zero_le h) q hq hp) (Nat.ne_of_gt hpos)
  refine { hs with below := fun i hi => ?_, nonempty := fun i hpos hi q hq => ?_ }
  · rw [flat_congr (hne (i + 1) (Nat.succ_pos i) hi), hs.below i hi]
  · rw [hne i hpos hi q hq]
    exact hs.nonempty i hpos hi q hq

/-- The pairs of the leaves before and behind a leaf stay when the leaf gets other pairs. -/
theorem Shaped.flat_update_leaf (hs : Shaped child P h lev root) (hp : p ∈ lev 0) :
    ∃ X Y, flat P (lev 0) = X ++ P p ++ Y ∧ ∀ l, flat (Function.update P p l)
    (lev 0) = X ++ l ++ Y := by
  obtain ⟨A, B, hlev⟩ := List.append_of_mem hp
  have hnodup := hs.nodup 0 (Nat.zero_le h)
  rw [hlev, List.nodup_append, List.nodup_cons] at hnodup
  refine ⟨flat P A, flat P B, ?_, fun l => ?_⟩
  · rw [hlev, flat_append, flat_cons, List.append_assoc]
  · have hA (q : N) (hq : q ∈ A) : Function.update P p l q = P q :=
      Function.update_of_ne (hnodup.2.2 q hq p List.mem_cons_self) ..
    have hB (q : N) (hq : q ∈ B) : Function.update P p l q = P q := by
      refine Function.update_of_ne ?_ ..
      rintro rfl
      exact hnodup.2.1.1 hq
    rw [hlev, flat_append, flat_cons, Function.update_self, flat_congr hA, flat_congr hB,
      List.append_assoc]

end Shape

/-! ## Rebuilding a part of a level

The pairs `mid` of a node `q` are replaced by `mid'`, and the pairs of their children are
distributed anew: a split, a merge and a shift between neighbours are of this kind, and so is a new
separator. -/

/-- `P'` comes from `P` in this way; `q` is a node of level `i + 1`. -/
structure Rebuild (child : V → N) (P P' : N → List (K × V)) (h : ℕ) (lev : ℕ → List N)
    (i : ℕ) (q : N) (A B : List N) (u mid mid' v : List (K × V)) : Prop where
  lt : i < h
  level : lev (i + 1) = A ++ q :: B
  before : P q = u ++ mid ++ v
  after : P' q = u ++ mid' ++ v
  content : flat P' (children child mid') = flat P (children child mid)
  frame : ∀ p, p ≠ q → p ∉ children child mid → p ∉ children child mid' → P' p = P p
  new : ∀ p ∈ children child mid', p ∈ children child mid ∨ ∀ j ≤ h, p ∉ lev j
  nodup : (children child mid').Nodup
  nonempty : mid' ≠ []
  filled : 0 < i → ∀ p ∈ children child mid', P' p ≠ []

/-- The levels after that. -/
def relevel (child : V → N) (lev : ℕ → List N) (i : ℕ) (l : List (K × V)) : ℕ → List N :=
  Function.update lev i (children child l)

section Rebuild

variable {child : V → N} {P P' : N → List (K × V)} {h : ℕ} {lev : ℕ → List N}
  {root p q : N} {i j : ℕ}
  {A B : List N} {u mid mid' v : List (K × V)}

theorem relevel_self (l : List (K × V)) : relevel child lev i l i = children child l :=
  Function.update_self ..

theorem relevel_of_ne (l : List (K × V)) (hj : j ≠ i) : relevel child lev i l j = lev j :=
  Function.update_of_ne hj ..

namespace Rebuild

variable (hr : Rebuild child P P' h lev i q A B u mid mid' v) (hs : Shaped child P h lev root)

include hr

theorem mem_q : q ∈ lev (i + 1) := by
  rw [hr.level]
  exact List.mem_append_right _ List.mem_cons_self

/-- The pairs above level `i`. -/
theorem flat_above : flat P (lev (i + 1)) = (flat P A ++ u) ++ mid ++ (v ++ flat P B) := by
  rw [hr.level, flat_append, flat_cons, hr.before]
  simp only [List.append_assoc]

include hs

theorem lev_eq : lev i = children child (flat P A ++ u) ++ children child mid ++
    children child (v ++ flat P B) := by
  rw [← hs.below i hr.lt, hr.flat_above, children_append, children_append]

theorem mem_lev_of_mid (hp : p ∈ children child mid) : p ∈ lev i := by
  rw [hr.lev_eq hs]
  exact List.mem_append_left _ (List.mem_append_right _ hp)

/-- A node of another level is no child of `mid'`. -/
theorem not_mem_mid (hj : j ≤ h) (hji : j ≠ i) (hp : p ∈ lev j) :
    p ∉ children child mid ∧ p ∉ children child mid' := by
  have hmid : p ∉ children child mid := fun hmem =>
    hji (hs.rank j hj i (Nat.le_of_lt hr.lt) p hp (hr.mem_lev_of_mid hs hmem))
  refine ⟨hmid, fun hmem => ?_⟩
  rcases hr.new p hmem with hold | hnew
  · exact hmid hold
  · exact hnew j hj hp

/-- Nodes of other levels keep their pairs, except for `q`. -/
theorem frame_level (hj : j ≤ h) (hji : j ≠ i) (hp : p ∈ lev j) (hpq : p ≠ q) : P' p = P p := by
  obtain ⟨hmid, hmid'⟩ := hr.not_mem_mid hs hj hji hp
  exact hr.frame p hpq hmid hmid'

theorem ne_q (hj : j ≤ h) (hji : j ≠ i + 1) (hp : p ∈ lev j) : p ≠ q := by
  rintro rfl
  exact hji (hs.rank j hj (i + 1) hr.lt p hp (hr.mem_q))

theorem flat_other (hj : j ≤ h) (hji : j ≠ i) (hjq : j ≠ i + 1) :
    flat P' (lev j) = flat P (lev j) :=
  flat_congr fun _ hp => hr.frame_level hs hj hji hp (hr.ne_q hs hj hjq hp)

/-- A node of level `i` outside of `mid` keeps its pairs. -/
theorem frame_side (hp : p ∈ children child (flat P A ++ u) ∨ p ∈ children child (v ++ flat P B)) :
    p ∈ lev i ∧ p ∉ children child mid ∧ p ∉ children child mid' ∧ P' p = P p := by
  have hlev := hr.lev_eq hs
  have hnodup := hs.nodup i (Nat.le_of_lt hr.lt)
  have hp' : p ∈ lev i := by
    rw [hlev]
    rcases hp with hp | hp
    · exact List.mem_append_left _ (List.mem_append_left _ hp)
    · exact List.mem_append_right _ hp
  have hmid : p ∉ children child mid := by
    intro hmem
    rw [hlev, List.nodup_append, List.nodup_append] at hnodup
    obtain ⟨⟨-, -, hX⟩, -, hY⟩ := hnodup
    rcases hp with hp | hp
    · exact hX p hp p hmem rfl
    · exact hY p (List.mem_append_right _ hmem) p hp rfl
  have hmid' : p ∉ children child mid' := by
    intro hmem
    rcases hr.new p hmem with hold | hnew
    · exact hmid hold
    · exact hnew i (Nat.le_of_lt hr.lt) hp'
  refine ⟨hp', hmid, hmid', hr.frame p ?_ hmid hmid'⟩
  exact hr.ne_q hs (Nat.le_of_lt hr.lt) (by omega) hp'

theorem flat_above' : flat P' (lev (i + 1)) = (flat P A ++ u) ++ mid' ++ (v ++ flat P B) := by
  have hnodup := hs.nodup (i + 1) hr.lt
  have hlevel := hr.level
  have hsame (p : N) (hp : p ∈ A ∨ p ∈ B) : P' p = P p := by
    refine hr.frame_level hs hr.lt (by omega) (p := p) ?_ ?_
    · rw [hlevel]
      rcases hp with hp | hp
      · exact List.mem_append_left _ hp
      · exact List.mem_append_right _ (List.mem_cons_of_mem _ hp)
    · rintro rfl
      rw [hlevel, List.nodup_append, List.nodup_cons] at hnodup
      rcases hp with hp | hp
      · exact hnodup.2.2 p hp p List.mem_cons_self rfl
      · exact hnodup.2.1.1 hp
  rw [hlevel, flat_append, flat_cons, hr.after, flat_congr fun p hp => hsame p (.inl hp),
    flat_congr fun p hp => hsame p (.inr hp)]
  simp only [List.append_assoc]

theorem relevel_eq : relevel child lev i (flat P' (lev (i + 1))) i =
    children child (flat P A ++ u) ++ children child mid' ++ children child (v ++ flat P B) := by
  rw [relevel_self, hr.flat_above' hs, children_append, children_append]

/-- The pairs of level `i` stay. -/
theorem flat_self : flat P' (relevel child lev i (flat P' (lev (i + 1))) i) = flat P (lev i) := by
  rw [hr.relevel_eq hs, hr.lev_eq hs]
  simp only [flat_append]
  rw [hr.content, flat_congr fun p hp => (hr.frame_side hs (.inl hp)).2.2.2,
    flat_congr fun p hp => (hr.frame_side hs (.inr hp)).2.2.2]

/-- The nodes of a level are those of before or new. -/
theorem mem_relevel (hp : p ∈ relevel child lev i (flat P' (lev (i + 1))) j) :
    p ∈ lev j ∨ (j = i ∧ p ∈ children child mid' ∧ ∀ j ≤ h, p ∉ lev j) := by
  by_cases hji : j = i
  · subst hji
    rw [hr.relevel_eq hs, List.mem_append, List.mem_append] at hp
    rcases hp with (hp | hp) | hp
    · exact .inl (hr.frame_side hs (.inl hp)).1
    · rcases hr.new p hp with hold | hnew
      · exact .inl (hr.mem_lev_of_mid hs hold)
      · exact .inr ⟨rfl, hp, hnew⟩
    · exact .inl (hr.frame_side hs (.inr hp)).1
  · rw [relevel_of_ne _ hji] at hp
    exact .inl hp

theorem nodup_relevel : (relevel child lev i (flat P' (lev (i + 1))) i).Nodup := by
  have hnodup := hs.nodup i (Nat.le_of_lt hr.lt)
  rw [hr.lev_eq hs, List.nodup_append, List.nodup_append] at hnodup
  obtain ⟨⟨hX, -, -⟩, hY, hXY⟩ := hnodup
  rw [hr.relevel_eq hs, List.nodup_append, List.nodup_append]
  refine ⟨⟨hX, hr.nodup, ?_⟩, hY, ?_⟩
  · rintro p hp _ hp' rfl
    exact (hr.frame_side hs (.inl hp)).2.2.1 hp'
  · rintro p hp _ hp' rfl
    rcases List.mem_append.1 hp with hp | hp
    · exact hXY p (List.mem_append_left _ hp) p hp' rfl
    · exact (hr.frame_side hs (.inr hp')).2.2.1 hp

theorem shaped : Shaped child P' h (relevel child lev i (flat P' (lev (i + 1)))) root := by
  have hlt := hr.lt
  refine ⟨?_, fun j hj => ?_, fun j hpos hj p hp => ?_, fun j hj => ?_,
    fun j hj j' hj' p hp hp' => ?_⟩
  · rw [relevel_of_ne _ (Nat.ne_of_gt hlt), hs.top]
  · by_cases hji : j + 1 = i
    · subst hji
      rw [hr.flat_self hs, hs.below j hj, relevel_of_ne _ (by omega)]
    · rw [relevel_of_ne _ hji]
      by_cases hj' : j = i
      · subst hj'
        exact (relevel_self _).symm
      · rw [hr.flat_other hs hj hji (by omega), relevel_of_ne _ hj', hs.below j hj]
  · by_cases hji : j = i
    · subst hji
      rw [hr.relevel_eq hs, List.mem_append, List.mem_append] at hp
      rcases hp with (hp | hp) | hp
      · obtain ⟨hmem, -, -, hP⟩ := hr.frame_side hs (.inl hp)
        rw [hP]
        exact hs.nonempty j hpos hj p hmem
      · exact hr.filled hpos p hp
      · obtain ⟨hmem, -, -, hP⟩ := hr.frame_side hs (.inr hp)
        rw [hP]
        exact hs.nonempty j hpos hj p hmem
    · rw [relevel_of_ne _ hji] at hp
      by_cases hpq : p = q
      · rw [hpq, hr.after]
        simp [hr.nonempty]
      · rw [hr.frame_level hs hj hji hp hpq]
        exact hs.nonempty j hpos hj p hp
  · by_cases hji : j = i
    · subst hji
      exact hr.nodup_relevel hs
    · rw [relevel_of_ne _ hji]
      exact hs.nodup j hj
  · rcases hr.mem_relevel hs hp with hold | ⟨heq, -, hnew⟩
    · rcases hr.mem_relevel hs hp' with hold' | ⟨-, -, hnew'⟩
      · exact hs.rank j hj j' hj' p hold hold'
      · exact absurd hold (hnew' j hj)
    · rcases hr.mem_relevel hs hp' with hold' | ⟨heq', -, -⟩
      · exact absurd hold' (hnew j' hj')
      · exact heq.trans heq'.symm

end Rebuild

end Rebuild

/-! ## A divided node -/

/-- The node `p` of level `i` is divided; its right part `n` hangs next to it. -/
structure Divide (child : V → N) (P P' : N → List (K × V)) (h : ℕ) (lev : ℕ → List N)
    (i : ℕ) (p n q : N) (A B : List N) (u v a b : List (K × V)) (e e' : K × V) : Prop where
  lt : i < h
  level : lev (i + 1) = A ++ q :: B
  before : P q = u ++ e :: v
  after : P' q = u ++ e :: e' :: v
  childLeft : child e.2 = p
  childRight : child e'.2 = n
  pairs : P p = a ++ b
  left : P' p = a
  right : P' n = b
  leftFilled : a ≠ []
  rightFilled : b ≠ []
  frame : ∀ r, r ≠ p → r ≠ n → r ≠ q → P' r = P r
  new : ∀ j ≤ h, n ∉ lev j

namespace Divide

variable {child : V → N} {P P' : N → List (K × V)} {h : ℕ} {lev : ℕ → List N}
  {root p n q : N} {i : ℕ}
  {A B L R : List N} {u v a b : List (K × V)} {e e' : K × V}

theorem firstKey_eq (hd : Divide child P P' h lev i p n q A B u v a b e e') :
    firstKey (P' q) = firstKey (P q) := by
  rw [hd.after, hd.before]
  cases u with
  | nil => rfl
  | cons d u => rfl

variable (hd : Divide child P P' h lev i p n q A B u v a b e e') (hs : Shaped child P h lev root)

include hd

theorem mem_parent : q ∈ lev (i + 1) := by
  rw [hd.level]
  exact List.mem_append_right _ List.mem_cons_self

include hs

theorem mem_level : p ∈ lev i := by
  rw [← hs.below i hd.lt, ← hd.childLeft]
  exact child_mem (mem_flat.2 ⟨q, hd.mem_parent, by rw [hd.before]; simp⟩)

theorem rebuild : Rebuild child P P' h lev i q A B u [e] [e, e'] v := by
  have hp := hd.mem_level hs
  have hne : p ≠ n := by
    rintro rfl
    exact hd.new i (Nat.le_of_lt hd.lt) hp
  have hmid : children child [e] = [p] := by rw [← hd.childLeft]; rfl
  have hmid' : children child [e, e'] = [p, n] := by rw [← hd.childLeft, ← hd.childRight]; rfl
  refine ⟨hd.lt, hd.level, ?_, ?_, ?_, fun r hrq hr hr' => ?_, fun r hr => ?_, ?_,
    List.cons_ne_nil _ _,
    fun _ r hr => ?_⟩
  · rw [hd.before]
    simp
  · rw [hd.after]
    simp
  · rw [hmid, hmid', flat_cons, flat_singleton, flat_singleton, hd.left, hd.right, hd.pairs]
  · rw [hmid'] at hr'
    simp only [List.mem_cons, List.not_mem_nil, or_false, not_or] at hr'
    exact hd.frame r hr'.1 hr'.2 hrq
  · rw [hmid'] at hr
    rw [hmid]
    simp only [List.mem_cons, List.not_mem_nil, or_false] at hr ⊢
    rcases hr with rfl | rfl
    · exact .inl rfl
    · exact .inr hd.new
  · rw [hmid']
    simp [hne]
  · rw [hmid'] at hr
    simp only [List.mem_cons, List.not_mem_nil, or_false] at hr
    rcases hr with rfl | rfl
    · rw [hd.left]
      exact hd.leftFilled
    · rw [hd.right]
      exact hd.rightFilled

/-- The new node comes after the divided one. -/
theorem relevel_eq (hlev : lev i = L ++ p :: R) :
    relevel child lev i (flat P' (lev (i + 1))) i = L ++ p :: n :: R := by
  have hr := hd.rebuild hs
  have hE : flat P (lev (i + 1)) = (flat P A ++ u) ++ e :: (v ++ flat P B) := by
    rw [hr.flat_above]
    simp
  rw [← hd.childLeft] at hlev
  obtain ⟨rfl, rfl⟩ := hs.eq_of_append hd.lt hE hlev
  rw [hr.relevel_eq hs, ← hd.childLeft, ← hd.childRight]
  simp [children]

end Divide

/-! ## A new separator -/

/-- The separator of the child `p` of level `i` is replaced by its first key. -/
structure Renew (child : V → N) (P P' : N → List (K × V)) (h : ℕ) (lev : ℕ → List N)
    (i : ℕ) (p q : N) (A B : List N) (u v : List (K × V)) (e : K × V) (k : K) : Prop where
  lt : i < h
  level : lev (i + 1) = A ++ q :: B
  before : P q = u ++ e :: v
  after : P' q = u ++ (k, e.2) :: v
  child : child e.2 = p
  first : firstKey (P p) = some k
  frame : ∀ r, r ≠ q → P' r = P r

namespace Renew

variable {child : V → N} {P P' : N → List (K × V)} {h : ℕ} {lev : ℕ → List N} {root p q : N} {i : ℕ}
  {A B : List N}
  {u v : List (K × V)} {e : K × V} {k : K} (hr : Renew child P P' h lev i p q A B u v e k)

include hr

theorem mem_parent : q ∈ lev (i + 1) := by
  rw [hr.level]
  exact List.mem_append_right _ List.mem_cons_self

variable (hs : Shaped child P h lev root)

include hs

theorem mem_level : p ∈ lev i := by
  rw [← hs.below i hr.lt, ← hr.child]
  exact child_mem (mem_flat.2 ⟨q, hr.mem_parent, by rw [hr.before]; simp⟩)

theorem ne_parent : p ≠ q := by
  rintro rfl
  have heq := hs.rank i (Nat.le_of_lt hr.lt) (i + 1) hr.lt p (hr.mem_level hs) hr.mem_parent
  omega

theorem pairs_eq : P' p = P p := hr.frame p (hr.ne_parent hs)

theorem rebuild : Rebuild child P P' h lev i q A B u [e] [(k, e.2)] v := by
  have hchild : children child [(k, e.2)] = [p] := by rw [← hr.child]; rfl
  have hchild' : children child [e] = [p] := by rw [← hr.child]; rfl
  refine ⟨hr.lt, hr.level, ?_, ?_, ?_, fun r hrq _ _ => hr.frame r hrq, fun r hmem => .inl ?_, ?_,
    List.cons_ne_nil _ _, fun hpos r hmem => ?_⟩
  · rw [hr.before]
    simp
  · rw [hr.after]
    simp
  · rw [hchild, hchild', flat_singleton, flat_singleton, hr.pairs_eq hs]
  · rw [hchild']
    rwa [hchild] at hmem
  · rw [hchild]
    exact List.nodup_singleton p
  · rw [hchild, List.mem_singleton] at hmem
    rw [hmem, hr.pairs_eq hs]
    exact hs.nonempty i hpos (Nat.le_of_lt hr.lt) p (hr.mem_level hs)

theorem relevel_eq : relevel child lev i (flat P' (lev (i + 1))) = lev := by
  have hreb := hr.rebuild hs
  have hsame : children child (flat P' (lev (i + 1))) = lev i := by
    rw [hreb.flat_above' hs, hreb.lev_eq hs]
    simp [children]
  rw [relevel, hsame, Function.update_eq_self]

theorem shaped : Shaped child P' h lev root := by
  have hshaped := (hr.rebuild hs).shaped hs
  rwa [hr.relevel_eq hs] at hshaped

end Renew

/-! ## Neighbours -/

/-- The right neighbour `r` of `l` is merged into `l`. -/
structure Merge (child : V → N) (P P' : N → List (K × V)) (h : ℕ) (lev : ℕ → List N)
    (i : ℕ) (l r q : N) (A B : List N) (u v : List (K × V)) (e e' : K × V) : Prop where
  lt : i < h
  level : lev (i + 1) = A ++ q :: B
  before : P q = u ++ e :: e' :: v
  after : P' q = u ++ e :: v
  childLeft : child e.2 = l
  childRight : child e'.2 = r
  merged : P' l = P l ++ P r
  filled : P l ≠ []
  frame : ∀ p, p ≠ l → p ≠ r → p ≠ q → P' p = P p

/-- Pairs go from one of the neighbours `l` and `r` to the other, and both separators are
renewed. -/
structure Shift (child : V → N) (P P' : N → List (K × V)) (h : ℕ) (lev : ℕ → List N)
    (i : ℕ) (l r q : N) (A B : List N) (u v : List (K × V)) (e e' : K × V) (k k' : K) : Prop where
  lt : i < h
  level : lev (i + 1) = A ++ q :: B
  before : P q = u ++ e :: e' :: v
  after : P' q = u ++ (k, e.2) :: (k', e'.2) :: v
  childLeft : child e.2 = l
  childRight : child e'.2 = r
  content : P' l ++ P' r = P l ++ P r
  first : firstKey (P' l) = some k
  first' : firstKey (P' r) = some k'
  frame : ∀ p, p ≠ l → p ≠ r → p ≠ q → P' p = P p

section Neighbours

variable {child : V → N} {P P' : N → List (K × V)} {h : ℕ} {lev : ℕ → List N} {root l r q : N}
  {i : ℕ} {A B : List N}
  {u v : List (K × V)} {e e' : K × V} {k k' : K}

/-- Two neighbours are different nodes. -/
theorem Shaped.ne_neighbour (hs : Shaped child P h lev root) (hi : i < h) (hq : q ∈ lev (i + 1))
    (hpairs : P q = u ++ e :: e' :: v) : child e.2 ≠ child e'.2 := by
  obtain ⟨A, B, hlev⟩ := List.append_of_mem hq
  have hE : flat P (lev (i + 1)) = (flat P A ++ u) ++ e :: (e' :: v ++ flat P B) := by
    rw [hlev, flat_append, flat_cons, hpairs]
    simp
  intro heq
  refine (hs.not_mem_of_append hi hE).2 ?_
  rw [heq]
  exact child_mem List.mem_cons_self

theorem Merge.rebuild (hm : Merge child P P' h lev i l r q A B u v e e') :
    Rebuild child P P' h lev i q A B u [e, e'] [e] v := by
  have hmid : children child [e] = [l] := by rw [← hm.childLeft]; rfl
  have hmid' : children child [e, e'] = [l, r] := by rw [← hm.childLeft, ← hm.childRight]; rfl
  refine ⟨hm.lt, hm.level, ?_, ?_, ?_, fun p hpq hp _ => ?_, fun p hp => .inl ?_, ?_,
    List.cons_ne_nil _ _,
    fun _ p hp => ?_⟩
  · rw [hm.before]
    simp
  · rw [hm.after]
    simp
  · rw [hmid, hmid', flat_singleton, flat_cons, flat_singleton, hm.merged]
  · rw [hmid'] at hp
    simp only [List.mem_cons, List.not_mem_nil, or_false, not_or] at hp
    exact hm.frame p hp.1 hp.2 hpq
  · rw [hmid, List.mem_singleton] at hp
    rw [hmid', hp]
    exact List.mem_cons_self
  · rw [hmid]
    exact List.nodup_singleton l
  · rw [hmid, List.mem_singleton] at hp
    rw [hp, hm.merged]
    exact List.append_ne_nil_of_left_ne_nil hm.filled _

/-- The left neighbour takes the place of both. -/
theorem Merge.relevel_eq (hm : Merge child P P' h lev i l r q A B u v e e')
    (hs : Shaped child P h lev root) :
    ∃ X Y, lev i = X ++ l :: r :: Y ∧ relevel child lev i (flat P' (lev (i + 1))) i =
    X ++ l :: Y := by
  have hr := hm.rebuild
  have hmid : children child [e] = [l] := by rw [← hm.childLeft]; rfl
  have hmid' : children child [e, e'] = [l, r] := by rw [← hm.childLeft, ← hm.childRight]; rfl
  refine ⟨children child (flat P A ++ u), children child (v ++ flat P B), ?_, ?_⟩
  · rw [hr.lev_eq hs, hmid', List.append_assoc]
    rfl
  · rw [hr.relevel_eq hs, hmid, List.append_assoc]
    rfl

theorem Merge.firstKey_eq (hm : Merge child P P' h lev i l r q A B u v e e') :
    firstKey (P' q) = firstKey (P q) := by
  rw [hm.after, hm.before]
  cases u with
  | nil => rfl
  | cons d u => rfl

theorem Shift.rebuild (hsh : Shift child P P' h lev i l r q A B u v e e' k k')
    (hs : Shaped child P h lev root) :
    Rebuild child P P' h lev i q A B u [e, e'] [(k, e.2), (k', e'.2)] v := by
  have hq : q ∈ lev (i + 1) := by
    rw [hsh.level]
    exact List.mem_append_right _ List.mem_cons_self
  have hne := hs.ne_neighbour hsh.lt hq hsh.before
  rw [hsh.childLeft, hsh.childRight] at hne
  have hmid : children child [(k, e.2), (k', e'.2)] = [l, r] := by
    rw [← hsh.childLeft, ← hsh.childRight]; rfl
  have hmid' : children child [e, e'] = [l, r] := by rw [← hsh.childLeft, ← hsh.childRight]; rfl
  refine ⟨hsh.lt, hsh.level, ?_, ?_, ?_, fun p hpq hp _ => ?_, fun p hp => .inl ?_, ?_,
    List.cons_ne_nil _ _,
    fun _ p hp => ?_⟩
  · rw [hsh.before]
    simp
  · rw [hsh.after]
    simp
  · rw [hmid, hmid', flat_cons, flat_singleton, flat_cons, flat_singleton, hsh.content]
  · rw [hmid'] at hp
    simp only [List.mem_cons, List.not_mem_nil, or_false, not_or] at hp
    exact hsh.frame p hp.1 hp.2 hpq
  · rw [hmid']
    rwa [hmid] at hp
  · rw [hmid]
    simp [hne]
  · rw [hmid] at hp
    rcases List.mem_pair.1 hp with rfl | rfl
    · intro hnil
      have hfirst := hsh.first
      rw [hnil] at hfirst
      cases hfirst
    · intro hnil
      have hfirst := hsh.first'
      rw [hnil] at hfirst
      cases hfirst

theorem Shift.relevel_eq (hsh : Shift child P P' h lev i l r q A B u v e e' k k')
    (hs : Shaped child P h lev root) : relevel child lev i (flat P' (lev (i + 1))) = lev := by
  have hreb := hsh.rebuild hs
  have hsame : children child (flat P' (lev (i + 1))) = lev i := by
    rw [hreb.flat_above' hs, hreb.lev_eq hs]
    simp [children]
  rw [relevel, hsame, Function.update_eq_self]

end Neighbours

/-! ## A new root, and one level less -/

/-- The root is divided in two nodes below a new root `r`. -/
structure Grow (child : V → N) (P P' : N → List (K × V)) (h : ℕ) (lev : ℕ → List N) (root n r : N)
    (a b : List (K × V)) (e e' : K × V) : Prop where
  before : P root = a ++ b
  left : P' root = a
  right : P' n = b
  above : P' r = [e, e']
  childLeft : child e.2 = root
  childRight : child e'.2 = n
  frame : ∀ p, p ≠ root → p ≠ n → p ≠ r → P' p = P p
  new : ∀ j ≤ h, n ∉ lev j ∧ r ∉ lev j
  ne : n ≠ r
  leftFilled : a ≠ []
  rightFilled : b ≠ []

/-- The levels after that. -/
def grown (h : ℕ) (lev : ℕ → List N) (root n r : N) : ℕ → List N :=
  Function.update (Function.update lev h [root, n]) (h + 1) [r]

section Grow

variable {child : V → N} {P P' : N → List (K × V)} {h : ℕ} {lev : ℕ → List N}
  {root n r p : N} {i j : ℕ}
  {a b : List (K × V)} {e e' : K × V}

theorem grown_top : grown h lev root n r (h + 1) = [r] := Function.update_self ..

theorem grown_self : grown h lev root n r h = [root, n] := by
  rw [grown, Function.update_of_ne (Nat.ne_of_lt (Nat.lt_succ_self h)), Function.update_self]

theorem grown_of_lt (hj : j < h) : grown h lev root n r j = lev j := by
  rw [grown, Function.update_of_ne (by omega), Function.update_of_ne (by omega)]

namespace Grow

variable (hg : Grow child P P' h lev root n r a b e e') (hs : Shaped child P h lev root)

include hg hs

theorem frame_level (hj : j < h) (hp : p ∈ lev j) : P' p = P p := by
  obtain ⟨hn, hr⟩ := hg.new j (Nat.le_of_lt hj)
  refine hg.frame p ?_ ?_ ?_
  · rintro rfl
    exact absurd (hs.rank j (Nat.le_of_lt hj) h (Nat.le_refl h) p hp (hs.root_mem))
      (Nat.ne_of_lt hj)
  · rintro rfl
    exact hn hp
  · rintro rfl
    exact hr hp

/-- The pairs of every old level stay. -/
theorem flat_eq (hj : j ≤ h) : flat P' (grown h lev root n r j) = flat P (lev j) := by
  rcases Nat.lt_or_eq_of_le hj with hlt | rfl
  · rw [grown_of_lt hlt]
    exact flat_congr fun p hp => hg.frame_level hs hlt hp
  · rw [grown_self, hs.top, flat_cons, flat_singleton, flat_singleton, hg.left, hg.right, hg.before]

theorem mem_grown (hj : j ≤ h + 1) (hp : p ∈ grown h lev root n r j) :
    (p ∈ lev j ∧ j ≤ h) ∨ (p = n ∧ j = h) ∨ (p = r ∧ j = h + 1) := by
  rcases Nat.lt_or_eq_of_le hj with hlt | rfl
  · rcases Nat.lt_or_eq_of_le (Nat.le_of_lt_succ hlt) with hlt | rfl
    · rw [grown_of_lt hlt] at hp
      exact .inl ⟨hp, Nat.le_of_lt hlt⟩
    · rw [grown_self] at hp
      rcases List.mem_cons.1 hp with rfl | hp
      · exact .inl ⟨hs.root_mem, Nat.le_refl j⟩
      · exact .inr (.inl ⟨List.mem_singleton.1 hp, rfl⟩)
  · rw [grown_top] at hp
    exact .inr (.inr ⟨List.mem_singleton.1 hp, rfl⟩)

theorem shaped : Shaped child P' (h + 1) (grown h lev root n r) r := by
  have hroot := hs.root_mem
  refine ⟨grown_top, fun j hj => ?_, fun j hpos hj p hp => ?_, fun j hj => ?_,
    fun j hj j' hj' p hp hp' => ?_⟩
  · rcases Nat.lt_or_eq_of_le (Nat.le_of_lt_succ hj) with hlt | rfl
    · rw [hg.flat_eq hs hlt, grown_of_lt hlt, hs.below j hlt]
    · rw [grown_top, grown_self, flat_singleton, hg.above]
      simp [children, hg.childLeft, hg.childRight]
  · rcases Nat.lt_or_eq_of_le hj with hlt | rfl
    · rcases Nat.lt_or_eq_of_le (Nat.le_of_lt_succ hlt) with hlt | rfl
      · rw [grown_of_lt hlt] at hp
        rw [hg.frame_level hs hlt hp]
        exact hs.nonempty j hpos (Nat.le_of_lt hlt) p hp
      · rw [grown_self] at hp
        rcases List.mem_cons.1 hp with rfl | hp
        · rw [hg.left]
          exact hg.leftFilled
        · rw [List.mem_singleton.1 hp, hg.right]
          exact hg.rightFilled
    · rw [grown_top] at hp
      rw [List.mem_singleton.1 hp, hg.above]
      exact List.cons_ne_nil _ _
  · rcases Nat.lt_or_eq_of_le hj with hlt | rfl
    · rcases Nat.lt_or_eq_of_le (Nat.le_of_lt_succ hlt) with hlt | rfl
      · rw [grown_of_lt hlt]
        exact hs.nodup j (Nat.le_of_lt hlt)
      · rw [grown_self, List.nodup_cons]
        refine ⟨?_, List.nodup_singleton n⟩
        rw [List.mem_singleton]
        rintro rfl
        exact (hg.new j (Nat.le_refl j)).1 hroot
    · rw [grown_top]
      exact List.nodup_singleton r
  · -- old nodes keep their level; the new ones are new
    rcases hg.mem_grown hs hj hp with ⟨hold, hle⟩ | ⟨rfl, rfl⟩ | ⟨rfl, rfl⟩
    · rcases hg.mem_grown hs hj' hp' with ⟨hold', hle'⟩ | ⟨rfl, rfl⟩ | ⟨rfl, rfl⟩
      · exact hs.rank j hle j' hle' p hold hold'
      · exact absurd hold (hg.new j hle).1
      · exact absurd hold (hg.new j hle).2
    · rcases hg.mem_grown hs hj' hp' with ⟨hold', hle'⟩ | ⟨-, rfl⟩ | ⟨heq, -⟩
      · exact absurd hold' (hg.new j' hle').1
      · rfl
      · exact absurd heq hg.ne
    · rcases hg.mem_grown hs hj' hp' with ⟨hold', hle'⟩ | ⟨heq, -⟩ | ⟨-, rfl⟩
      · exact absurd hold' (hg.new j' hle').2
      · exact absurd heq.symm hg.ne
      · rfl

end Grow

/-- A root with one child is left out. -/
theorem Shaped.shrink (hs : Shaped child P (h + 1) lev root) (hroot : P root = [e]) :
    Shaped child P h lev (child e.2) := by
  refine ⟨?_, fun i hi => hs.below i (Nat.lt_succ_of_lt hi), fun i hpos hi => hs.nonempty i hpos
    (Nat.le_succ_of_le hi), fun i hi => hs.nodup i (Nat.le_succ_of_le hi),
      fun i hi j hj => hs.rank i
    (Nat.le_succ_of_le hi) j (Nat.le_succ_of_le hj)⟩
  rw [← hs.below h (Nat.lt_succ_self h), hs.top, flat_singleton, hroot]
  rfl

end Grow

end Rmdb.Levels
