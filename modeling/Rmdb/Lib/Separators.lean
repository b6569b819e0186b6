import Rmdb.Lib.Levels

/-!
# Separators

The order of the keys in a tree of levels, and the search for a key in it.  Above level 1 a
separator is the first key of its child, with one possible exception while a change goes up the
tree; so the keys of every level are sorted.  Level 1 is related to the leaves by `Precedes`.
-/

namespace Rmdb.Levels

variable {K V N : Type*} [LinearOrder K] (child : V → N)

/-- The pair `e` of level 1 comes before `e'`: the key of `e'` is above the keys of the leaf of `e`
and not above those of the leaf of `e'`. -/
def Precedes (P : N → List (K × V)) (e e' : K × V) : Prop :=
  e.1 < e'.1 ∧ (∀ d ∈ P (child e.2), d.1 < e'.1) ∧ ∀ d ∈ P (child e'.2), e'.1 ≤ d.1

/-- The key of a pair is the first key of its child. -/
def Exact (P : N → List (K × V)) (e : K × V) : Prop := firstKey (P (child e.2)) = some e.1

/-- The keys of a tree are in order, up to the separators of the child `x`. -/
structure Ordered (P : N → List (K × V)) (h : ℕ) (lev : ℕ → List N) (x : Option N) : Prop where
  sorted : ∀ p ∈ lev 0, Sorted (P p)
  precedes : 0 < h → (flat P (lev 1)).Pairwise (Precedes child P)
  exact : ∀ i, 0 < i → i < h → ∀ e ∈ flat P (lev (i + 1)), some (child e.2) ≠ x → Exact child P e

variable {child} {P P' : N → List (K × V)} {h : ℕ} {lev : ℕ → List N} {root p q : N} {i j : ℕ}
  {x x' : Option N} {e : K × V} {k : K}

theorem Ordered.congr (ho : Ordered child P h lev x) (hs : Shaped child P h lev root)
    (hP : ∀ i ≤ h, ∀ p ∈ lev i, P' p = P p) : Ordered child P' h lev x := by
  refine ⟨fun p hp => ?_, fun hpos => ?_, fun i hpos hi e he hx => ?_⟩
  · rw [hP 0 (Nat.zero_le h) p hp]
    exact ho.sorted p hp
  · rw [flat_congr (hP 1 hpos)]
    have hchild (e : K × V) (he : e ∈ flat P (lev 1)) : P' (child e.2) = P (child e.2) := by
      refine hP 0 (Nat.zero_le h) _ ?_
      rw [← hs.below 0 hpos]
      exact child_mem he
    refine (ho.precedes hpos).imp_of_mem fun he he' hprec => ?_
    unfold Precedes
    rw [hchild _ he, hchild _ he']
    exact hprec
  · rw [flat_congr (hP (i + 1) hi)] at he
    have hmem : child e.2 ∈ lev i := by
      rw [← hs.below i hi]
      exact child_mem he
    unfold Exact
    rw [hP i (Nat.le_of_lt hi) _ hmem]
    exact ho.exact i hpos hi e he hx

theorem Ordered.weaken (ho : Ordered child P h lev none) : Ordered child P h lev x :=
  { ho with exact := fun i hpos hi e he _ => ho.exact i hpos hi e he (Option.some_ne_none _) }

/-! ## The keys of a level are sorted -/

/-- The leaves, one after the other. -/
theorem Ordered.sorted_leaves (ho : Ordered child P h lev x) (hs : Shaped child P h lev root) :
    Sorted (flat P (lev 0)) := by
  refine List.pairwise_flatMap.2 ⟨ho.sorted, ?_⟩
  rcases Nat.eq_zero_or_pos h with rfl | hpos
  · rw [hs.top]
    exact List.pairwise_singleton _ _
  · rw [← hs.below 0 hpos]
    refine List.pairwise_map.2 ((ho.precedes hpos).imp ?_)
    intro e e' hprec d hd d' hd'
    exact lt_of_lt_of_le (hprec.2.1 d hd) (hprec.2.2 d' hd')

/-- The separators of a level. -/
theorem Ordered.sorted_level (ho : Ordered child P h lev none) (hs : Shaped child P h lev root)
    (hpos : 0 < i) (hi : i ≤ h) : Sorted (flat P (lev i)) := by
  induction i, hpos using Nat.le_induction with
  | base => exact (ho.precedes hi).imp fun hprec => hprec.1
  | succ i hpos ih =>
    have hbelow : (lev i).Pairwise fun p q => ∀ d ∈ P p, ∀ d' ∈ P q, d.1 < d'.1 :=
      (List.pairwise_flatMap.1 (ih (Nat.le_of_succ_le hi))).2
    rw [← hs.below i hi] at hbelow
    refine (List.pairwise_map.1 hbelow).imp_of_mem fun he he' hlt => ?_
    obtain ⟨d, hd, hkey⟩ := mem_of_firstKey (ho.exact i hpos hi _ he (Option.some_ne_none _))
    obtain ⟨d', hd', hkey'⟩ := mem_of_firstKey (ho.exact i hpos hi _ he' (Option.some_ne_none _))
    rw [← hkey, ← hkey']
    exact hlt d hd d' hd'

/-- The pairs of one inner node. -/
theorem Ordered.sorted_node (ho : Ordered child P h lev none) (hs : Shaped child P h lev root)
    (hpos : 0 < i) (hi : i ≤ h) (hp : p ∈ lev i) : Sorted (P p) :=
  (List.pairwise_flatMap.1 (ho.sorted_level hs hpos hi)).1 p hp

/-! ## Search -/

/-- The search for `k` comes through the node `p` of level `i`. -/
def Routed (child : V → N) (P : N → List (K × V)) (h : ℕ) (lev : ℕ → List N) (i : ℕ)
    (p : N) (k : K) : Prop :=
  i = h ∨ ∃ X e Y, flat P (lev (i + 1)) = X ++ e :: Y ∧ child e.2 = p ∧ (X = [] ∨ e.1 ≤ k) ∧
    ∀ e' ∈ Y, k < e'.1

theorem Shaped.routed_iff (hs : Shaped child P h lev root) (hi : i < h) {X Y : List (K × V)}
    (hE : flat P (lev (i + 1)) = X ++ e :: Y) :
    Routed child P h lev i (child e.2) k ↔ (X = [] ∨ e.1 ≤ k) ∧ ∀ e' ∈ Y, k < e'.1 := by
  constructor
  · rintro (heq | ⟨X', e', Y', hE', hchild, hX', hY'⟩)
    · exact absurd heq (Nat.ne_of_lt hi)
    · have hlev := hs.below i hi
      rw [hE', children_append] at hlev
      have hmap : children child (e' :: Y') = child e.2 :: children child Y' := by
        rw [← hchild]
        rfl
      rw [hmap] at hlev
      obtain ⟨hX, -⟩ := hs.eq_of_append hi hE hlev.symm
      -- the places agree, so the pairs do
      have hlen : X'.length = X.length := by simpa [children] using congrArg List.length hX
      obtain ⟨rfl, heq⟩ := List.append_inj (hE'.symm.trans hE) hlen
      obtain ⟨rfl, rfl⟩ := List.cons.inj heq
      exact ⟨hX', hY'⟩
  · rintro ⟨hX, hY⟩
    exact .inr ⟨X, e, Y, hE, rfl, hX, hY⟩

/-- One step of the search: the last pair whose key is not above `k`, or the first one. -/
theorem Ordered.routed_child (ho : Ordered child P h lev none) (hs : Shaped child P h lev root)
    (hi : i < h) (hq : q ∈ lev (i + 1)) (hr : Routed child P h lev (i + 1) q k) {u v : List (K × V)}
    (hpairs : P q = u ++ e :: v) (hu : u = [] ∨ e.1 ≤ k) (hv : ∀ e' ∈ v, k < e'.1) :
    Routed child P h lev i (child e.2) k := by
  obtain ⟨A, B, hlev⟩ := List.append_of_mem hq
  have hE : flat P (lev (i + 1)) = (flat P A ++ u) ++ e :: (v ++ flat P B) := by
    rw [hlev, flat_append, flat_cons, hpairs]
    simp only [List.append_assoc, List.cons_append]
  rw [hs.routed_iff hi hE]
  by_cases htop : i + 1 = h
  · rw [htop, hs.top] at hlev
    obtain ⟨rfl, rfl⟩ : A = [] ∧ B = [] := by
      cases A with
      | nil => exact ⟨rfl, (List.cons.inj hlev).2.symm⟩
      | cons a A =>
        cases A with
        | nil => cases (List.cons.inj hlev).2
        | cons b A => cases (List.cons.inj hlev).2
    refine ⟨?_, fun e' he' => ?_⟩
    · exact hu
    · rw [flat, List.flatMap_nil, List.append_nil] at he'
      exact hv e' he'
  · have hlt : i + 1 < h := by omega
    rcases hr with heq | ⟨X, e₀, Y, hE₀, rfl, hX, hY⟩
    · exact absurd heq htop
    obtain ⟨rfl, rfl⟩ := hs.eq_of_append hlt hE₀ hlev
    have hexact (d : K × V) (hd : d ∈ X ++ e₀ :: Y) : Exact child P d :=
      ho.exact (i + 1) (Nat.succ_pos i) hlt d (by rw [hE₀]; exact hd) (Option.some_ne_none _)
    refine ⟨?_, fun e' he' => ?_⟩
    · rcases hu with rfl | hu
      · rcases hX with rfl | hX
        · exact .inl rfl
        · have hfirst := hexact e₀ (List.mem_append_right _ List.mem_cons_self)
          rw [Exact, hpairs] at hfirst
          exact .inr (le_of_eq_of_le (Option.some.inj hfirst) hX)
      · exact .inr hu
    · rcases List.mem_append.1 he' with he' | he'
      · exact hv e' he'
      · obtain ⟨b, hb, he'⟩ := mem_flat.1 he'
        obtain ⟨e₁, he₁, rfl⟩ := mem_children.1 hb
        have hmem : e₁ ∈ X ++ e₀ :: Y := List.mem_append_right _ (List.mem_cons_of_mem _ he₁)
        have hnode : child e₁.2 ∈ lev (i + 1) := by
          rw [← hs.below (i + 1) hlt, hE₀]
          exact child_mem hmem
        have hsorted := ho.sorted_node hs (Nat.succ_pos i) hi hnode
        exact lt_of_lt_of_le (hY e₁ he₁) (firstKey_le hsorted (hexact e₁ hmem) he')

/-- A key is in the leaf that the search for it comes to, or nowhere. -/
theorem Ordered.mem_leaf (ho : Ordered child P h lev x) (hs : Shaped child P h lev root)
    (hp : p ∈ lev 0) (hr : Routed child P h lev 0 p k) {d : K × V} (hd : d ∈ flat P (lev 0))
    (hk : d.1 = k) : d ∈ P p := by
  obtain ⟨p', hp', hd⟩ := mem_flat.1 hd
  rcases hr with rfl | ⟨X, e, Y, hE, rfl, hX, hY⟩
  · rw [hs.top, List.mem_singleton] at hp hp'
    rw [hp, ← hp']
    exact hd
  rcases Nat.eq_zero_or_pos h with rfl | hpos
  · rw [hs.top, List.mem_singleton] at hp hp'
    rw [hp, ← hp']
    exact hd
  have hprec := ho.precedes hpos
  rw [hE, List.pairwise_append, List.pairwise_cons] at hprec
  obtain ⟨-, ⟨hafter, -⟩, hbefore⟩ := hprec
  rw [← hs.below 0 hpos, hE, children_append] at hp'
  rcases List.mem_append.1 hp' with hp' | hp'
  · obtain ⟨e₁, he₁, rfl⟩ := mem_children.1 hp'
    have hlt := (hbefore e₁ he₁ e List.mem_cons_self).2.1 d hd
    rcases hX with rfl | hX
    · cases he₁
    · exact absurd (lt_of_lt_of_le hlt (hk ▸ hX)) (lt_irrefl _)
  · rcases List.mem_cons.1 hp' with rfl | hp'
    · exact hd
    · obtain ⟨e₁, he₁, rfl⟩ := mem_children.1 hp'
      have hle := (hafter e₁ he₁).2.2 d hd
      exact absurd (lt_of_lt_of_le (hY e₁ he₁) (hk ▸ hle)) (lt_irrefl _)

/-- The search for a key of a leaf comes to this leaf. -/
theorem Ordered.routed_leaf (ho : Ordered child P h lev x) (hs : Shaped child P h lev root)
    (hp : p ∈ lev 0) {d : K × V} (hd : d ∈ P p) : Routed child P h lev 0 p d.1 := by
  rcases Nat.eq_zero_or_pos h with rfl | hpos
  · exact .inl rfl
  rw [← hs.below 0 hpos] at hp
  obtain ⟨e, he, rfl⟩ := mem_children.1 hp
  obtain ⟨X, Y, hE⟩ := List.append_of_mem he
  have hprec := ho.precedes hpos
  rw [hE, List.pairwise_append, List.pairwise_cons] at hprec
  obtain ⟨-, ⟨hafter, -⟩, hbefore⟩ := hprec
  rw [hs.routed_iff hpos hE]
  refine ⟨?_, fun e' he' => (hafter e' he').2.1 d hd⟩
  cases X with
  | nil => exact .inl rfl
  | cons e₁ X => exact .inr ((hbefore e₁ List.mem_cons_self e List.mem_cons_self).2.2 d hd)

/-- A search that comes to a child has come through its parent. -/
theorem Ordered.routed_parent (ho : Ordered child P h lev none) (hs : Shaped child P h lev root)
    (hi : i < h) (hq : q ∈ lev (i + 1)) {u v : List (K × V)} (hpairs : P q = u ++ e :: v)
    (hr : Routed child P h lev i (child e.2) k) : Routed child P h lev (i + 1) q k := by
  rcases Nat.lt_or_eq_of_le (Nat.succ_le_of_lt hi) with hlt | htop
  · obtain ⟨A, B, hlev⟩ := List.append_of_mem hq
    have hE : flat P (lev (i + 1)) = (flat P A ++ u) ++ e :: (v ++ flat P B) := by
      rw [hlev, flat_append, flat_cons, hpairs]
      simp only [List.append_assoc, List.cons_append]
    obtain ⟨hX, hY⟩ := (hs.routed_iff hi hE).1 hr
    have hmem := hq
    rw [← hs.below (i + 1) hlt] at hmem
    obtain ⟨e', he', rfl⟩ := mem_children.1 hmem
    obtain ⟨X, Y, hE'⟩ := List.append_of_mem he'
    obtain ⟨rfl, rfl⟩ := hs.eq_of_append hlt hE' hlev
    have hexact (d : K × V) (hd : d ∈ X ++ e' :: Y) : Exact child P d :=
      ho.exact (i + 1) (Nat.succ_pos i) hlt d (by rw [hE']; exact hd) (Option.some_ne_none _)
    rw [hs.routed_iff hlt hE']
    refine ⟨?_, fun d hd => ?_⟩
    · cases X with
      | nil => exact .inl rfl
      | cons d X =>
        obtain ⟨d', hd', -⟩ := mem_of_firstKey (hexact d (by simp))
        have hne : flat P (children child (d :: X)) ++ u ≠ [] :=
          List.append_ne_nil_of_left_ne_nil
            (List.ne_nil_of_mem (mem_flat.2 ⟨_, child_mem List.mem_cons_self, hd'⟩)) _
        have hsorted := ho.sorted_node hs (Nat.succ_pos i) hi hq
        exact .inr (le_trans (firstKey_le hsorted (hexact e' (by simp)) (by rw [hpairs]; simp))
          (hX.resolve_left hne))
    · obtain ⟨d', hd', hkey⟩ := mem_of_firstKey (hexact d (by simp [hd]))
      rw [← hkey]
      exact hY d' (List.mem_append_right _ (mem_flat.2 ⟨_, child_mem hd, hd'⟩))
  · exact .inl htop

/-! ## Changing a leaf -/

section Leaf

variable [DecidableEq N] {l : List (K × V)}

/-- Other pairs in a leaf, whose keys the search leads there. -/
theorem Ordered.update_leaf (ho : Ordered child P h lev x) (hs : Shaped child P h lev root)
    (hp : p ∈ lev 0) (hl : Sorted l) (hr : ∀ d ∈ l, Routed child P h lev 0 p d.1) :
    Ordered child (Function.update P p l) h lev x := by
  have hne (i : ℕ) (hpos : 0 < i) (hi : i ≤ h) (q : N) (hq : q ∈ lev i) :
      Function.update P p l q = P q := by
    refine Function.update_of_ne ?_ ..
    rintro rfl
    exact absurd (hs.rank i hi 0 (Nat.zero_le h) q hq hp) (Nat.ne_of_gt hpos)
  refine ⟨fun q hq => ?_, fun hpos => ?_, fun i hpos hi e he hx => ?_⟩
  · by_cases hqp : q = p
    · rw [hqp, Function.update_self]
      exact hl
    · rw [Function.update_of_ne hqp]
      exact ho.sorted q hq
  · rw [flat_congr (hne 1 Nat.one_pos hpos)]
    have hp' := hp
    rw [← hs.below 0 hpos] at hp'
    obtain ⟨e, he, rfl⟩ := mem_children.1 hp'
    obtain ⟨X, Y, hE⟩ := List.append_of_mem he
    obtain ⟨hX, hY⟩ := hs.not_mem_of_append hpos hE
    have hsame (e' : K × V) (he' : e' ∈ X ∨ e' ∈ Y) :
        Function.update P (child e.2) l (child e'.2) = P (child e'.2) := by
      refine Function.update_of_ne ?_ ..
      intro heq
      rcases he' with he' | he'
      · exact hX (heq ▸ child_mem he')
      · exact hY (heq ▸ child_mem he')
    have hprec := ho.precedes hpos
    rw [hE, List.pairwise_append, List.pairwise_cons] at hprec
    obtain ⟨hXX, ⟨hafter, hYY⟩, hbefore⟩ := hprec
    rw [hE, List.pairwise_append, List.pairwise_cons]
    refine ⟨hXX.imp_of_mem fun h₁ h₂ hprec => ?_,
      ⟨fun e' he' => ?_, hYY.imp_of_mem fun h₁ h₂ hprec => ?_⟩,
      fun e₁ he₁ e₂ he₂ => ?_⟩
    · rw [Precedes, hsame _ (.inl h₁), hsame _ (.inl h₂)]
      exact hprec
    · obtain ⟨hkey, -, hlow⟩ := hafter e' he'
      rw [Precedes, Function.update_self, hsame _ (.inr he')]
      exact ⟨hkey, fun d hd => ((hs.routed_iff hpos hE).1 (hr d hd)).2 e' he', hlow⟩
    · rw [Precedes, hsame _ (.inr h₁), hsame _ (.inr h₂)]
      exact hprec
    · obtain ⟨hkey, hhigh, hlow⟩ := hbefore e₁ he₁ e₂ he₂
      rw [Precedes, hsame _ (.inl he₁)]
      refine ⟨hkey, hhigh, ?_⟩
      rcases List.mem_cons.1 he₂ with rfl | he₂
      · rw [Function.update_self]
        intro d hd
        rcases ((hs.routed_iff hpos hE).1 (hr d hd)).1 with rfl | hle
        · cases he₁
        · exact hle
      · rw [hsame _ (.inr he₂)]
        exact hlow
  · rw [flat_congr (hne (i + 1) (Nat.succ_pos i) hi)] at he
    have hmem : child e.2 ∈ lev i := by
      rw [← hs.below i hi]
      exact child_mem he
    rw [Exact, hne i hpos (Nat.le_of_lt hi) _ hmem]
    exact ho.exact i hpos hi e he hx

end Leaf

/-! ## Rebuilding a part of a level -/

section Rebuild

variable {A B : List N} {u mid mid' v : List (K × V)} {e₀ : K × V}

/-- The keys below `mid` are above what comes before, and not below the first key of `mid`. -/
theorem Ordered.mid_low (ho : Ordered child P h lev x)
    (hr : Rebuild child P P' h lev 0 q A B u (e₀ :: mid) mid' v) {e₁ : K × V}
    (he₁ : e₁ ∈ flat P A ++ u)
    {k : K} (hk : k = e₀.1 ∨ ∃ d ∈ flat P (children child (e₀ :: mid)), d.1 = k) :
    e₁.1 < k ∧ (∀ d ∈ P (child e₁.2), d.1 < k) ∧ e₀.1 ≤ k := by
  have hprec := ho.precedes hr.lt
  rw [hr.flat_above, List.append_assoc, List.pairwise_append, List.cons_append,
    List.pairwise_cons] at hprec
  obtain ⟨-, ⟨hfirst, -⟩, hbefore⟩ := hprec
  obtain ⟨hlt, hkeys, hlow⟩ := hbefore e₁ he₁ e₀ List.mem_cons_self
  rcases hk with rfl | ⟨d, hd, rfl⟩
  · exact ⟨hlt, hkeys, le_rfl⟩
  · have hle : e₀.1 ≤ d.1 := by
      obtain ⟨p, hp, hdp⟩ := mem_flat.1 hd
      obtain ⟨e, he, rfl⟩ := mem_children.1 hp
      rcases List.mem_cons.1 he with rfl | he
      · exact hlow d hdp
      · obtain ⟨hlt', -, hlow'⟩ := hfirst e (List.mem_append_left _ he)
        exact le_of_lt (lt_of_lt_of_le hlt' (hlow' d hdp))
    exact ⟨lt_of_lt_of_le hlt hle, fun d' hd' => lt_of_lt_of_le (hkeys d' hd') hle, hle⟩

/-- The keys below `mid` are below what comes after. -/
theorem Ordered.mid_high (ho : Ordered child P h lev x)
    (hr : Rebuild child P P' h lev 0 q A B u (e₀ :: mid) mid' v) {e₂ : K × V}
    (he₂ : e₂ ∈ v ++ flat P B)
    {k : K} (hk : k = e₀.1 ∨ ∃ d ∈ flat P (children child (e₀ :: mid)), d.1 = k) :
    k < e₂.1 ∧ ∀ d ∈ P (child e₂.2), e₂.1 ≤ d.1 := by
  have hprec := ho.precedes hr.lt
  rw [hr.flat_above, List.pairwise_append, List.pairwise_append] at hprec
  obtain ⟨-, -, hafter⟩ := hprec
  have hmem (e : K × V) (he : e ∈ e₀ :: mid) := hafter e (List.mem_append_right _ he) e₂ he₂
  refine ⟨?_, (hmem e₀ List.mem_cons_self).2.2⟩
  rcases hk with rfl | ⟨d, hd, rfl⟩
  · exact (hmem e₀ List.mem_cons_self).1
  · obtain ⟨p, hp, hd⟩ := mem_flat.1 hd
    obtain ⟨e, he, rfl⟩ := mem_children.1 hp
    exact (hmem e he).2.1 d hd

/-- What is needed of the new pairs: their keys are first keys, or that of the first old pair. -/
theorem Rebuild.precedes (hr : Rebuild child P P' h lev 0 q A B u (e₀ :: mid) mid' v)
    (hs : Shaped child P h lev root) (ho : Ordered child P h lev x)
    (hgood : ∀ e ∈ mid', Exact child P' e ∨ e.1 = e₀.1)
    (hpair : mid'.Pairwise (Precedes child P')) :
    (flat P' (lev 1)).Pairwise (Precedes child P') := by
  have hprec := ho.precedes hr.lt
  rw [hr.flat_above, List.append_assoc] at hprec
  obtain ⟨hXX, hprec, hXY⟩ := List.pairwise_append.1 hprec
  obtain ⟨-, hYY, -⟩ := List.pairwise_append.1 hprec
  have hside (e : K × V) (he : e ∈ flat P A ++ u ∨ e ∈ v ++ flat P B) :
      P' (child e.2) = P (child e.2) :=
    (hr.frame_side hs (he.imp child_mem child_mem)).2.2.2
  have hcontent (e : K × V) (he : e ∈ mid') (d : K × V) (hd : d ∈ P' (child e.2)) :
      d ∈ flat P (children child (e₀ :: mid)) := by
    rw [← hr.content]
    exact mem_flat.2 ⟨_, child_mem he, hd⟩
  have hkey (e : K × V) (he : e ∈ mid') :
      e.1 = e₀.1 ∨ ∃ d ∈ flat P (children child (e₀ :: mid)), d.1 = e.1 := by
    rcases hgood e he with hexact | heq
    · obtain ⟨d, hd, hd'⟩ := mem_of_firstKey hexact
      exact .inr ⟨d, hcontent e he d hd, hd'⟩
    · exact .inl heq
  have hsorted (e : K × V) (he : e ∈ mid') : Sorted (P' (child e.2)) := by
    have hleaves := ho.sorted_leaves hs
    rw [hr.lev_eq hs, flat_append, flat_append, ← hr.content] at hleaves
    have hmid := (List.pairwise_append.1 (List.pairwise_append.1 hleaves).1).2.1
    exact (List.pairwise_flatMap.1 hmid).1 _ (child_mem he)
  rw [hr.flat_above' hs, List.append_assoc]
  refine List.pairwise_append.2 ⟨hXX.imp_of_mem fun h₁ h₂ hprec => ?_,
    List.pairwise_append.2 ⟨hpair, hYY.imp_of_mem fun h₁ h₂ hprec => ?_, ?_⟩, ?_⟩
  · rw [Precedes, hside _ (.inl h₁), hside _ (.inl h₂)]
    exact hprec
  · rw [Precedes, hside _ (.inr h₁), hside _ (.inr h₂)]
    exact hprec
  · intro e he e₂ he₂
    obtain ⟨hlt, hlow⟩ := ho.mid_high hr he₂ (hkey e he)
    rw [Precedes, hside _ (.inr he₂)]
    exact ⟨hlt, fun d hd => (ho.mid_high hr he₂ (.inr ⟨d, hcontent e he d hd, rfl⟩)).1, hlow⟩
  · intro e₁ he₁ e₂ he₂
    rcases List.mem_append.1 he₂ with he₂ | he₂
    · obtain ⟨hlt, hhigh, -⟩ := ho.mid_low hr he₁ (hkey e₂ he₂)
      rw [Precedes, hside _ (.inl he₁)]
      refine ⟨hlt, hhigh, fun d hd => ?_⟩
      rcases hgood e₂ he₂ with hexact | heq
      · exact firstKey_le (hsorted e₂ he₂) hexact hd
      · rw [heq]
        exact (ho.mid_low hr he₁ (.inr ⟨d, hcontent e₂ he₂ d hd, rfl⟩)).2.2
    · rw [Precedes, hside _ (.inl he₁), hside _ (.inr he₂)]
      exact hXY e₁ he₁ e₂ (List.mem_append_right _ he₂)

theorem Rebuild.ordered (hr : Rebuild child P P' h lev i q A B u (e₀ :: mid) mid' v)
    (hs : Shaped child P h lev root) (ho : Ordered child P h lev x)
    (hgood : ∀ e ∈ mid', Exact child P' e ∨ i = 0 ∧ e.1 = e₀.1)
    (hpair : i = 0 → mid'.Pairwise (Precedes child P'))
    (hx : ∀ p, x = some p → p ∈ children child (e₀ :: mid))
    (hq : x' = some q ∨ firstKey (P' q) = firstKey (P q)) :
    Ordered child P' h (relevel child lev i (flat P' (lev (i + 1)))) x' := by
  have hlt := hr.lt
  have hxi (j : ℕ) (hj : j ≤ h) (hji : j ≠ i) (p : N) (hp : p ∈ lev j) : some p ≠ x := by
    intro heq
    exact (hr.not_mem_mid hs hj hji hp).1 (hx p heq.symm)
  refine ⟨fun p hp => ?_, fun hpos => ?_, fun j hpos hj e he hx' => ?_⟩
  · -- the pairs of a new leaf are a part of the old ones
    have hleaves : Sorted (flat P' (relevel child lev i (flat P' (lev (i + 1))) 0)) := by
      by_cases hi : 0 = i
      · subst hi
        rw [hr.flat_self hs]
        exact ho.sorted_leaves hs
      · rw [relevel_of_ne _ hi, hr.flat_other hs (Nat.zero_le h) hi (by omega)]
        exact ho.sorted_leaves hs
    exact (List.pairwise_flatMap.1 hleaves).1 p hp
  · rcases Nat.eq_zero_or_pos i with rfl | hi
    · rw [relevel_of_ne _ Nat.one_ne_zero]
      exact hr.precedes hs ho (fun e he => (hgood e he).imp id And.right) (hpair rfl)
    · have hflat : flat P' (relevel child lev i (flat P' (lev (i + 1))) 1) = flat P (lev 1) := by
        by_cases h1 : 1 = i
        · subst h1
          exact hr.flat_self hs
        · rw [relevel_of_ne _ h1, hr.flat_other hs hpos h1 (by omega)]
      have hsame (e : K × V) (he : e ∈ flat P (lev 1)) : P' (child e.2) = P (child e.2) := by
        have hmem : child e.2 ∈ lev 0 := by
          rw [← hs.below 0 hpos]
          exact child_mem he
        exact hr.frame_level hs (Nat.zero_le h) (Nat.ne_of_lt hi) hmem
          (hr.ne_q hs (Nat.zero_le h) (by omega) hmem)
      rw [hflat]
      refine (ho.precedes hpos).imp_of_mem fun he he' hprec => ?_
      rw [Precedes, hsame _ he, hsame _ he']
      exact hprec
  · by_cases hji : j = i
    · subst hji
      rw [relevel_of_ne _ (by omega), hr.flat_above' hs, List.mem_append, List.mem_append] at he
      have hside (hmem : e ∈ flat P A ++ u ∨ e ∈ v ++ flat P B) : Exact child P' e := by
        obtain ⟨-, hmid, -, hP⟩ := hr.frame_side hs (hmem.imp child_mem child_mem)
        rw [Exact, hP]
        refine ho.exact j hpos hj e ?_ fun heq => hmid (hx _ heq.symm)
        rw [hr.flat_above, List.mem_append, List.mem_append]
        exact hmem.imp Or.inl id
      rcases he with (he | he) | he
      · exact hside (.inl he)
      · rcases hgood e he with hexact | ⟨hzero, -⟩
        · exact hexact
        · omega
      · exact hside (.inr he)
    · -- at another level only `q` may have a new first key
      have hflat : e ∈ flat P (lev (j + 1)) := by
        by_cases hj' : j + 1 = i
        · subst hj'
          rw [hr.flat_self hs] at he
          exact he
        · rw [relevel_of_ne _ hj'] at he
          rwa [hr.flat_other hs hj hj' (by omega)] at he
      have hmem : child e.2 ∈ lev j := by
        rw [← hs.below j hj]
        exact child_mem hflat
      have hexact := ho.exact j hpos hj e hflat (hxi j (Nat.le_of_lt hj) hji _ hmem)
      by_cases heq : child e.2 = q
      · rcases hq with rfl | hq
        · exact absurd (congrArg some heq) hx'
        · rw [Exact, heq, hq, ← heq]
          exact hexact
      · rw [Exact, hr.frame_level hs (Nat.le_of_lt hj) hji hmem heq]
        exact hexact

end Rebuild

/-! ## A divided node -/

/-- The keys below a child are below the separators after it. -/
theorem Ordered.below_next (ho : Ordered child P h lev none) (hs : Shaped child P h lev root)
    (hi : i < h) : (flat P (lev (i + 1))).Pairwise fun e e' => ∀ d ∈ P (child e.2), d.1 < e'.1 := by
  rcases Nat.eq_zero_or_pos i with rfl | hpos
  · exact (ho.precedes hi).imp fun hprec => hprec.2.1
  · have hbelow : (lev i).Pairwise fun p q => ∀ d ∈ P p, ∀ d' ∈ P q, d.1 < d'.1 :=
      (List.pairwise_flatMap.1 (ho.sorted_level hs hpos (Nat.le_of_lt hi))).2
    rw [← hs.below i hi] at hbelow
    refine (List.pairwise_map.1 hbelow).imp_of_mem fun {e e'} he he' hlt d hd => ?_
    obtain ⟨d', hd', hkey'⟩ := mem_of_firstKey (ho.exact i hpos hi e' he' (Option.some_ne_none _))
    exact hkey' ▸ hlt d hd d' hd'

/-- Where the first key of the right part of a node belongs among the pairs of the parent. -/
theorem Ordered.place (ho : Ordered child P h lev none) (hs : Shaped child P h lev root)
    (hi : i < h)
    (hq : q ∈ lev (i + 1)) {u v : List (K × V)} (hpairs : P q = u ++ e :: v) {a b : List (K × V)}
    (hp : P (child e.2) = a ++ b) (ha : a ≠ []) (hb : firstKey b = some k)
    (hsep : i = 0 → e.1 < k) : (∀ e' ∈ u, e'.1 < e.1) ∧ e.1 < k ∧ ∀ e' ∈ v, k < e'.1 := by
  have hsorted := ho.sorted_node hs (Nat.succ_pos i) hi hq
  have hnext : (P q).Pairwise fun e e' => ∀ d ∈ P (child e.2), d.1 < e'.1 :=
    (List.pairwise_flatMap.1 (ho.below_next hs hi)).1 q hq
  rw [hpairs] at hsorted hnext
  obtain ⟨d, hd, hkey⟩ := mem_of_firstKey hb
  refine ⟨fun e' he' => (List.pairwise_append.1 hsorted).2.2 e' he' e List.mem_cons_self, ?_,
    fun e' he' => ?_⟩
  · rcases Nat.eq_zero_or_pos i with heq | hpos
    · exact hsep heq
    · have he : e ∈ flat P (lev (i + 1)) := mem_flat.2 ⟨q, hq, by rw [hpairs]; simp⟩
      have hexact := ho.exact i hpos hi e he (Option.some_ne_none _)
      rw [Exact, hp, firstKey_append ha] at hexact
      obtain ⟨d₀, hd₀, hkey₀⟩ := mem_of_firstKey hexact
      have hmem : child e.2 ∈ lev i := by
        rw [← hs.below i hi]
        exact child_mem he
      have hnode := ho.sorted_node hs hpos (Nat.le_of_lt hi) hmem
      rw [hp] at hnode
      rw [← hkey₀, ← hkey]
      exact (List.pairwise_append.1 hnode).2.2 d₀ hd₀ d hd
  · rw [← hkey]
    refine (List.pairwise_cons.1 (List.pairwise_append.1 hnext).2.1).1 e' he' d ?_
    rw [hp]
    exact List.mem_append_right _ hd

theorem Divide.ordered {n : N} {A B : List N} {u v a b : List (K × V)} {e' : K × V}
    (hd : Divide child P P' h lev i p n q A B u v a b e e') (hs : Shaped child P h lev root)
    (ho : Ordered child P h lev none) (hb : firstKey b = some e'.1) (hsep : i = 0 → e.1 < e'.1) :
    Ordered child P' h (relevel child lev i (flat P' (lev (i + 1)))) none := by
  have hright : Exact child P' e' := by
    rw [Exact, hd.childRight, hd.right, hb]
  refine (hd.rebuild hs).ordered hs ho (fun d hmem => ?_) (fun hi => ?_)
    (fun _ hp => ?_) (.inr hd.firstKey_eq)
  · rcases List.mem_pair.1 hmem with rfl | rfl
    · rcases Nat.eq_zero_or_pos i with heq | hpos
      · exact .inr ⟨heq, rfl⟩
      · have hmem : d ∈ flat P (lev (i + 1)) :=
          mem_flat.2 ⟨q, hd.mem_parent, by rw [hd.before]; simp⟩
        have hexact := ho.exact i hpos hd.lt d hmem (Option.some_ne_none _)
        rw [Exact, hd.childLeft, hd.pairs, firstKey_append hd.leftFilled] at hexact
        exact .inl (by rw [Exact, hd.childLeft, hd.left, hexact])
    · exact .inl hright
  · subst hi
    have hsorted := ho.sorted p (hd.mem_level hs)
    rw [hd.pairs] at hsorted
    obtain ⟨-, hbsorted, hab⟩ := List.pairwise_append.1 hsorted
    obtain ⟨d', hd', hkey⟩ := mem_of_firstKey hb
    rw [List.pairwise_pair, Precedes, hd.childLeft, hd.childRight, hd.left, hd.right]
    refine ⟨hsep rfl, fun d hda => ?_, fun d hdb => firstKey_le hbsorted hb hdb⟩
    rw [← hkey]
    exact hab d hda d' hd'
  · cases hp

/-! ## A new separator -/

theorem Renew.ordered {A B : List N} {u v : List (K × V)}
    (hr : Renew child P P' h lev i p q A B u v e k)
    (hs : Shaped child P h lev root) (ho : Ordered child P h lev (some p)) :
    Ordered child P' h lev (some q) := by
  rw [← hr.relevel_eq hs]
  refine (hr.rebuild hs).ordered hs ho (fun d hd => .inl ?_) (fun _ => List.pairwise_singleton _ _)
    (fun r hx => ?_) (.inl rfl)
  · obtain rfl : d = (k, e.2) := List.mem_singleton.1 hd
    rw [Exact, hr.child, hr.pairs_eq hs, hr.first]
  · obtain rfl : p = r := Option.some.inj hx
    rw [← hr.child]
    exact List.mem_singleton_self _

/-- The separator of the exempted node is its first key, or it is the root. -/
theorem Ordered.settle (ho : Ordered child P h lev (some p)) (hs : Shaped child P h lev root)
    (hi : i ≤ h)
    (hp : p ∈ lev i) (hexact : i < h → ∀ e ∈ flat P (lev (i + 1)), child e.2 = p →
      Exact child P e) :
    Ordered child P h lev none := by
  refine { ho with exact := fun j hpos hj e he _ => ?_ }
  by_cases hep : child e.2 = p
  · have hmem : child e.2 ∈ lev j := by
      rw [← hs.below j hj]
      exact child_mem he
    obtain rfl : j = i := hs.rank j (Nat.le_of_lt hj) i hi p (hep ▸ hmem) hp
    exact hexact hj e he hep
  · exact ho.exact j hpos hj e he fun heq => hep (Option.some.inj heq)

/-! ## Neighbours -/

section Neighbours

variable {l r : N} {A B : List N} {u v : List (K × V)} {e' : K × V} {k' : K}

/-- The pairs of two neighbours, one after the other. -/
theorem Ordered.sorted_neighbours (ho : Ordered child P h lev none) (hs : Shaped child P h lev root)
    (hi : i < h)
    (hq : q ∈ lev (i + 1)) (hpairs : P q = u ++ e :: e' :: v) :
    Sorted (P (child e.2) ++ P (child e'.2)) := by
  have hlevel : Sorted (flat P (lev i)) := by
    rcases Nat.eq_zero_or_pos i with rfl | hpos
    · exact ho.sorted_leaves hs
    · exact ho.sorted_level hs hpos (Nat.le_of_lt hi)
  obtain ⟨A, B, hlev⟩ := List.append_of_mem hq
  rw [← hs.below i hi, hlev, flat_append, flat_cons, hpairs] at hlevel
  have hsplit : flat P (children child (flat P A ++ ((u ++ e :: e' :: v) ++ flat P B))) =
      flat P (children child (flat P A ++ u)) ++ (P (child e.2) ++ P (child e'.2)) ++
        flat P (children child (v ++ flat P B)) := by
    simp [flat, children]
  rw [hsplit] at hlevel
  exact (List.pairwise_append.1 (List.pairwise_append.1 hlevel).1).2.1

theorem Merge.ordered (hm : Merge child P P' h lev i l r q A B u v e e')
    (hs : Shaped child P h lev root) (ho : Ordered child P h lev none) :
    Ordered child P' h (relevel child lev i (flat P' (lev (i + 1)))) none := by
  refine hm.rebuild.ordered hs ho (fun d hd => ?_) (fun _ => List.pairwise_singleton _ _)
    (fun _ hx => by cases hx) (.inr hm.firstKey_eq)
  obtain rfl : d = e := List.mem_singleton.1 hd
  rcases Nat.eq_zero_or_pos i with heq | hpos
  · exact .inr ⟨heq, rfl⟩
  · have hmem : d ∈ flat P (lev (i + 1)) :=
      mem_flat.2 ⟨q, by rw [hm.level]; simp, by rw [hm.before]; simp⟩
    have hexact := ho.exact i hpos hm.lt d hmem (Option.some_ne_none _)
    rw [Exact, hm.childLeft] at hexact
    exact .inl (by rw [Exact, hm.childLeft, hm.merged, firstKey_append hm.filled, hexact])

theorem Shift.ordered (hsh : Shift child P P' h lev i l r q A B u v e e' k k')
    (hs : Shaped child P h lev root)
    (ho : Ordered child P h lev none) : Ordered child P' h lev (some q) := by
  have hq : q ∈ lev (i + 1) := by
    rw [hsh.level]
    exact List.mem_append_right _ List.mem_cons_self
  have hleft : Exact child P' (k, e.2) := by
    rw [Exact, hsh.childLeft, hsh.first]
  have hright : Exact child P' (k', e'.2) := by
    rw [Exact, hsh.childRight, hsh.first']
  rw [← hsh.relevel_eq hs]
  refine (hsh.rebuild hs).ordered hs ho (fun d hd => .inl ?_) (fun _ => ?_)
    (fun _ hx => by cases hx) (.inl rfl)
  · rcases List.mem_pair.1 hd with rfl | rfl
    · exact hleft
    · exact hright
  · have hsorted := ho.sorted_neighbours hs hsh.lt hq hsh.before
    rw [hsh.childLeft, hsh.childRight, ← hsh.content] at hsorted
    obtain ⟨-, hr, hlr⟩ := List.pairwise_append.1 hsorted
    obtain ⟨d, hd, hkey⟩ := mem_of_firstKey hsh.first
    obtain ⟨d', hd', hkey'⟩ := mem_of_firstKey hsh.first'
    rw [List.pairwise_pair, Precedes, hsh.childLeft, hsh.childRight]
    refine ⟨?_, fun d₁ hd₁ => ?_, fun d₁ hd₁ => firstKey_le hr hsh.first' hd₁⟩
    · rw [← hkey, ← hkey']
      exact hlr d hd d' hd'
    · rw [← hkey']
      exact hlr d₁ hd₁ d' hd'

end Neighbours

/-! ## A new root, and one level less -/

section Grow

variable {n r : N} {a b : List (K × V)} {e' : K × V}

theorem Grow.ordered (hg : Grow child P P' h lev root n r a b e e') (hs : Shaped child P h lev root)
    (ho : Ordered child P h lev none) (he : firstKey a = some e.1) (he' : firstKey b = some e'.1) :
    Ordered child P' (h + 1) (grown h lev root n r) none := by
  have hexact : Exact child P' e := by
    rw [Exact, hg.childLeft, hg.left, he]
  have hexact' : Exact child P' e' := by
    rw [Exact, hg.childRight, hg.right, he']
  have hleaves : Sorted (flat P' (grown h lev root n r 0)) := by
    rw [hg.flat_eq hs (Nat.zero_le h)]
    exact ho.sorted_leaves hs
  refine ⟨(List.pairwise_flatMap.1 hleaves).1, fun _ => ?_, fun j hpos hj d hd _ => ?_⟩
  · rcases Nat.eq_zero_or_pos h with rfl | hpos
    · have hsorted := ho.sorted root (hs.root_mem)
      rw [hg.before] at hsorted
      obtain ⟨-, hb, hab⟩ := List.pairwise_append.1 hsorted
      obtain ⟨d, hd, hkey⟩ := mem_of_firstKey he
      obtain ⟨d', hd', hkey'⟩ := mem_of_firstKey he'
      rw [grown_top, flat_singleton, hg.above, List.pairwise_pair]
      rw [Precedes, hg.childLeft, hg.childRight, hg.left, hg.right, ← hkey, ← hkey']
      refine ⟨hab d hd d' hd', fun d₁ hd₁ => hab d₁ hd₁ d' hd', fun d₁ hd₁ => ?_⟩
      rw [hkey']
      exact firstKey_le hb he' hd₁
    · have hsame (d : K × V) (hd : d ∈ flat P (lev 1)) : P' (child d.2) = P (child d.2) := by
        refine hg.frame_level hs hpos ?_
        rw [← hs.below 0 hpos]
        exact child_mem hd
      rw [hg.flat_eq hs hpos]
      refine (ho.precedes hpos).imp_of_mem fun hd hd' hprec => ?_
      rw [Precedes, hsame _ hd, hsame _ hd']
      exact hprec
  · rcases Nat.lt_or_eq_of_le (Nat.le_of_lt_succ hj) with hlt | rfl
    · rw [hg.flat_eq hs hlt] at hd
      have hmem : child d.2 ∈ lev j := by
        rw [← hs.below j hlt]
        exact child_mem hd
      rw [Exact, hg.frame_level hs hlt hmem]
      exact ho.exact j hpos hlt d hd (Option.some_ne_none _)
    · rw [grown_top, flat_singleton, hg.above] at hd
      rcases List.mem_cons.1 hd with rfl | hd
      · exact hexact
      · rw [List.mem_singleton.1 hd]
        exact hexact'

theorem Ordered.shrink (ho : Ordered child P (h + 1) lev x) : Ordered child P h lev x :=
  ⟨ho.sorted, fun _ => ho.precedes (Nat.succ_pos h), fun i hpos hi =>
    ho.exact i hpos (Nat.lt_succ_of_lt hi)⟩

end Grow

end Rmdb.Levels
