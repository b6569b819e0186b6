import Mathlib.Data.Multiset.Bind
import Mathlib.Data.Multiset.Filter
import Mathlib.Data.Nat.Notation

/-!
# Products of named relations

A tuple of a product gives a row for each relation in it: it is a partial function from the names to
the rows.  `cross` is the product of the relations of a list of names, with as many copies of a
tuple as there are ways to choose its rows.  A predicate on tuples that looks at some names only can
be applied before a product with other relations.
-/

namespace Rmdb

variable {κ ρ : Type}

/-- A row for some of the names. -/
abbrev Binding (κ ρ : Type) := κ → Option ρ

namespace Binding

/-- The rows of `l`, and those of `r` for the other names. -/
def merge (l r : Binding κ ρ) : Binding κ ρ := fun k => (l k).or (r k)

/-- The tuples of two relations put together in all ways. -/
def product (L R : Multiset (Binding κ ρ)) : Multiset (Binding κ ρ) :=
  L.bind fun l => R.map (merge l)

/-- The tuples that choose one row from the relation of each name. -/
def cross [DecidableEq κ] (rows : κ → Multiset ρ) : List κ → Multiset (Binding κ ρ)
  | [] => {fun _ => none}
  | k :: ks => (rows k).bind fun r => (cross rows ks).map fun b => Function.update b k (some r)

/-- The predicate looks at the rows of `ks` only. -/
def Reads (p : Binding κ ρ → Prop) (ks : List κ) : Prop :=
  ∀ b b', (∀ k ∈ ks, b k = b' k) → (p b ↔ p b')

variable {rows : κ → Multiset ρ} {p q : Binding κ ρ → Prop} {b l r : Binding κ ρ} {k : κ}
  {ks ks' : List κ}

/-! ## Products -/

theorem merge_none (r : Binding κ ρ) : merge (fun _ => none) r = r := by
  funext k
  simp [merge]

section
variable [DecidableEq κ]

theorem merge_update (l r : Binding κ ρ) (k : κ) (x : ρ) :
    merge (Function.update l k (some x)) r = Function.update (merge l r) k (some x) := by
  funext k'
  by_cases h : k' = k
  · subst h
    simp [merge]
  · simp [merge, h]

theorem cross_append (rows : κ → Multiset ρ) (ks ks' : List κ) :
    cross rows (ks ++ ks') = product (cross rows ks) (cross rows ks') := by
  induction ks with
  | nil =>
    simp only [List.nil_append, cross, product, Multiset.singleton_bind]
    rw [show merge (fun _ : κ => (none : Option ρ)) = id from funext merge_none, Multiset.map_id]
  | cons k ks ih =>
    simp only [List.cons_append, cross, ih, product, Multiset.map_bind, Multiset.bind_assoc,
      Multiset.bind_map, Multiset.map_map, Function.comp_def, merge_update]

theorem cross_singleton (rows : κ → Multiset ρ) (k : κ) :
    cross rows [k] = (rows k).map fun r => Function.update (fun _ => none) k (some r) := by
  simp [cross, Multiset.bind_singleton]

/-- The order of the relations does not matter. -/
theorem cross_perm (h : ks.Perm ks') : cross rows ks = cross rows ks' := by
  induction h with
  | nil => rfl
  | cons k _ ih => simp only [cross, ih]
  | swap k k' ks =>
    by_cases hk : k' = k
    · rw [hk]
    simp only [cross, Multiset.map_bind, Multiset.map_map, Function.comp_def]
    rw [Multiset.bind_bind]
    simp only [Function.update_comm hk]
  | trans _ _ ih ih' => rw [ih, ih']

/-- The names of a tuple of the product are those of the list. -/
theorem isSome_of_mem_cross (h : b ∈ cross rows ks) (k : κ) : (b k).isSome = true ↔ k ∈ ks := by
  induction ks generalizing b with
  | nil =>
    rw [cross, Multiset.mem_singleton] at h
    simp [h]
  | cons k' ks ih =>
    simp only [cross, Multiset.mem_bind, Multiset.mem_map] at h
    obtain ⟨r, _, b', hb', rfl⟩ := h
    by_cases hk : k = k'
    · simp [hk]
    · simp [hk, ih hb']

end

/-! ## Filters -/

theorem Reads.mono (h : Reads p ks) (hs : ∀ k ∈ ks, k ∈ ks') : Reads p ks' :=
  fun b b' hb => h b b' fun k hk => hb k (hs k hk)

theorem Reads.merge_left (h : Reads p ks) (hl : ∀ k ∈ ks, (l k).isSome = true) :
    p (merge l r) ↔ p l := by
  refine h _ _ fun k hk => ?_
  obtain ⟨x, hx⟩ := Option.isSome_iff_exists.mp (hl k hk)
  simp [merge, hx]

theorem Reads.merge_right (h : Reads p ks) (hl : ∀ k ∈ ks, (l k).isSome ≠ true) :
    p (merge l r) ↔ p r := by
  refine h _ _ fun k hk => ?_
  have hx : l k = none := by simpa using hl k hk
  simp [merge, hx]

variable [DecidableEq κ] [DecidablePred p] [DecidablePred q]

/-- Filters on the two sides of a product of distinct relations are a filter on the product. -/
theorem filter_product (rows : κ → Multiset ρ) (hp : Reads p ks) (hq : Reads q ks')
    (hd : ∀ k ∈ ks, k ∉ ks') : product ((cross rows ks).filter p) ((cross rows ks').filter q) =
      (cross rows (ks ++ ks')).filter fun b => p b ∧ q b := by
  rw [cross_append, product, product, Multiset.filter_bind, Multiset.bind_filter]
  refine Multiset.bind_congr fun l hl => ?_
  have hp' : ∀ r, p (merge l r) ↔ p l := fun r =>
    hp.merge_left fun k hk => (isSome_of_mem_cross hl k).mpr hk
  have hq' : ∀ r, q (merge l r) ↔ q r := fun r =>
    hq.merge_right fun k hk h => hd k ((isSome_of_mem_cross hl k).mp h) hk
  simp only [Multiset.filter_map, Function.comp_def, hp', hq']
  split
  · next h => simp [h]
  · next h => simp [h]

end Binding

end Rmdb
