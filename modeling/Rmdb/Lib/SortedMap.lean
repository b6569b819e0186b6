import Mathlib.Order.Lattice
import Mathlib.Data.List.Pairwise

/-!
# Ordered maps

A map whose entries contain their own key, as the list of its entries with increasing keys: what an
iteration over `std::map` passes.
-/

namespace Rmdb

namespace SortedMap

variable {K V : Type} [LinearOrder K] (key : V → K)

/-- The keys increase. -/
def Sorted (l : List V) : Prop := l.Pairwise fun u v => key u < key v

/-- `m[key(v)] = v`. -/
def put (v : V) : List V → List V
  | [] => [v]
  | u :: us =>
    if key v < key u then v :: u :: us else if key v = key u then v :: us else u :: put v us

/-- `m.find(k)`. -/
def find (k : K) (l : List V) : Option V := l.find? fun v => decide (key v = k)

/-- `m.erase(k)`. -/
def erase (k : K) (l : List V) : List V := l.filter fun v => decide (key v ≠ k)

variable {key} {k : K} {u v x : V} {l : List V}

theorem Sorted.unique (h : Sorted key l) (hu : u ∈ l) (hv : v ∈ l)
    (hk : key u = key v) : u = v := by
  induction l with
  | nil => cases hu
  | cons w l ih =>
    obtain ⟨hw, hl⟩ := List.pairwise_cons.mp h
    rcases List.mem_cons.mp hu with rfl | hul <;> rcases List.mem_cons.mp hv with rfl | hvl
    · rfl
    · exact absurd (hw v hvl) (by simp [hk])
    · exact absurd (hw u hul) (by simp [hk])
    · exact ih hl hul hvl

theorem find_eq_some (h : Sorted key l) : find key k l = some v ↔ v ∈ l ∧ key v = k := by
  constructor
  · intro hf
    exact ⟨List.mem_of_find?_eq_some hf, by simpa using List.find?_some hf⟩
  · rintro ⟨hv, rfl⟩
    obtain ⟨u, hu⟩ : ∃ u, find key (key v) l = some u := by
      rw [← Option.isSome_iff_exists, find, List.find?_isSome]
      exact ⟨v, hv, by simp⟩
    have hkey : key u = key v := by simpa using List.find?_some hu
    rw [hu, h.unique (List.mem_of_find?_eq_some hu) hv hkey]

theorem find_eq_none : find key k l = none ↔ ∀ v ∈ l, key v ≠ k := by
  simp [find, List.find?_eq_none]

theorem mem_put (h : Sorted key l) : x ∈ put key v l ↔ x = v ∨ (x ∈ l ∧ key x ≠ key v) := by
  induction l with
  | nil => simp [put]
  | cons u us ih =>
    obtain ⟨hu, hus⟩ := List.pairwise_cons.mp h
    rw [put]
    split_ifs with hlt heq
    · have hne : ∀ w ∈ u :: us, key w ≠ key v := by
        intro w hw heq
        rcases List.mem_cons.mp hw with rfl | hw
        · exact absurd hlt (by simp [heq])
        · exact absurd (hlt.trans (hu w hw)) (by simp [heq])
      rw [List.mem_cons]
      exact or_congr_right ⟨fun hx => ⟨hx, hne x hx⟩, And.left⟩
    · have hne : ∀ w ∈ us, key w ≠ key v := fun w hw h => absurd (hu w hw) (by simp [h, heq])
      rw [List.mem_cons, List.mem_cons]
      refine or_congr_right ⟨fun hx => ⟨.inr hx, hne x hx⟩, ?_⟩
      rintro ⟨rfl | hx, hxv⟩
      · exact absurd heq.symm hxv
      · exact hx
    · rw [List.mem_cons, ih hus, List.mem_cons]
      have huv : key u ≠ key v := fun h => heq h.symm
      constructor
      · rintro (rfl | rfl | ⟨hx, hxv⟩)
        · exact .inr ⟨.inl rfl, huv⟩
        · exact .inl rfl
        · exact .inr ⟨.inr hx, hxv⟩
      · rintro (rfl | ⟨rfl | hx, hxv⟩)
        · exact .inr (.inl rfl)
        · exact .inl rfl
        · exact .inr (.inr ⟨hx, hxv⟩)

theorem Sorted.put (h : Sorted key l) : Sorted key (put key v l) := by
  induction l with
  | nil => exact List.pairwise_singleton _ v
  | cons u us ih =>
    obtain ⟨hu, hus⟩ := List.pairwise_cons.mp h
    rw [SortedMap.put]
    split_ifs with hlt heq
    · refine List.pairwise_cons.mpr ⟨fun w hw => ?_, h⟩
      rcases List.mem_cons.mp hw with rfl | hw
      · exact hlt
      · exact hlt.trans (hu w hw)
    · exact List.pairwise_cons.mpr ⟨fun w hw => heq ▸ hu w hw, hus⟩
    · refine List.pairwise_cons.mpr ⟨fun w hw => ?_, ih hus⟩
      rcases (mem_put hus).mp hw with rfl | ⟨hw, -⟩
      · exact lt_of_le_of_ne (not_lt.mp hlt) fun h => heq h.symm
      · exact hu w hw

theorem Sorted.erase (h : Sorted key l) : Sorted key (erase key k l) := h.filter _

theorem mem_erase : x ∈ erase key k l ↔ x ∈ l ∧ key x ≠ k := by simp [erase]

/-- The later of two entries with one key stays. -/
theorem put_put (h : key u = key v) : put key v (put key u l) = put key v l := by
  induction l with
  | nil => simp [put, h]
  | cons w l ih =>
    rw [put, h]
    split_ifs with hlt heq
    · simp [put, h, hlt]
    · simp [put, h, heq]
    · rw [put, if_neg hlt, if_neg heq, ih, put, if_neg hlt, if_neg heq]

theorem find_put : find key (key v) (put key v l) = some v := by
  induction l with
  | nil => simp [put, find]
  | cons u us ih =>
    rw [put]
    split_ifs with hlt heq
    · simp [find]
    · simp [find]
    · have hne : key u ≠ key v := fun h => heq h.symm
      rw [find, List.find?_cons_of_neg (by simpa using hne)]
      exact ih

theorem put_of_lt (h : ∀ u ∈ l, key u < key v) : put key v l = l ++ [v] := by
  induction l with
  | nil => rfl
  | cons u us ih =>
    obtain ⟨hu, hus⟩ := List.forall_mem_cons.mp h
    rw [put, if_neg hu.not_gt, if_neg hu.ne', ih hus, List.cons_append]

/-- Entries put in their order make up the map. -/
theorem foldl_put (h : Sorted key l) : l.foldl (fun m v => put key v m) [] = l := by
  suffices hsuffix : ∀ done rest, done ++ rest = l → rest.foldl (fun m v => put key v m) done =
    l from hsuffix [] l rfl
  intro done rest
  induction rest generalizing done with
  | nil =>
    intro hl
    rw [List.foldl_nil, ← hl, List.append_nil]
  | cons v rest ih =>
    intro hl
    have hlt : ∀ u ∈ done, key u < key v := by
      rw [← hl] at h
      exact fun u hu => (List.pairwise_append.mp h).2.2 u hu v List.mem_cons_self
    rw [List.foldl_cons, put_of_lt hlt]
    exact ih _ (by rw [← hl, List.append_assoc, List.singleton_append])

end SortedMap

end Rmdb
