import Mathlib.Data.List.Induction
import Mathlib.Data.List.Nodup
import Mathlib.Logic.Function.Basic

/-!
# Rows and a unique index on them

Rows are a map `m : I → Option R`, an index is a map `e : K → Option I` from keys to rows; inserting
an entry keeps an existing one, deleting goes by the key alone.  `Indexes` is the exact
correspondence, `Sound` the half that survives when two rows come to share a key: what the index
finds is there.

Under `Sound` alone the entries cannot be restored one operation at a time, because an entry that
was ignored is not told apart from one that was made.  `Covers` is what undoing keeps instead: the
entries of rows that share their key with no other row are as they were.
-/

namespace Rmdb.KeyIndex

variable {I K R : Type*}

section Entries

variable [DecidableEq K]

/-- Inserting an entry changes nothing when the key is bound. -/
def insertEntry (e : K → Option I) (k : K) (i : I) : K → Option I :=
  if (e k).isSome then e else Function.update e k (some i)

def deleteEntry (e : K → Option I) (k : K) : K → Option I := Function.update e k none

variable {e : K → Option I} {i j : I} {k k' : K}

theorem insertEntry_eq_some_iff :
    insertEntry e k i k' = some j ↔ e k' = some j ∨ k' = k ∧ e k = none ∧ j = i := by
  unfold insertEntry
  split
  · rename_i h
    have hne : e k ≠ none := Option.isSome_iff_ne_none.1 h
    simp [hne]
  · rename_i h
    have hnone : e k = none := Option.not_isSome_iff_eq_none.1 h
    by_cases hk : k' = k
    · subst hk
      simp [hnone, eq_comm]
    · simp [hk]

theorem deleteEntry_eq_some_iff : deleteEntry e k k' = some j ↔ k' ≠ k ∧ e k' = some j := by
  unfold deleteEntry
  by_cases hk : k' = k
  · simp [hk]
  · simp [hk]

theorem deleteEntry_self : deleteEntry e k k = none := Function.update_self ..

end Entries

/-! ## Rows -/

/-- The row `i` has the key `k`. -/
def HasKey (key : R → K) (m : I → Option R) (i : I) (k : K) : Prop := ∃ r, m i = some r ∧ key r = k

/-- The entries are exactly the keys of the rows. -/
def Indexes (key : R → K) (m : I → Option R) (e : K → Option I) : Prop :=
  ∀ k i, e k = some i ↔ HasKey key m i k

/-- What the index finds is there. -/
def Sound (key : R → K) (m : I → Option R) (e : K → Option I) : Prop :=
  ∀ k i, e k = some i → HasKey key m i k

/-- The index finds `i` under `k`, and no other row has the key `k`. -/
def Owns (key : R → K) (m : I → Option R) (e : K → Option I) (i : I) (k : K) : Prop :=
  e k = some i ∧ ∀ j, HasKey key m j k → j = i

/-- The entries `e'` are sound and have those of `e` that belong to rows with a key of their own. -/
def Covers (key : R → K) (m : I → Option R) (e e' : K → Option I) : Prop :=
  Sound key m e' ∧ ∀ i k, Owns key m e i k → e' k = some i

variable {key : R → K} {m : I → Option R} {e e' : K → Option I} {i j : I} {k k' : K} {r r' : R}

theorem HasKey.key_eq (h : HasKey key m i k) (hr : m i = some r) : key r = k := by
  obtain ⟨r', hr', rfl⟩ := h
  rw [hr] at hr'
  cases hr'
  rfl

theorem hasKey_of_row (hr : m i = some r) : HasKey key m i (key r) := ⟨r, hr, rfl⟩

theorem Indexes.sound (h : Indexes key m e) : Sound key m e := fun k i => (h k i).1

/-- No two rows share a key. -/
theorem Indexes.unique (h : Indexes key m e) (hi : HasKey key m i k) (hj : HasKey key m j k) :
    j = i := by
  have := ((h k i).2 hi).symm.trans ((h k j).2 hj)
  exact (Option.some.inj this).symm

theorem Indexes.owns (h : Indexes key m e) (hk : e k = some i) : Owns key m e i k :=
  ⟨hk, fun _ hj => h.unique ((h k i).1 hk) hj⟩

theorem Sound.covers (h : Sound key m e) : Covers key m e e := ⟨h, fun _ _ hown => hown.1⟩

/-- Sound entries that cover exact ones are equal to them. -/
theorem Indexes.eq_of_covers (h : Indexes key m e) (hc : Covers key m e e') : e' = e := by
  funext k
  ext i
  constructor
  · intro hi
    exact (h k i).2 (hc.1 k i hi)
  · intro hi
    exact hc.2 i k (h.owns hi)

section SingleRows

variable [DecidableEq I]

theorem hasKey_update : HasKey key (Function.update m i (some r)) j k ↔
    j = i ∧ key r = k ∨ j ≠ i ∧ HasKey key m j k := by
  unfold HasKey
  by_cases hj : j = i
  · simp [hj]
  · simp [hj]

theorem hasKey_update_none : HasKey key (Function.update m i none) j k ↔ j ≠ i ∧
    HasKey key m j k := by
  unfold HasKey
  by_cases hj : j = i
  · simp [hj]
  · simp [hj]

/-! ## Exact indexes -/

variable [DecidableEq K]

theorem Indexes.insert (h : Indexes key m e) (hi : m i = none) (hk : e (key r) = none) :
    Indexes key (Function.update m i (some r)) (insertEntry e (key r) i) := by
  intro k j
  rw [insertEntry_eq_some_iff, hasKey_update, h k j]
  have hnot : HasKey key m j k → j ≠ i := by
    rintro ⟨r', hr', -⟩ rfl
    rw [hi] at hr'
    cases hr'
  constructor
  · rintro (hj | ⟨rfl, -, rfl⟩)
    · exact .inr ⟨hnot hj, hj⟩
    · exact .inl ⟨rfl, rfl⟩
  · rintro (⟨rfl, rfl⟩ | ⟨-, hj⟩)
    · exact .inr ⟨rfl, hk, rfl⟩
    · exact .inl hj

theorem Indexes.delete (h : Indexes key m e) (hi : m i = some r) :
    Indexes key (Function.update m i none) (deleteEntry e (key r)) := by
  intro k j
  rw [deleteEntry_eq_some_iff, hasKey_update_none, h k j]
  constructor
  · rintro ⟨hk, hj⟩
    refine ⟨?_, hj⟩
    rintro rfl
    exact hk (hj.key_eq hi).symm
  · rintro ⟨hji, hj⟩
    refine ⟨?_, hj⟩
    rintro rfl
    exact hji (h.unique (hasKey_of_row hi) hj)

/-- A row gets a key that no other row has. -/
theorem Indexes.replace (h : Indexes key m e) (hi : m i = some r)
    (hfree : ∀ j, HasKey key m j (key r') → j = i) :
    Indexes key (Function.update m i (some r'))
      (insertEntry (deleteEntry e (key r)) (key r') i) := by
  intro k j
  rw [insertEntry_eq_some_iff, deleteEntry_eq_some_iff, hasKey_update, h k j]
  constructor
  · rintro (⟨hk, hj⟩ | ⟨rfl, -, rfl⟩)
    · refine .inr ⟨?_, hj⟩
      rintro rfl
      exact hk (hj.key_eq hi).symm
    · exact .inl ⟨rfl, rfl⟩
  · rintro (⟨rfl, rfl⟩ | ⟨hji, hj⟩)
    · refine .inr ⟨rfl, ?_, rfl⟩
      by_contra hne
      obtain ⟨x, hx⟩ := Option.ne_none_iff_exists'.1 hne
      obtain ⟨hkk, hx⟩ := deleteEntry_eq_some_iff.1 hx
      have hx := (h _ x).1 hx
      obtain rfl := hfree x hx
      exact hkk (hx.key_eq hi).symm
    · refine .inl ⟨?_, hj⟩
      rintro rfl
      exact hji (h.unique (hasKey_of_row hi) hj)

/-! ## Sound indexes -/

theorem Sound.insert (h : Sound key m e) (hi : m i = none) :
    Sound key (Function.update m i (some r)) (insertEntry e (key r) i) := by
  intro k j hk
  rw [hasKey_update]
  rcases insertEntry_eq_some_iff.1 hk with hold | ⟨rfl, -, rfl⟩
  · refine .inr ⟨?_, h k j hold⟩
    rintro rfl
    obtain ⟨r', hr', -⟩ := h k j hold
    rw [hi] at hr'
    cases hr'
  · exact .inl ⟨rfl, rfl⟩

theorem Sound.delete (h : Sound key m e) (hi : m i = some r) :
    Sound key (Function.update m i none) (deleteEntry e (key r)) := by
  intro k j hk
  obtain ⟨hne, hk⟩ := deleteEntry_eq_some_iff.1 hk
  refine hasKey_update_none.2 ⟨?_, h k j hk⟩
  rintro rfl
  exact hne ((h k j hk).key_eq hi).symm

theorem Sound.replace (h : Sound key m e) (hi : m i = some r) :
    Sound key (Function.update m i (some r'))
      (insertEntry (deleteEntry e (key r)) (key r') i) := by
  intro k j hk
  rw [hasKey_update]
  rcases insertEntry_eq_some_iff.1 hk with hold | ⟨rfl, -, rfl⟩
  · obtain ⟨hne, hold⟩ := deleteEntry_eq_some_iff.1 hold
    refine .inr ⟨?_, h k j hold⟩
    rintro rfl
    exact hne ((h k j hold).key_eq hi).symm
  · exact .inl ⟨rfl, rfl⟩

/-! ## Undoing single rows -/

theorem Covers.undo_insert (hk : e (key r) = none)
    (h : Covers key (Function.update m i (some r)) (insertEntry e (key r) i) e') :
    Covers key m e (deleteEntry e' (key r)) := by
  constructor
  · intro k j hj
    obtain ⟨hne, hj⟩ := deleteEntry_eq_some_iff.1 hj
    rcases hasKey_update.1 (h.1 k j hj) with ⟨-, rfl⟩ | ⟨-, hj⟩
    · exact absurd rfl hne
    · exact hj
  · rintro j k ⟨hj, huniq⟩
    have hne : k ≠ key r := by
      rintro rfl
      rw [hk] at hj
      cases hj
    refine deleteEntry_eq_some_iff.2 ⟨hne, h.2 j k ⟨?_, fun x hx => ?_⟩⟩
    · exact insertEntry_eq_some_iff.2 (.inl hj)
    · rcases hasKey_update.1 hx with ⟨-, rfl⟩ | ⟨-, hx⟩
      · exact absurd rfl hne
      · exact huniq x hx

theorem Covers.undo_delete (hi : m i = some r)
    (h : Covers key (Function.update m i none) (deleteEntry e (key r)) e') :
    Covers key m e (insertEntry e' (key r) i) := by
  constructor
  · intro k j hj
    rcases insertEntry_eq_some_iff.1 hj with hj | ⟨rfl, -, rfl⟩
    · exact (hasKey_update_none.1 (h.1 k j hj)).2
    · exact hasKey_of_row hi
  · rintro j k ⟨hj, huniq⟩
    rw [insertEntry_eq_some_iff]
    by_cases hk : k = key r
    · subst hk
      obtain rfl := huniq i (hasKey_of_row hi)
      -- no other row has the key, so the entry was free
      cases hx : e' (key r) with
      | none => exact .inr ⟨rfl, rfl, rfl⟩
      | some x =>
        obtain ⟨hxi, hx⟩ := hasKey_update_none.1 (h.1 _ x hx)
        exact absurd (huniq x hx) hxi
    · refine .inl (h.2 j k ⟨deleteEntry_eq_some_iff.2 ⟨hk, hj⟩, fun x hx => ?_⟩)
      exact huniq x (hasKey_update_none.1 hx).2

end SingleRows

/-! ## Replacing many rows

The rows are replaced one after the other, after a check of all new keys against the entries before
the first.  The check does not compare the new keys with each other, so rows may come to share a key
and the entry of the later one is ignored. -/

/-- Replacing the row `row` by `new`, which was `old`. -/
structure Change (I R : Type*) where
  row : I
  old : R
  new : R

namespace Change

section Definitions

variable [DecidableEq I] [DecidableEq K]

def applyRow (m : I → Option R) (c : Change I R) : I → Option R :=
  Function.update m c.row (some c.new)

def applyEntry (key : R → K) (e : K → Option I) (c : Change I R) : K → Option I :=
  insertEntry (deleteEntry e (key c.old)) (key c.new) c.row

/-- The rows after the changes `l`. -/
def rows (m : I → Option R) (l : List (Change I R)) : I → Option R := l.foldl applyRow m

/-- The entries after the changes `l`. -/
def entries (key : R → K) (e : K → Option I) (l : List (Change I R)) : K → Option I :=
  l.foldl (applyEntry key) e

end Definitions

/-- The changes concern distinct rows that are there. -/
structure Valid (m : I → Option R) (l : List (Change I R)) : Prop where
  nodup : (l.map row).Nodup
  old : ∀ c ∈ l, m c.row = some c.old

/-- No new key belonged to another row. -/
structure Checked (key : R → K) (m : I → Option R) (e : K → Option I) (l : List (Change I R)) : Prop
    extends Valid m l where
  free : ∀ c ∈ l, ∀ i, e (key c.new) = some i → i = c.row

variable {l : List (Change I R)} {c : Change I R}

section Snoc

variable [DecidableEq K]

theorem entries_snoc : entries key e (l ++ [c]) = applyEntry key (entries key e l) c := by
  simp [entries]

end Snoc

theorem Valid.of_append {l' : List (Change I R)} (h : Valid m (l ++ l')) : Valid m l :=
  ⟨(List.nodup_append.1 (List.map_append ▸ h.nodup)).1, fun c hc =>
    h.old c (List.mem_append_left _ hc)⟩

theorem Valid.not_mem (h : Valid m (l ++ [c])) : c.row ∉ l.map row := by
  have hnodup := h.nodup
  rw [List.map_append, List.nodup_append] at hnodup
  exact fun hc => hnodup.2.2 c.row hc c.row List.mem_cons_self rfl

theorem Checked.of_append {l' : List (Change I R)} (h : Checked key m e (l ++ l')) :
    Checked key m e l :=
  ⟨h.toValid.of_append, fun c hc => h.free c (List.mem_append_left _ hc)⟩

variable [DecidableEq I]

theorem rows_snoc : rows m (l ++ [c]) = applyRow (rows m l) c := by
  simp [rows]

theorem rows_of_not_mem (h : i ∉ l.map row) : rows m l i = m i := by
  induction l using List.reverseRecOn with
  | nil => rfl
  | append_singleton l c ih =>
    rw [List.map_append, List.mem_append, not_or, List.map_singleton, List.mem_singleton] at h
    rw [rows_snoc, applyRow, Function.update_of_ne h.2, ih h.1]

/-- Before its change a row is as it was. -/
theorem Valid.row (h : Valid m (l ++ [c])) : rows m l c.row = some c.old := by
  rw [rows_of_not_mem h.not_mem]
  exact h.old c (List.mem_append_right _ List.mem_cons_self)

/-- After its change a row is the new one. -/
theorem Valid.rows_of_mem (h : Valid m l) (hc : c ∈ l) : rows m l c.row = some c.new := by
  induction l using List.reverseRecOn with
  | nil => exact absurd hc List.not_mem_nil
  | append_singleton l c' ih =>
    rw [rows_snoc, applyRow]
    rcases List.mem_append.1 hc with hc | hc
    · have hne : c.row ≠ c'.row := fun heq => h.not_mem (heq ▸ List.mem_map_of_mem hc)
      rw [Function.update_of_ne hne, ih h.of_append hc]
    · rw [List.mem_singleton.1 hc, Function.update_self]

/-- The key of a row is a new one or the one it had. -/
theorem hasKey_rows (h : HasKey key (rows m l) j k) :
    (∃ c ∈ l, c.row = j ∧ key c.new = k) ∨ HasKey key m j k ∧ j ∉ l.map row := by
  induction l using List.reverseRecOn with
  | nil => exact .inr ⟨h, List.not_mem_nil⟩
  | append_singleton l c ih =>
    rw [rows_snoc, applyRow, hasKey_update] at h
    rcases h with ⟨rfl, rfl⟩ | ⟨hne, h⟩
    · exact .inl ⟨c, List.mem_append_right _ List.mem_cons_self, rfl, rfl⟩
    · rcases ih h with ⟨c', hc', hrow, hkey⟩ | ⟨h, hnot⟩
      · exact .inl ⟨c', List.mem_append_left _ hc', hrow, hkey⟩
      · refine .inr ⟨h, ?_⟩
        rw [List.map_append, List.mem_append, not_or]
        exact ⟨hnot, by simpa using hne⟩

variable {same : R → R → Prop}

/-- The changes `l` leave the key of the row `i` as it is written. -/
def Keeps (same : R → R → Prop) (l : List (Change I R)) (i : I) : Prop :=
  ∀ c ∈ l, c.row = i → same c.old c.new

/-- The entries `e'` are sound after the changes `l`, and have those of the entries `e` before the
changes that belong to a row with a key of its own which the changes leave alone. -/
def CoversAfter (key : R → K) (same : R → R → Prop) (m : I → Option R) (e : K → Option I)
    (l : List (Change I R)) (e' : K → Option I) : Prop :=
  Sound key (rows m l) e' ∧ ∀ i k, Owns key m e i k → Keeps same l i → e' k = some i

theorem CoversAfter.covers (h : CoversAfter key same m e [] e') : Covers key m e e' :=
  ⟨h.1, fun i k hown => h.2 i k hown fun _ hc => absurd hc List.not_mem_nil⟩

variable [DecidableEq K]

/-- With new keys that differ from row to row, an exact index stays exact. -/
theorem Checked.indexes (h : Checked key m e l) (he : Indexes key m e)
    (hkeys : ∀ c ∈ l, ∀ c' ∈ l, key c.new = key c'.new → c.row = c'.row) :
    Indexes key (rows m l) (entries key e l) := by
  induction l using List.reverseRecOn with
  | nil => exact he
  | append_singleton l c ih =>
    have hl := fun c' (hc' : c' ∈ l) => List.mem_append_left [c] hc'
    have hc : c ∈ l ++ [c] := List.mem_append_right _ List.mem_cons_self
    rw [rows_snoc, entries_snoc]
    have ih := ih h.of_append fun c₁ h₁ c₂ h₂ => hkeys c₁ (hl c₁ h₁) c₂ (hl c₂ h₂)
    refine ih.replace h.row fun j hj => ?_
    rcases hasKey_rows hj with ⟨c', hc', rfl, hkey⟩ | ⟨hj, -⟩
    · exact hkeys c' (hl c' hc') c hc hkey
    · exact h.free c hc j ((he _ j).2 hj)

theorem Checked.sound (h : Checked key m e l) (he : Sound key m e) :
    Sound key (rows m l) (entries key e l) := by
  induction l using List.reverseRecOn with
  | nil => exact he
  | append_singleton l c ih =>
    rw [rows_snoc, entries_snoc]
    exact (ih h.of_append).replace h.row

/-! ### Undoing the changes -/

/-- How a change is undone in the index: nothing is done when the keys of the two rows are written
in the same way. -/
def undoEntry (key : R → K) (same : R → R → Prop) [DecidableRel same] (c : Change I R)
    (e : K → Option I) : K → Option I :=
  if same c.old c.new then e else insertEntry (deleteEntry e (key c.new)) (key c.old) c.row

/-- A row with a key of its own keeps it while it is not given another one. -/
theorem Checked.owns (hsame : ∀ r r', same r r' → key r = key r') (h : Checked key m e l)
    (hown : Owns key m e i k) (hkeep : Keeps same l i) :
    Owns key (rows m l) (entries key e l) i k := by
  constructor
  · induction l using List.reverseRecOn with
    | nil => exact hown.1
    | append_singleton l c ih =>
      have hc : c ∈ l ++ [c] := List.mem_append_right _ List.mem_cons_self
      rw [entries_snoc, applyEntry, insertEntry_eq_some_iff]
      by_cases hk : k = key c.old
      · subst hk
        have hrow : c.row = i := hown.2 c.row (hasKey_of_row (h.old c hc))
        have hkey := hsame _ _ (hkeep c hc hrow)
        exact .inr ⟨hkey, hkey ▸ deleteEntry_self, hrow.symm⟩
      · refine .inl (deleteEntry_eq_some_iff.2 ⟨hk, ih h.of_append fun c' hc' => ?_⟩)
        exact hkeep c' (List.mem_append_left _ hc')
  · intro j hj
    rcases hasKey_rows hj with ⟨c, hc, rfl, rfl⟩ | ⟨hj, -⟩
    · exact (h.free c hc i hown.1).symm
    · exact hown.2 j hj

/-- Entries that cover those after the changes. -/
theorem Checked.coversAfter (hsame : ∀ r r', same r r' → key r = key r') (h : Checked key m e l)
    (hc : Covers key (rows m l) (entries key e l) e') :
    CoversAfter key same m e l e' := by
  refine ⟨hc.1, fun i k hown hkeep => hc.2 i k ?_⟩
  exact h.owns hsame hown hkeep

/-- A change that reached the index and not the row, and keeps the key. -/
theorem Checked.coversAfter_half (hsame : ∀ r r', same r r' → key r = key r')
    (h : Checked key m e (l ++ [c])) (he : Sound key m e) (hkey : key c.new = key c.old) :
    CoversAfter key same m e l (applyEntry key (entries key e l) c) := by
  have hl := h.of_append
  have hrow : HasKey key (rows m l) c.row (key c.old) := hasKey_of_row h.row
  unfold applyEntry
  rw [hkey]
  refine ⟨fun k j hj => ?_, fun i k hown hkeep => ?_⟩
  · rcases insertEntry_eq_some_iff.1 hj with hj | ⟨rfl, -, rfl⟩
    · exact hl.sound he k j (deleteEntry_eq_some_iff.1 hj).2
    · exact hrow
  · have hown := hl.owns hsame hown hkeep
    rw [insertEntry_eq_some_iff]
    by_cases hk : k = key c.old
    · subst hk
      exact .inr ⟨rfl, deleteEntry_self, (hown.2 _ hrow).symm⟩
    · exact .inl (deleteEntry_eq_some_iff.2 ⟨hk, hown.1⟩)

/-- Undoing the last change. -/
theorem CoversAfter.undo [DecidableRel same] (hsame : ∀ r r', same r r' → key r = key r')
    (he : Sound key m e)
    (hl : Checked key m e (l ++ [c])) (h : CoversAfter key same m e (l ++ [c]) e') :
    CoversAfter key same m e l (undoEntry key same c e') := by
  obtain ⟨hs, hown⟩ := h
  have hc : c ∈ l ++ [c] := List.mem_append_right _ List.mem_cons_self
  have hrow := hl.row
  rw [rows_snoc, applyRow] at hs
  have hkeeps {i : I} (hi : Keeps same l i) (hne : c.row = i → same c.old c.new) :
      Keeps same (l ++ [c]) i := by
    intro c' hc' hrow'
    rcases List.mem_append.1 hc' with hc' | hc'
    · exact hi c' hc' hrow'
    · rw [List.mem_singleton.1 hc'] at hrow' ⊢
      exact hne hrow'
  unfold undoEntry
  split
  · rename_i hkey
    refine ⟨fun k j hj => ?_, fun i k hi hkeep => hown i k hi (hkeeps hkeep fun _ => hkey)⟩
    rcases hasKey_update.1 (hs k j hj) with ⟨rfl, rfl⟩ | ⟨-, hj⟩
    · rw [← hsame _ _ hkey]
      exact hasKey_of_row hrow
    · exact hj
  · refine ⟨fun k j hj => ?_, fun i k hi hkeep => ?_⟩
    · rcases insertEntry_eq_some_iff.1 hj with hj | ⟨rfl, -, rfl⟩
      · obtain ⟨hne, hj⟩ := deleteEntry_eq_some_iff.1 hj
        rcases hasKey_update.1 (hs k j hj) with ⟨-, rfl⟩ | ⟨-, hj⟩
        · exact absurd rfl hne
        · exact hj
      · exact hasKey_of_row hrow
    · rw [insertEntry_eq_some_iff]
      by_cases hrow' : c.row = i
      · -- the row itself: its old key is free, for nobody else has it or was given it
        subst hrow'
        have hk : k = key c.old := ((he k _ hi.1).key_eq (hl.old c hc)).symm
        subst hk
        cases hx : deleteEntry e' (key c.new) (key c.old) with
        | none => exact .inr ⟨rfl, rfl, rfl⟩
        | some x =>
          obtain ⟨hne, hx⟩ := deleteEntry_eq_some_iff.1 hx
          rcases hasKey_update.1 (hs _ x hx) with ⟨-, hkey⟩ | ⟨hx', hx⟩
          · exact absurd hkey.symm hne
          · rcases hasKey_rows hx with ⟨c', hc', rfl, hkey⟩ | ⟨hx, -⟩
            · rw [← hkey] at hi
              exact absurd (hl.free c' (List.mem_append_left _ hc') _ hi.1).symm hx'
            · exact absurd (hi.2 x hx) hx'
      · refine .inl (deleteEntry_eq_some_iff.2
          ⟨?_, hown i k hi (hkeeps hkeep fun h => absurd h hrow')⟩)
        rintro rfl
        exact hrow' (hl.free c hc i hi.1).symm

end Change

end Rmdb.KeyIndex
