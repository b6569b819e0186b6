import Rmdb.Execution.Meta
import Rmdb.Transaction.GapLocks

/-!
# A table with one index, and undoing its changes

The records of a table and the pairs that its index holds are kept apart, since a statement does not
change them together: an `UPDATE` rewrites the index entries of a record before it asks for the lock
of the record.  `insert_entry` leaves an index alone that binds the key already, and `delete_entry`
takes away whatever the key is bound to.

As long as no two records have the same key the index has exactly one entry for each record, and
undoing the changes of a transaction, the newest first, brings back the records and their entries.
-/

namespace Rmdb

/-- The table and its index. -/
structure RangeTarget where
  index : IndexMeta
  tabFd : ℤ

namespace RangeTarget

variable (tgt : RangeTarget)

def keyOf (rec : Bytes) : Bytes := buildIndexKey tgt.index rec

def inRange (rec : Bytes) (r : GapRange) : Bool :=
  keyInGapRange (indexColMeta tgt.index) (tgt.keyOf rec) r

/-- `ix_compare` takes the keys for one. -/
def sameKey (key key' : Bytes) : Bool := ixCompare (indexColMeta tgt.index) key key' == .eq

theorem sameKey_self (key : Bytes) : tgt.sameKey key key = true := by
  have hcomm := ixCompare_swap (indexColMeta tgt.index) key key
  unfold sameKey
  cases h : ixCompare (indexColMeta tgt.index) key key <;> rw [h] at hcomm <;> simp_all

theorem sameKey_comm (key key' : Bytes) : tgt.sameKey key key' = tgt.sameKey key' key :=
  GapLock.clash_comm (indexColMeta tgt.index) (.point key) (.point key')

end RangeTarget

/-- A record before and after a change.  As a write record it is an `INSERT_TUPLE` when there is no
old record, a `DELETE_TUPLE` when there is no new one, and an `UPDATE_TUPLE` otherwise. -/
structure RowChange where
  rid : Rid
  old : Option Bytes
  new : Option Bytes
deriving DecidableEq, Repr

/-- The records of the table, and the pairs in its index. -/
structure RangeTable where
  rows : Rid → Option Bytes
  entries : List (Bytes × Rid)

namespace RangeTable

variable (tgt : RangeTarget)

/-! ## Changes -/

/-- `insert_entry`. -/
def insertEntry (tab : RangeTable) (key : Bytes) (rid : Rid) : RangeTable :=
  if tab.entries.any fun e => tgt.sameKey e.1 key then tab
  else { tab with entries := (key, rid) :: tab.entries }

/-- `delete_entry`. -/
def deleteEntry (tab : RangeTable) (key : Bytes) : RangeTable :=
  { tab with entries := tab.entries.filter fun e => !tgt.sameKey e.1 key }

def setRow (tab : RangeTable) (rid : Rid) (rec : Option Bytes) : RangeTable :=
  { tab with rows := Function.update tab.rows rid rec }

/-- The index entry of the old record goes and that of the new one comes. -/
def rekey (tab : RangeTable) (c : RowChange) : RangeTable :=
  let tab := match c.old with
    | some old => tab.deleteEntry tgt (tgt.keyOf old)
    | none => tab
  match c.new with
  | some new => tab.insertEntry tgt (tgt.keyOf new) c.rid
  | none => tab

/-- A change of a record and of its index entry. -/
def change (tab : RangeTable) (c : RowChange) : RangeTable := (tab.rekey tgt c).setRow c.rid c.new

def applyChanges (tab : RangeTable) (changes : List RowChange) : RangeTable :=
  changes.foldl (change tgt) tab

/-- `undo_write_record`. -/
def undoWrite (tab : RangeTable) (w : RowChange) : RangeTable :=
  match w.old, w.new, tab.rows w.rid with
  | none, _, some rec => (tab.deleteEntry tgt (tgt.keyOf rec)).setRow w.rid none
  | some rec, none, _ => (tab.setRow w.rid (some rec)).insertEntry tgt (tgt.keyOf rec) w.rid
  | some old, some _, some cur =>
    (if tgt.keyOf old ≠ tgt.keyOf cur then
      (tab.deleteEntry tgt (tgt.keyOf cur)).insertEntry tgt (tgt.keyOf old) w.rid
    else tab).setRow w.rid (some old)
  | _, _, _ => tab

/-- Undoing the writes, the newest first. -/
def undoWrites (tab : RangeTable) (writeSet : List RowChange) : RangeTable :=
  writeSet.foldl (undoWrite tgt) tab

/-- A scan of the range by the index comes by the record. -/
def Finds (tab : RangeTable) (r : GapRange) (rid : Rid) : Prop :=
  ∃ key, (key, rid) ∈ tab.entries ∧ keyInGapRange (indexColMeta tgt.index) key r = true

/-- Such a scan gives the record. -/
def Gives (tab : RangeTable) (r : GapRange) (rid : Rid) (rec : Bytes) : Prop :=
  tab.Finds tgt r rid ∧ tab.rows rid = some rec

/-! ## The records -/

def applyRows (rows : Rid → Option Bytes) (changes : List RowChange) : Rid → Option Bytes :=
  changes.foldl (fun rows c => Function.update rows c.rid c.new) rows

def undoRows (rows : Rid → Option Bytes) (writeSet : List RowChange) : Rid → Option Bytes :=
  writeSet.foldl (fun rows w => Function.update rows w.rid w.old) rows

@[simp]
theorem rows_insertEntry (tab : RangeTable) (key : Bytes) (rid : Rid) :
    (tab.insertEntry tgt key rid).rows = tab.rows := by
  unfold insertEntry
  split_ifs <;> rfl

@[simp]
theorem rows_deleteEntry (tab : RangeTable) (key : Bytes) :
    (tab.deleteEntry tgt key).rows = tab.rows :=
  rfl

theorem entries_insertEntry_setRow (tab : RangeTable) (key : Bytes) (rid rid' : Rid)
    (rec : Option Bytes) :
    ((tab.setRow rid rec).insertEntry tgt key rid').entries =
    (tab.insertEntry tgt key rid').entries := by
  unfold insertEntry setRow
  cases tab.entries.any fun e => tgt.sameKey e.1 key <;> rfl

@[simp]
theorem rows_rekey (tab : RangeTable) (c : RowChange) : (tab.rekey tgt c).rows = tab.rows := by
  obtain ⟨rid, old, new⟩ := c
  cases old <;> cases new <;> simp [rekey]

@[simp]
theorem rows_change (tab : RangeTable) (c : RowChange) :
    (tab.change tgt c).rows = Function.update tab.rows c.rid c.new := by
  rw [change, setRow, rows_rekey]

theorem rows_applyChanges (tab : RangeTable) (changes : List RowChange) :
    (tab.applyChanges tgt changes).rows = applyRows tab.rows changes := by
  induction changes generalizing tab with
  | nil => rfl
  | cons c changes ih =>
    refine (ih (tab.change tgt c)).trans ?_
    rw [rows_change]
    rfl

theorem applyRows_of_notMem (rows : Rid → Option Bytes) {changes : List RowChange} {rid : Rid}
    (h : rid ∉ changes.map (·.rid)) : applyRows rows changes rid = rows rid := by
  induction changes generalizing rows with
  | nil => rfl
  | cons c changes ih =>
    rw [List.map_cons, List.mem_cons, not_or] at h
    rw [applyRows, List.foldl_cons]
    exact (ih _ h.2).trans (Function.update_of_ne h.1 _ _)

theorem applyRows_of_mem (rows : Rid → Option Bytes) {changes : List RowChange}
    (hnodup : (changes.map (·.rid)).Nodup) {c : RowChange} (hc : c ∈ changes) :
    applyRows rows changes c.rid = c.new := by
  induction changes generalizing rows with
  | nil => cases hc
  | cons c' changes ih =>
    rw [List.map_cons, List.nodup_cons] at hnodup
    rw [applyRows, List.foldl_cons]
    rcases List.mem_cons.1 hc with rfl | hc
    · exact (applyRows_of_notMem _ hnodup.1).trans (Function.update_self ..)
    · exact ih _ hnodup.2 hc

/-- An undone record has the old value of one of the writes. -/
theorem undoRows_cases (rows : Rid → Option Bytes) (writeSet : List RowChange) (rid : Rid) :
    (rid ∉ writeSet.map (·.rid) ∧ undoRows rows writeSet rid = rows rid) ∨
      ∃ w ∈ writeSet, w.rid = rid ∧ undoRows rows writeSet rid = w.old := by
  induction writeSet generalizing rows with
  | nil => exact Or.inl ⟨by simp, rfl⟩
  | cons w writeSet ih =>
    have hcons : undoRows rows (w :: writeSet) =
      undoRows (Function.update rows w.rid w.old) writeSet := rfl
    rw [hcons]
    rcases ih (Function.update rows w.rid w.old) with ⟨hn, heq⟩ | ⟨w', hw', hrid, heq⟩
    · by_cases hr : rid = w.rid
      · subst hr
        refine Or.inr ⟨w, List.mem_cons_self, rfl, ?_⟩
        rw [heq, Function.update_self]
      · refine Or.inl ⟨?_, by rw [heq, Function.update_of_ne hr]⟩
        rw [List.map_cons, List.mem_cons, not_or]
        exact ⟨hr, hn⟩
    · exact Or.inr ⟨w', List.mem_cons_of_mem _ hw', hrid, heq⟩

/-! ## Exact indexes -/

/-- No record but the one at `rid` has the key of `rec`. -/
def Free (rows : Rid → Option Bytes) (rid : Rid) (rec : Bytes) : Prop :=
  ∀ rid' rec', rows rid' = some rec' → rid' ≠ rid →
    tgt.sameKey (tgt.keyOf rec') (tgt.keyOf rec) = false

/-- No two records have the same key. -/
def Distinct (rows : Rid → Option Bytes) : Prop :=
  ∀ rid rec, rows rid = some rec → Free tgt rows rid rec

/-- The index binds the key of every record to it and nothing else, and no two records have the same
key. -/
structure Exact (tab : RangeTable) : Prop where
  mem : ∀ key rid, (key, rid) ∈ tab.entries ↔ ∃ rec, tab.rows rid = some rec ∧ tgt.keyOf rec = key
  distinct : Distinct tgt tab.rows

/-- No two of the changes lead to the same key. -/
def KeysApart (changes : List RowChange) : Prop :=
  changes.Pairwise fun c c' => ∀ new ∈ c.new, ∀ new' ∈ c'.new,
    tgt.sameKey (tgt.keyOf new) (tgt.keyOf new') = false

/-- What a writer checks: the changes are those of records that are there, and the index binds their
new keys to nothing but the records themselves. -/
structure Checked (tab : RangeTable) (changes : List RowChange) : Prop where
  old : ∀ c ∈ changes, tab.rows c.rid = c.old
  nodup : (changes.map (·.rid)).Nodup
  unique : ∀ c ∈ changes, ∀ new ∈ c.new, ∀ e ∈ tab.entries,
    tgt.sameKey e.1 (tgt.keyOf new) = true → c.old ≠ none ∧ e.2 = c.rid

instance (changes : List RowChange) : Decidable (KeysApart tgt changes) := by
  unfold KeysApart
  infer_instance

instance (tab : RangeTable) (changes : List RowChange) : Decidable (tab.Checked tgt changes) :=
  decidable_of_iff ((∀ c ∈ changes, tab.rows c.rid = c.old) ∧ (changes.map (·.rid)).Nodup ∧
      ∀ c ∈ changes, ∀ new ∈ c.new, ∀ e ∈ tab.entries,
        tgt.sameKey e.1 (tgt.keyOf new) = true → c.old ≠ none ∧ e.2 = c.rid)
    ⟨fun h => ⟨h.1, h.2.1, h.2.2⟩, fun h => ⟨h.old, h.nodup, h.unique⟩⟩

/-- The changes are those of the records that are there, to keys that no other record has or
gets. -/
structure Fits (rows : Rid → Option Bytes) (changes : List RowChange) : Prop where
  old : ∀ c ∈ changes, rows c.rid = c.old
  nodup : (changes.map (·.rid)).Nodup
  free : ∀ c ∈ changes, ∀ new, c.new = some new → Free tgt rows c.rid new
  apart : KeysApart tgt changes

/-- Undone one after the other, each write finds the record that it has left, and no other record
with its old key. -/
def Undoable (rows : Rid → Option Bytes) : List RowChange → Prop
  | [] => True
  | w :: ws => rows w.rid = w.new ∧ (∀ old, w.old = some old → Free tgt rows w.rid old) ∧
    Undoable (Function.update rows w.rid w.old) ws

variable {tgt} {tab : RangeTable} {rows rows' : Rid → Option Bytes}
  {changes writeSet : List RowChange}

theorem Distinct.update (h : Distinct tgt rows) {rid : Rid} {new : Option Bytes}
    (hfree : ∀ rec, new = some rec → Free tgt rows rid rec) :
    Distinct tgt (Function.update rows rid new) := by
  intro rid₁ rec₁ h₁ rid₂ rec₂ h₂ hne
  by_cases hr₁ : rid₁ = rid
  · subst hr₁
    rw [Function.update_self] at h₁
    rw [Function.update_of_ne hne] at h₂
    exact hfree rec₁ h₁ rid₂ rec₂ h₂ hne
  · rw [Function.update_of_ne hr₁] at h₁
    by_cases hr₂ : rid₂ = rid
    · subst hr₂
      rw [Function.update_self] at h₂
      rw [tgt.sameKey_comm]
      exact hfree rec₂ h₂ rid₁ rec₁ h₁ hr₁
    · rw [Function.update_of_ne hr₂] at h₂
      exact h rid₁ rec₁ h₁ rid₂ rec₂ h₂ hne

theorem Exact.finds_iff (h : tab.Exact tgt) {r : GapRange} {rid : Rid} :
    tab.Finds tgt r rid ↔ ∃ rec, tab.rows rid = some rec ∧ tgt.inRange rec r = true := by
  constructor
  · rintro ⟨key, hmem, hin⟩
    obtain ⟨rec, hrow, rfl⟩ := (h.mem key rid).1 hmem
    exact ⟨rec, hrow, hin⟩
  · rintro ⟨rec, hrow, hin⟩
    exact ⟨tgt.keyOf rec, (h.mem _ rid).2 ⟨rec, hrow, rfl⟩, hin⟩

theorem Exact.gives_iff (h : tab.Exact tgt) {r : GapRange} {rid : Rid} {rec : Bytes} :
    tab.Gives tgt r rid rec ↔ tab.rows rid = some rec ∧ tgt.inRange rec r = true := by
  unfold Gives
  rw [h.finds_iff]
  constructor
  · rintro ⟨⟨rec', hrow', hin⟩, hrow⟩
    obtain rfl := Option.some.inj (hrow.symm.trans hrow')
    exact ⟨hrow, hin⟩
  · rintro ⟨hrow, hin⟩
    exact ⟨⟨rec, hrow, hin⟩, hrow⟩

/-- What the writer checks keeps the new keys off those of the other records. -/
theorem Exact.fits (h : tab.Exact tgt) (hchecked : tab.Checked tgt changes)
    (hapart : KeysApart tgt changes) : Fits tgt tab.rows changes := by
  refine ⟨hchecked.old, hchecked.nodup, fun c hc new hnew rid rec hrow hne => ?_, hapart⟩
  refine Bool.eq_false_of_not_eq_true fun hkey => hne ?_
  exact (hchecked.unique c hc new hnew (tgt.keyOf rec, rid) ((h.mem _ _).2 ⟨rec, hrow, rfl⟩) hkey).2

/-- Deleting the key of a record takes its entry away and leaves those of the other records. -/
theorem Exact.mem_deleteEntry (h : tab.Exact tgt) {rid : Rid} {rec : Bytes}
    (hrow : tab.rows rid = some rec) {e : Bytes × Rid} :
    e ∈ (tab.deleteEntry tgt (tgt.keyOf rec)).entries ↔ e ∈ tab.entries ∧ e.2 ≠ rid := by
  obtain ⟨key, rid'⟩ := e
  simp only [deleteEntry, List.mem_filter, Bool.not_eq_true', ne_eq, and_congr_right_iff]
  intro hmem
  obtain ⟨rec', hrow', rfl⟩ := (h.mem key rid').1 hmem
  constructor
  · rintro hkey rfl
    obtain rfl := Option.some.inj (hrow.symm.trans hrow')
    rw [tgt.sameKey_self] at hkey
    cases hkey
  · intro hne
    exact h.distinct rid rec hrow rid' rec' hrow' hne

/-- A key that no entry has is entered. -/
theorem mem_insertEntry {key : Bytes} {rid : Rid}
    (hfree : ∀ e ∈ tab.entries, tgt.sameKey e.1 key = false) {e : Bytes × Rid} :
    e ∈ (tab.insertEntry tgt key rid).entries ↔ e = (key, rid) ∨ e ∈ tab.entries := by
  have hany : ¬ (tab.entries.any fun e => tgt.sameKey e.1 key) = true := by
    intro hany
    obtain ⟨e, he, hkey⟩ := List.any_eq_true.1 hany
    rw [hfree e he] at hkey
    cases hkey
  rw [insertEntry, if_neg hany]
  exact List.mem_cons

/-- The entries after those of one record have been rewritten. -/
theorem Exact.mem_rekey (h : tab.Exact tgt) {c : RowChange} (hold : tab.rows c.rid = c.old)
    (hfree : ∀ new, c.new = some new → Free tgt tab.rows c.rid new) {key : Bytes} {rid : Rid} :
    (key, rid) ∈ (tab.rekey tgt c).entries ↔
      (rid = c.rid ∧ c.new.map tgt.keyOf = some key) ∨
      (rid ≠ c.rid ∧ (key, rid) ∈ tab.entries) := by
  obtain ⟨rid₀, old, new⟩ := c
  dsimp only at hold hfree ⊢
  -- without its old entry the index has none for the record
  have hgone : ∃ t : RangeTable, tab.rekey tgt ⟨rid₀, old, none⟩ = t ∧
      (∀ e, e ∈ t.entries ↔ e ∈ tab.entries ∧ e.2 ≠ rid₀) := by
    refine ⟨_, rfl, fun e => ?_⟩
    cases old with
    | some old => exact h.mem_deleteEntry hold
    | none =>
      change e ∈ tab.entries ↔ _
      refine ⟨fun he => ⟨he, ?_⟩, And.left⟩
      rintro rfl
      obtain ⟨rec, hrow, -⟩ := (h.mem e.1 e.2).1 he
      rw [hold] at hrow
      cases hrow
  obtain ⟨t, ht, hmem⟩ := hgone
  cases new with
  | none =>
    rw [ht, hmem]
    simp [and_comm]
  | some new =>
    have hins : tab.rekey tgt ⟨rid₀, old, some new⟩ = t.insertEntry tgt (tgt.keyOf new) rid₀ := by
      rw [← ht]
      rfl
    have hnew : ∀ e ∈ t.entries, tgt.sameKey e.1 (tgt.keyOf new) = false := by
      rintro ⟨key', rid'⟩ he
      obtain ⟨he, hne⟩ := (hmem _).1 he
      obtain ⟨rec', hrow', rfl⟩ := (h.mem key' rid').1 he
      exact hfree new rfl rid' rec' hrow' hne
    rw [hins, mem_insertEntry hnew, hmem]
    simp only [Option.map_some, Option.some.injEq, Prod.mk.injEq]
    tauto

/-- A change to a key that is free keeps the index exact. -/
theorem Exact.change (h : tab.Exact tgt) {c : RowChange} (hold : tab.rows c.rid = c.old)
    (hfree : ∀ new, c.new = some new → Free tgt tab.rows c.rid new) :
    (tab.change tgt c).Exact tgt := by
  have hrows := rows_change tgt tab c
  have hentries : (tab.change tgt c).entries = (tab.rekey tgt c).entries := rfl
  constructor
  · intro key rid
    rw [hentries, h.mem_rekey hold hfree, hrows]
    by_cases hr : rid = c.rid
    · subst hr
      simp [Option.map_eq_some_iff]
    · rw [Function.update_of_ne hr, ← h.mem]
      simp [hr]
  · rw [hrows]
    exact h.distinct.update hfree

/-- An index with the same entries for the same records. -/
theorem Exact.congr {tab' : RangeTable} (h : tab.Exact tgt) (hrows : tab'.rows = tab.rows)
    (hmem : ∀ e, e ∈ tab'.entries ↔ e ∈ tab.entries) : tab'.Exact tgt where
  mem key rid := by rw [hmem, hrows, h.mem]
  distinct := by
    rw [hrows]
    exact h.distinct

/-! ## The changes of a statement -/

theorem Fits.tail {c : RowChange} (h : Fits tgt rows (c :: changes)) :
    Fits tgt (Function.update rows c.rid c.new) changes where
  old c' hc' := by
    have hne : c'.rid ≠ c.rid := fun heq =>
      (List.nodup_cons.1 h.nodup).1 (List.mem_map.2 ⟨c', hc', heq⟩)
    rw [Function.update_of_ne hne]
    exact h.old c' (List.mem_cons_of_mem _ hc')
  nodup := (List.nodup_cons.1 h.nodup).2
  free c' hc' new hnew rid rec hrow hne := by
    by_cases hr : rid = c.rid
    · subst hr
      rw [Function.update_self] at hrow
      exact (List.pairwise_cons.1 h.apart).1 c' hc' rec hrow new hnew
    · rw [Function.update_of_ne hr] at hrow
      exact h.free c' (List.mem_cons_of_mem _ hc') new hnew rid rec hrow hne
  apart := (List.pairwise_cons.1 h.apart).2

theorem Exact.applyChanges (h : tab.Exact tgt) (hfits : Fits tgt tab.rows changes) :
    (tab.applyChanges tgt changes).Exact tgt := by
  induction changes generalizing tab with
  | nil => exact h
  | cons c changes ih =>
    refine ih (h.change (hfits.old c List.mem_cons_self) (hfits.free c List.mem_cons_self)) ?_
    rw [rows_change]
    exact hfits.tail

/-- The changes of a statement can be undone, and before them what could be undone already. -/
theorem Undoable.applyRows (h : Undoable tgt rows writeSet)
    (hdistinct : Distinct tgt rows) (hfits : Fits tgt rows changes) :
    Undoable tgt (RangeTable.applyRows rows changes) (changes.reverse ++ writeSet) := by
  induction changes generalizing rows writeSet with
  | nil => exact h
  | cons c changes ih =>
    rw [List.reverse_cons, List.append_assoc]
    have hold := hfits.old c List.mem_cons_self
    have hback : Function.update (Function.update rows c.rid c.new) c.rid c.old = rows := by
      rw [Function.update_idem, ← hold, Function.update_eq_self]
    have hc : Undoable tgt (Function.update rows c.rid c.new) (c :: writeSet) := by
      refine ⟨Function.update_self .., fun old ho rid rec hrow hne => ?_, by rw [hback]; exact h⟩
      rw [Function.update_of_ne hne] at hrow
      exact hdistinct c.rid old (hold.trans ho) rid rec hrow hne
    exact ih hc (hdistinct.update (hfits.free c List.mem_cons_self)) hfits.tail

/-- Undoing the changes of a statement brings back the records. -/
theorem undoRows_applyRows (hfits : Fits tgt rows changes) :
    undoRows (applyRows rows changes) changes.reverse = rows := by
  induction changes generalizing rows with
  | nil => rfl
  | cons c changes ih =>
    rw [List.reverse_cons, undoRows, List.foldl_append]
    refine (congrArg (fun rows => Function.update rows c.rid c.old) (ih hfits.tail)).trans ?_
    rw [Function.update_idem, ← hfits.old c List.mem_cons_self, Function.update_eq_self]

/-! ## Undoing -/

/-- Undoing a write changes the record back. -/
theorem Exact.undoWrite (h : tab.Exact tgt) {w : RowChange} (hrow : tab.rows w.rid = w.new)
    (hfree : ∀ old, w.old = some old → Free tgt tab.rows w.rid old) :
    (tab.undoWrite tgt w).Exact tgt ∧
      (tab.undoWrite tgt w).rows = Function.update tab.rows w.rid w.old := by
  obtain ⟨rid, old, new⟩ := w
  dsimp only at hrow hfree ⊢
  have hback : (tab.change tgt ⟨rid, new, old⟩).Exact tgt := h.change hrow hfree
  have hmem (key : Bytes) (rid' : Rid) : (key, rid') ∈ (tab.rekey tgt ⟨rid, new, old⟩).entries ↔
      (rid' = rid ∧ old.map tgt.keyOf = some key) ∨ (rid' ≠ rid ∧ (key, rid') ∈ tab.entries) :=
    h.mem_rekey hrow hfree
  cases old with
  | none =>
    cases new with
    | none =>
      have hsame : tab.undoWrite tgt ⟨rid, none, none⟩ = tab := by
        simp only [RangeTable.undoWrite, hrow]
      rw [hsame]
      exact ⟨h, by rw [← hrow, Function.update_eq_self]⟩
    | some new =>
      have hsame : tab.undoWrite tgt ⟨rid, none, some new⟩ = tab.change tgt
          ⟨rid, some new, none⟩ := by
        simp only [RangeTable.undoWrite, hrow]
        rfl
      rw [hsame]
      exact ⟨hback, rfl⟩
  | some old =>
    cases new with
    | none =>
      have hrows : (tab.undoWrite tgt ⟨rid, some old, none⟩).rows =
          Function.update tab.rows rid (some old) := by
        simp only [RangeTable.undoWrite, rows_insertEntry]
        rfl
      refine ⟨hback.congr ?_ fun e => ?_, hrows⟩
      · rw [hrows, rows_change]
      · -- the record comes back before its entry
        have hentries : (tab.undoWrite tgt ⟨rid, some old, none⟩).entries =
            (tab.change tgt ⟨rid, none, some old⟩).entries := by
          simp only [RangeTable.undoWrite]
          exact entries_insertEntry_setRow ..
        rw [hentries]
    | some new =>
      by_cases hkey : tgt.keyOf old = tgt.keyOf new
      · have hsame : tab.undoWrite tgt ⟨rid, some old, some new⟩ = tab.setRow rid (some old) := by
          simp only [RangeTable.undoWrite, hrow, hkey, ne_eq, not_true_eq_false, if_false]
        rw [hsame]
        refine ⟨hback.congr ?_ fun e => ?_, rfl⟩
        · rw [rows_change]
          rfl
        · obtain ⟨key, rid'⟩ := e
          refine Iff.trans ?_ (hmem key rid').symm
          change (key, rid') ∈ tab.entries ↔ _
          rw [h.mem]
          by_cases hr : rid' = rid
          · subst hr
            simp [hrow, hkey]
          · simp [hr]
      · have hsame : tab.undoWrite tgt ⟨rid, some old, some new⟩ =
            tab.change tgt ⟨rid, some new, some old⟩ := by
          simp only [RangeTable.undoWrite, hrow, ne_eq, hkey, not_false_eq_true, if_true]
          rfl
        rw [hsame]
        exact ⟨hback, rows_change ..⟩

/-- Undoing what is undoable keeps the index exact. -/
theorem Exact.undoWrites (h : tab.Exact tgt) (hundo : Undoable tgt tab.rows writeSet) :
    (tab.undoWrites tgt writeSet).Exact tgt ∧
      (tab.undoWrites tgt writeSet).rows = undoRows tab.rows writeSet := by
  induction writeSet generalizing tab with
  | nil => exact ⟨h, rfl⟩
  | cons w writeSet ih =>
    obtain ⟨hrow, hfree, hrest⟩ := hundo
    obtain ⟨hexact, hrows⟩ := h.undoWrite hrow hfree
    rw [← hrows] at hrest
    obtain ⟨hexact', hrows'⟩ := ih hexact hrest
    refine ⟨hexact', hrows'.trans ?_⟩
    rw [hrows]
    rfl

/-- Changes of other records, to keys that are not among the old ones, leave the writes undoable. -/
theorem Undoable.congr (h : Undoable tgt rows writeSet)
    (hsame : ∀ w ∈ writeSet, rows' w.rid = rows w.rid)
    (hnew : ∀ w ∈ writeSet, ∀ old, w.old = some old → ∀ rid rec, rows' rid = some rec →
      rows rid ≠ some rec → tgt.sameKey (tgt.keyOf rec) (tgt.keyOf old) = false) :
    Undoable tgt rows' writeSet := by
  induction writeSet generalizing rows rows' with
  | nil => trivial
  | cons w writeSet ih =>
    obtain ⟨hrow, hfree, hrest⟩ := h
    refine ⟨(hsame w List.mem_cons_self).trans hrow, fun old ho rid rec hr hne => ?_,
      ih hrest (fun w' hw' => ?_) fun w' hw' old ho rid rec hr hr' => ?_⟩
    · by_cases hold : rows rid = some rec
      · exact hfree old ho rid rec hold hne
      · exact hnew w List.mem_cons_self old ho rid rec hr hold
    · by_cases heq : w'.rid = w.rid
      · rw [heq, Function.update_self, Function.update_self]
      · rw [Function.update_of_ne heq, Function.update_of_ne heq]
        exact hsame w' (List.mem_cons_of_mem _ hw')
    · by_cases heq : rid = w.rid
      · subst heq
        rw [Function.update_self] at hr hr'
        exact absurd hr hr'
      · rw [Function.update_of_ne heq] at hr hr'
        exact hnew w' (List.mem_cons_of_mem _ hw') old ho rid rec hr hr'

/-- An update whose record is not written yet has moved the entry of the record alone. -/
theorem Exact.rekey (h : tab.Exact tgt) {c : RowChange} (hold : tab.rows c.rid = c.old)
    (hkey : c.old.map tgt.keyOf = c.new.map tgt.keyOf) : (tab.rekey tgt c).Exact tgt := by
  have hfree : ∀ new, c.new = some new → Free tgt tab.rows c.rid new := by
    intro new hnew rid rec hrow hne
    rw [hnew, Option.map_some] at hkey
    obtain ⟨old, ho, hk⟩ := Option.map_eq_some_iff.1 hkey
    rw [← hk]
    exact h.distinct c.rid old (hold.trans ho) rid rec hrow hne
  refine h.congr (rows_rekey tgt tab c) fun ⟨key, rid⟩ => ?_
  rw [h.mem_rekey hold hfree, h.mem, ← hkey, ← hold, Option.map_eq_some_iff]
  by_cases hr : rid = c.rid
  · subst hr
    simp
  · simp [hr]

/-- Undoing such an update changes nothing. -/
theorem undoWrite_of_unwritten {old new : Bytes} {rid : Rid} (hold : tab.rows rid = some old) :
    tab.undoWrite tgt ⟨rid, some old, some new⟩ = tab := by
  simp only [undoWrite, hold, ne_eq, not_true_eq_false, if_false, setRow]
  rw [← hold, Function.update_eq_self]

end RangeTable

end Rmdb
