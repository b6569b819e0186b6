import Mathlib.Data.List.Basic
import Mathlib.Data.List.Nodup

/-!
# Undoing and redoing operations on one slot

A slot is an occupancy bit and a content.  Operations carry their before-image, as a log with
physical undo does: redoing an insertion sets bit and content, redoing an update only the content,
redoing a deletion only the bit; undoing is the mirror image.  So neither redo nor undo of an update
establishes the bit, and what a sequence of them leaves in a slot depends on the operations around
the updates.

A slot's history under strict two-phase locking is a list of blocks, one for each transaction that
wrote it.  `StrictHistory` says that every block starts from what the committed blocks before it
left.
-/

namespace Rmdb

variable {V T : Type*}

/-- What one slot holds: the content counts only where the slot is in use. -/
structure Slot (V : Type*) where
  used : Bool
  bytes : V

/-- The record in the slot. -/
def Slot.val (s : Slot V) : Option V := if s.used then some s.bytes else none

/-- An operation on a slot, with its before-image. -/
inductive SlotOp (V : Type*)
  | insert (v : V)
  | delete (old : V)
  | update (old new : V)

namespace SlotOp

def before : SlotOp V → Option V
  | .insert _ => none
  | .delete old => some old
  | .update old _ => some old

def after : SlotOp V → Option V
  | .insert v => some v
  | .delete _ => none
  | .update _ new => some new

end SlotOp

namespace Slot

def redo (s : Slot V) : SlotOp V → Slot V
  | .insert v => ⟨true, v⟩
  | .delete _ => { s with used := false }
  | .update _ new => { s with bytes := new }

def undo (s : Slot V) : SlotOp V → Slot V
  | .insert _ => { s with used := false }
  | .delete old => ⟨true, old⟩
  | .update old _ => { s with bytes := old }

/-- Redo in the order of the list. -/
def redoAll (s : Slot V) (ops : List (SlotOp V)) : Slot V := ops.foldl redo s

/-- Undo from the last operation of the list to the first. -/
def undoAll (s : Slot V) (ops : List (SlotOp V)) : Slot V := ops.foldr (fun op s => s.undo op) s

variable {s : Slot V} {op : SlotOp V} {ops : List (SlotOp V)} {c c' : Option V}

theorem val_of_used (h : s.used) : s.val = some s.bytes := if_pos h

theorem val_of_not_used (h : s.used = false) : s.val = none := by
  simp [val, h]

theorem val_isSome : s.val.isSome = s.used := by
  unfold val
  cases s.used <;> rfl

theorem used_of_val (h : s.val = c) : s.used = c.isSome := by
  rw [← h, val_isSome]

/-- The operations lead from `c` to `c'`, each with the right before-image. -/
def Applies : Option V → List (SlotOp V) → Option V → Prop
  | c, [], c' => c = c'
  | c, op :: ops, c' => op.before = c ∧ Applies op.after ops c'

theorem Applies.snoc {c'' : Option V} (h : Applies c ops c') (hb : op.before = c')
    (ha : op.after = c'') : Applies c (ops ++ [op]) c'' := by
  induction ops generalizing c with
  | nil => exact ⟨hb.trans h.symm, ha⟩
  | cons o ops ih => exact ⟨h.1, ih h.2⟩

theorem val_redo (hb : op.before = s.val) : (s.redo op).val = op.after := by
  cases op with
  | insert v => rfl
  | delete old => rfl
  | update old new =>
    have hused : s.used := by
      rw [← val_isSome, ← hb]
      rfl
    exact val_of_used hused

theorem val_redoAll (h : Applies c ops c') (hs : s.val = c) : (s.redoAll ops).val = c' := by
  induction ops generalizing c s with
  | nil => exact hs.trans h
  | cons op ops ih => exact ih h.2 (val_redo (h.1.trans hs.symm))

/-- On an empty slot the first operation is an insertion, which does not depend on the slot. -/
theorem val_redoAll_of_none (h : Applies none ops c') (hne : ops ≠ []) :
    (s.redoAll ops).val = c' := by
  cases ops with
  | nil => exact absurd rfl hne
  | cons op ops =>
    cases op with
    | insert v =>
      change ((s.redo (.insert v)).redoAll ops).val = c'
      exact val_redoAll h.2 rfl
    | delete old => cases h.1
    | update old new => cases h.1

/-- Undo keeps the bit in step with the value that the operations started from. -/
theorem used_undoAll (h : Applies c ops c') (hs : s.used = c.isSome) :
    (s.undoAll ops).used = c.isSome := by
  induction ops generalizing c with
  | nil => exact hs
  | cons op ops ih =>
    obtain ⟨rfl, h⟩ := h
    cases op with
    | insert v => rfl
    | delete old => rfl
    | update old new =>
      have hrest : (s.undoAll ops).used = (SlotOp.update old new).after.isSome := ih h hs
      exact hrest

theorem val_undoAll (h : Applies c ops c') (hs : s.val = c) : (s.undoAll ops).val = c := by
  cases ops with
  | nil => exact hs
  | cons op ops =>
    have hused := used_undoAll h (used_of_val hs)
    obtain ⟨rfl, -⟩ := h
    cases op with
    | insert v => rfl
    | delete old => rfl
    | update old new => exact val_of_used hused

/-- Undoing operations that have been applied. -/
theorem val_undoAll_of_applied (h : Applies c ops c') (hs : s.val = c') :
    (s.undoAll ops).val = c := by
  induction ops generalizing c with
  | nil => exact hs.trans h.symm
  | cons op ops ih =>
    obtain ⟨rfl, h⟩ := h
    have hafter := ih h
    cases op with
    | insert v => rfl
    | delete old => rfl
    | update old new => exact val_of_used (used_of_val hafter)

/-- Undoing operations that started from an empty slot empties it, whatever it held. -/
theorem val_undoAll_of_none (h : Applies none ops c') (hne : ops ≠ []) :
    (s.undoAll ops).val = none := by
  cases ops with
  | nil => exact absurd rfl hne
  | cons op ops =>
    cases op with
    | insert v => rfl
    | delete old => cases h.1
    | update old new => cases h.1

/-- The value after operations that are applied whatever the slot holds. -/
def finalValue (c : Option V) (ops : List (SlotOp V)) : Option V :=
  ops.foldl (fun _ op => op.after) c

theorem finalValue_eq (h : Applies c ops c') : finalValue c ops = c' := by
  induction ops generalizing c with
  | nil => exact h
  | cons op ops ih => exact ih h.2

/-- Taking back each operation by its before-image, the last one first. -/
def initialValue (c : Option V) (ops : List (SlotOp V)) : Option V :=
  ops.foldr (fun op _ => op.before) c

theorem initialValue_eq (h : Applies c ops c') : initialValue c' ops = c := by
  cases ops with
  | nil => exact h.symm
  | cons op ops => exact h.1

end Slot

/-! ## Blocks of transactions -/

open Slot

/-- The blocks are applied one after another; those of transactions that are not committed are taken
back. -/
def StrictHistory (committed : T → Bool) : Option V → List (T × List (SlotOp V)) → Option V → Prop
  | c, [], c' => c = c'
  | c, (t, ops) :: bs, c' => ops ≠ [] ∧ ∃ w, Applies c ops w ∧
      StrictHistory committed (if committed t then w else c) bs c'

/-- The operations of all blocks, each with its transaction. -/
def flatten (bs : List (T × List (SlotOp V))) : List (T × SlotOp V) :=
  bs.flatMap fun b => b.2.map fun op => (b.1, op)

/-- The operations of the transaction `t`. -/
def opsBy [DecidableEq T] (t : T) (l : List (T × SlotOp V)) : List (SlotOp V) :=
  (l.filter fun e => e.1 = t).map Prod.snd

/-- The operations of the committed transactions. -/
def committedOps (committed : T → Bool) (l : List (T × SlotOp V)) : List (SlotOp V) :=
  (l.filter fun e => committed e.1).map Prod.snd

section Blocks

variable {committed : T → Bool} {bs : List (T × List (SlotOp V))} {t : T} {ops : List (SlotOp V)}
  {s : Slot V} {c c' : Option V}

theorem flatten_cons : flatten ((t, ops) :: bs) = ops.map (fun op => (t, op)) ++ flatten bs := by
  simp [flatten]

theorem committedOps_append (l l' : List (T × SlotOp V)) :
    committedOps committed (l ++ l') = committedOps committed l ++ committedOps committed l' := by
  simp [committedOps]

theorem committedOps_map (t : T) (ops : List (SlotOp V)) :
    committedOps committed (ops.map fun op => (t, op)) = if committed t then ops else [] := by
  rw [committedOps, List.filter_map, List.map_map]
  cases h : committed t <;> simp [h, Function.comp_def]

theorem committedOps_flatten_cons : committedOps committed (flatten ((t, ops) :: bs)) =
    (if committed t then ops else []) ++ committedOps committed (flatten bs) := by
  rw [flatten_cons, committedOps_append, committedOps_map]

theorem StrictHistory.snoc {w : Option V} (h : StrictHistory committed c bs c') (hne : ops ≠ [])
    (ha : Applies c' ops w) : StrictHistory committed c (bs ++ [(t, ops)])
      (if committed t then w else c') := by
  induction bs generalizing c with
  | nil =>
    cases h
    exact ⟨hne, w, ha, rfl⟩
  | cons b bs ih =>
    obtain ⟨hb, w', hw, h⟩ := h
    exact ⟨hb, w', hw, ih h⟩

/-- Only what is committed of the transactions in the blocks counts. -/
theorem StrictHistory.congr {committed' : T → Bool} (h : StrictHistory committed c bs c')
    (heq : ∀ b ∈ bs, committed' b.1 = committed b.1) : StrictHistory committed' c bs c' := by
  induction bs generalizing c with
  | nil => exact h
  | cons b bs ih =>
    obtain ⟨hb, w, hw, h⟩ := h
    refine ⟨hb, w, hw, ?_⟩
    rw [heq b List.mem_cons_self]
    exact ih h fun b' hb' => heq b' (List.mem_cons_of_mem _ hb')

theorem val_redo_committed (h : StrictHistory committed c bs c') (hs : s.val = c) :
    (s.redoAll (committedOps committed (flatten bs))).val = c' := by
  induction bs generalizing c s with
  | nil => exact hs.trans h
  | cons b bs ih =>
    obtain ⟨hb, w, hw, h⟩ := h
    rw [committedOps_flatten_cons, redoAll, List.foldl_append]
    split at h
    · rename_i hc
      rw [if_pos hc]
      exact ih h (val_redoAll hw hs)
    · rename_i hc
      rw [if_neg hc]
      exact ih h hs

/-- The first committed operation on a slot is an insertion, so the redo does not depend on what the
slot held. -/
theorem val_redo_committed_of_ne_nil (h : StrictHistory committed none bs c')
    (hne : committedOps committed (flatten bs) ≠ []) :
    (s.redoAll (committedOps committed (flatten bs))).val = c' := by
  induction bs generalizing s with
  | nil => exact absurd rfl hne
  | cons b bs ih =>
    obtain ⟨hb, w, hw, h⟩ := h
    rw [committedOps_flatten_cons] at hne ⊢
    split at h
    · rename_i hc
      rw [if_pos hc, redoAll, List.foldl_append]
      exact val_redo_committed h (val_redoAll_of_none hw hb)
    · rename_i hc
      rw [if_neg hc] at hne ⊢
      exact ih h hne

theorem finalValue_committed (h : StrictHistory committed c bs c') :
    finalValue c (committedOps committed (flatten bs)) = c' := by
  induction bs generalizing c with
  | nil => exact h
  | cons b bs ih =>
    obtain ⟨hb, w, hw, h⟩ := h
    rw [committedOps_flatten_cons, finalValue, List.foldl_append]
    split at h
    · rename_i hc
      rw [if_pos hc]
      have hfirst : b.2.foldl (fun _ op => op.after) c = w := finalValue_eq hw
      rw [hfirst]
      exact ih h
    · rename_i hc
      rw [if_neg hc]
      exact ih h

/-- Without a committed block every block starts from the empty slot. -/
theorem StrictHistory.applies_none (h : StrictHistory committed none bs c')
    (hnil : committedOps committed (flatten bs) = []) {b : T × List (SlotOp V)} (hb : b ∈ bs) :
    ∃ w, Applies none b.2 w := by
  induction bs with
  | nil => cases hb
  | cons b' bs ih =>
    obtain ⟨hne, w, hw, h⟩ := h
    rw [committedOps_flatten_cons, List.append_eq_nil_iff] at hnil
    have hc : ¬ committed b'.1 := by
      intro hc
      rw [if_pos hc] at hnil
      exact hne hnil.1
    rw [if_neg hc] at h
    rcases List.mem_cons.1 hb with rfl | hb
    · exact ⟨w, hw⟩
    · exact ih h hnil.2 hb

variable [DecidableEq T]

theorem opsBy_append (t : T) (l l' : List (T × SlotOp V)) :
    opsBy t (l ++ l') = opsBy t l ++ opsBy t l' := by
  simp [opsBy]

theorem opsBy_map (t t' : T) (ops : List (SlotOp V)) :
    opsBy t (ops.map fun op => (t', op)) = if t' = t then ops else [] := by
  rw [opsBy, List.filter_map, List.map_map]
  by_cases h : t' = t <;> simp [h, Function.comp_def]

theorem opsBy_flatten_of_not_mem (h : t ∉ bs.map Prod.fst) : opsBy t (flatten bs) = [] := by
  induction bs with
  | nil => rfl
  | cons b bs ih =>
    rw [List.map_cons, List.mem_cons, not_or] at h
    rw [flatten_cons, opsBy_append, opsBy_map, if_neg (Ne.symm h.1), ih h.2]
    rfl

theorem opsBy_flatten_of_mem (hnodup : (bs.map Prod.fst).Nodup) (h : (t, ops) ∈ bs) :
    opsBy t (flatten bs) = ops := by
  induction bs with
  | nil => cases h
  | cons b bs ih =>
    rw [List.map_cons, List.nodup_cons] at hnodup
    rw [flatten_cons, opsBy_append, opsBy_map]
    rcases List.mem_cons.1 h with rfl | h
    · rw [if_pos rfl, opsBy_flatten_of_not_mem hnodup.1, List.append_nil]
    · have hne : b.1 ≠ t := by
        rintro rfl
        exact hnodup.1 (List.mem_map.2 ⟨_, h, rfl⟩)
      rw [if_neg hne, ih hnodup.2 h]
      rfl

/-- What is left in a slot when the transactions `ts` are undone one after another. -/
def undoTxns (l : List (T × SlotOp V)) (ts : List T) (s : Slot V) : Slot V :=
  ts.foldl (fun s t => s.undoAll (opsBy t l)) s

theorem val_undoTxns {l : List (T × SlotOp V)} {ts : List T}
    (h : ∀ t ∈ ts, opsBy t l = [] ∨ ∃ w, Applies c (opsBy t l) w) (hs : s.val = c) :
    (undoTxns l ts s).val = c := by
  induction ts generalizing s with
  | nil => exact hs
  | cons t ts ih =>
    refine ih (fun t' ht' => h t' (List.mem_cons_of_mem _ ht')) ?_
    rcases h t List.mem_cons_self with hnil | ⟨w, hw⟩
    · simp only [hnil]
      exact hs
    · exact val_undoAll hw hs

/-- If every transaction found the slot empty, undoing them all empties it. -/
theorem val_undoTxns_of_none {l : List (T × SlotOp V)} {ts : List T}
    (h : ∀ t ∈ ts, opsBy t l = [] ∨ ∃ w, Applies none (opsBy t l) w)
    (hs : s.val = none ∨ ∃ t ∈ ts, opsBy t l ≠ []) : (undoTxns l ts s).val = none := by
  induction ts generalizing s with
  | nil =>
    rcases hs with hs | ⟨t, ht, -⟩
    · exact hs
    · cases ht
  | cons t ts ih =>
    refine ih (fun t' ht' => h t' (List.mem_cons_of_mem _ ht')) ?_
    by_cases hnil : opsBy t l = []
    · simp only [hnil]
      rcases hs with hs | ⟨t', ht', hne⟩
      · exact .inl hs
      · rcases List.mem_cons.1 ht' with rfl | ht'
        · exact absurd hnil hne
        · exact .inr ⟨t', ht', hne⟩
    · rcases h t List.mem_cons_self with h' | ⟨w, hw⟩
      · exact absurd h' hnil
      · exact .inl (val_undoAll_of_none hw hnil)

end Blocks

end Rmdb
