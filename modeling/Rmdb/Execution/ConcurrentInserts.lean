import Rmdb.Execution.Meta
import Rmdb.Lib.KeyIndex
import Rmdb.Lib.Run
import Rmdb.Transaction.GapManager

/-!
# Inserts at the same time

Several transactions run `INSERT` statements (`execution/executor_insert.h`) into one table with one
index.  The steps are the calls `get_value`, `lock_exclusive_on_gap_point`, `insert_record`,
`insert_entry`, and the ends of transactions.  The test for an equal key comes first and is not
repeated, and an autocommitted statement takes no gap lock, so that the key may have been inserted
by another transaction when the record goes into the table.  `insert_entry` then does nothing.
-/

namespace Rmdb

open KeyIndex

/-- Where a transaction is. -/
inductive InsertStage
  /-- Between two statements. -/
  | idle
  /-- `get_value` has not found the key of the record. -/
  | checked (rec : Bytes)
  /-- `lock_exclusive_gap_for_record` has returned. -/
  | locked (rec : Bytes)
  /-- The record is in the table, its entry is not yet in the index. -/
  | inserted (rec : Bytes) (rid : Rid)
  /-- An autocommitted statement is through, and its commit follows. -/
  | finished
  | ended
deriving DecidableEq, Repr

/-- A transaction: `txn_mode_` is set in explicit ones.  `writeSet` has its inserted records, the
newest first. -/
structure Inserter where
  txnMode : Bool := false
  stage : InsertStage := .idle
  writeSet : List Rid := []
deriving DecidableEq, Repr

/-- The table, its index, the locks and the transactions. -/
structure InsertState where
  rows : Rid → Option Bytes
  ih : IxKey → Option Rid
  locks : LockManager := {}
  txns : TxnId → Inserter

/-- The calls. -/
inductive InsertCall
  | getValue (t : TxnId) (rec : Bytes)
  | lockGap (t : TxnId)
  /-- The free slot that `insert_record` finds is `rid`. -/
  | insertRecord (t : TxnId) (rid : Rid)
  | insertEntry (t : TxnId)
  | commit (t : TxnId)
  | rollback (t : TxnId)
deriving DecidableEq, Repr

/-- The table that is inserted into. -/
structure InsertTarget where
  index : IndexMeta
  tabFd : ℤ
  indexFd : ℤ
  /-- What stands behind strings in memory. -/
  after : Bytes → Bytes

namespace InsertState

variable (tgt : InsertTarget)

def setStage (s : InsertState) (t : TxnId) (stage : InsertStage) : InsertState :=
  { s with txns := Function.update s.txns t { s.txns t with stage := stage } }

/-- `undo_write_record` for an inserted record. -/
def undoInsert (s : InsertState) (rid : Rid) : InsertState :=
  match s.rows rid with
  | none => s
  | some rec =>
    { s with
      ih := deleteEntry s.ih (tgt.index.key rec)
      rows := Function.update s.rows rid none }

/-- `TransactionManager::abort`. -/
def abort (s : InsertState) (t : TxnId) : InsertState :=
  let s := (s.txns t).writeSet.foldl (undoInsert tgt) s
  { s with
    locks := (s.locks.releaseAllLocks t).setState t .aborted
    txns := Function.update s.txns t { s.txns t with stage := .ended, writeSet := [] } }

/-- A call; `none` when the transaction is not there.  A statement that throws ends its
transaction. -/
def step (s : InsertState) : InsertCall → Option InsertState
  | .getValue t rec =>
    match (s.txns t).stage with
    | .idle =>
      if (s.ih (tgt.index.key rec)).isSome then some (s.abort tgt t) else
        some (s.setStage t (.checked rec))
    | _ => none
  | .lockGap t =>
    match (s.txns t).stage with
    | .checked rec =>
      if (s.txns t).txnMode then
        match s.locks.lockExclusiveOnGapPoint tgt.after t tgt.indexFd (indexColMeta tgt.index)
            (buildIndexKey tgt.index rec) with
        | (locks, .ok _) => some (setStage { s with locks := locks } t (.locked rec))
        | (locks, .error _) => some (abort tgt { s with locks := locks } t)
      else some (s.setStage t (.locked rec))
    | _ => none
  | .insertRecord t rid =>
    match (s.txns t).stage with
    | .locked rec =>
      if (s.rows rid).isSome then none
      else match s.locks.lockExclusiveOnRecord t rid tgt.tabFd with
        | (locks, .ok _) =>
          some (setStage { s with locks := locks, rows := Function.update s.rows rid (some rec) } t
            (.inserted rec rid))
        | (locks, .error _) => some (abort tgt { s with locks := locks } t)
    | _ => none
  | .insertEntry t =>
    match (s.txns t).stage with
    | .inserted rec rid =>
      let txn := s.txns t
      some { s with
        ih := KeyIndex.insertEntry s.ih (tgt.index.key rec) rid
        txns := Function.update s.txns t { txn with
          stage := if txn.txnMode then .idle else .finished
          writeSet := rid :: txn.writeSet } }
    | _ => none
  | .commit t =>
    match (s.txns t).stage with
    | .idle | .finished =>
      some { s with
        locks := (s.locks.releaseAllLocks t).setState t .committed
        txns := Function.update s.txns t { s.txns t with stage := .ended, writeSet := [] } }
    | _ => none
  | .rollback t =>
    match (s.txns t).stage with
    | .idle => some (s.abort tgt t)
    | _ => none

/-- The calls as a relation. -/
def Steps (s : InsertState) (c : InsertCall) (s' : InsertState) : Prop := s.step tgt c = some s'

/-- No statement is under way. -/
def Quiet (s : InsertState) : Prop := ∀ t, (s.txns t).stage = .idle ∨ (s.txns t).stage = .ended

/-- A record of the table that has no entry yet. -/
def Pending (s : InsertState) (rid : Rid) : Prop := ∃ t rec, (s.txns t).stage = .inserted rec rid

/-! ## The rows and the index -/

/-- The index has the entries of the rows that are not pending, and no two rows share a key. -/
structure Exact (s : InsertState) : Prop where
  indexed : ∀ k rid, s.ih k = some rid ↔ HasKey tgt.index.key s.rows rid k ∧ ¬ s.Pending rid
  row : ∀ t rec rid, (s.txns t).stage = .inserted rec rid → s.rows rid = some rec
  one : ∀ t t' rec rec' rid, (s.txns t).stage = .inserted rec rid →
    (s.txns t').stage = .inserted rec' rid → t = t'
  unique : ∀ k rid rid', HasKey tgt.index.key s.rows rid k →
    HasKey tgt.index.key s.rows rid' k → rid = rid'

/-- The write sets have rows with entries, each in one of them and once. -/
structure Owned (s : InsertState) : Prop where
  live : ∀ t, ∀ rid ∈ (s.txns t).writeSet, (s.rows rid).isSome = true ∧ ¬ s.Pending rid
  apart : ∀ t t' rid, rid ∈ (s.txns t).writeSet → rid ∈ (s.txns t').writeSet → t = t'
  nodup : ∀ t, (s.txns t).writeSet.Nodup

variable {tgt} {s s' : InsertState}

theorem pending_congr (h : ∀ t rec rid, (s'.txns t).stage = .inserted rec rid ↔
    (s.txns t).stage = .inserted rec rid) (rid : Rid) : s'.Pending rid ↔ s.Pending rid :=
  exists_congr fun t => exists_congr fun rec => h t rec rid

theorem Exact.congr (h : s.Exact tgt) (hrows : s'.rows = s.rows) (hih : s'.ih = s.ih)
    (hstage : ∀ t rec rid, (s'.txns t).stage = .inserted rec rid ↔
      (s.txns t).stage = .inserted rec rid) : s'.Exact tgt where
  indexed k rid := by
    rw [hih, hrows, pending_congr hstage]
    exact h.indexed k rid
  row t rec rid ht := by
    rw [hrows]
    exact h.row t rec rid ((hstage t rec rid).1 ht)
  one t t' rec rec' rid ht ht' :=
    h.one t t' rec rec' rid ((hstage t rec rid).1 ht) ((hstage t' rec' rid).1 ht')
  unique := by
    rw [hrows]
    exact h.unique

/-- Write sets that have become smaller. -/
theorem Owned.mono (h : s.Owned)
    (hset : ∀ t, (s'.txns t).writeSet = (s.txns t).writeSet ∨ (s'.txns t).writeSet = [])
    (hlive : ∀ t, ∀ rid ∈ (s'.txns t).writeSet, rid ∈ (s.txns t).writeSet →
      s'.rows rid = s.rows rid ∧ (s'.Pending rid → s.Pending rid)) : s'.Owned := by
  have hmem (t : TxnId) (rid : Rid) (hrid : rid ∈ (s'.txns t).writeSet) :
      rid ∈ (s.txns t).writeSet := by
    rcases hset t with heq | heq
    · rwa [heq] at hrid
    · rw [heq] at hrid
      cases hrid
  refine ⟨fun t rid hrid => ?_, fun t t' rid ht ht' => ?_, fun t => ?_⟩
  · obtain ⟨hrow, hpend⟩ := hlive t rid hrid (hmem t rid hrid)
    obtain ⟨hsome, hnot⟩ := h.live t rid (hmem t rid hrid)
    rw [hrow]
    exact ⟨hsome, fun hp => hnot (hpend hp)⟩
  · exact h.apart t t' rid (hmem t rid ht) (hmem t' rid ht')
  · rcases hset t with heq | heq
    · rw [heq]
      exact h.nodup t
    · rw [heq]
      exact List.nodup_nil

/-! ## Undoing -/

theorem undoInsert_txns (s : InsertState) (rid : Rid) : (s.undoInsert tgt rid).txns = s.txns := by
  unfold undoInsert
  split <;> rfl

/-- The end of a transaction leaves the others as they are. -/
theorem abort_txns_of_ne (s : InsertState) {t t' : TxnId} (h : t' ≠ t) :
    (s.abort tgt t).txns t' = s.txns t' := by
  have hundo : ∀ (ws : List Rid) (s : InsertState), (ws.foldl (undoInsert tgt) s).txns =
      s.txns := by
    intro ws
    induction ws with
    | nil => exact fun s => rfl
    | cons w ws ih => exact fun s => (ih _).trans (undoInsert_txns s w)
  exact (Function.update_of_ne h _ _).trans (congrFun (hundo _ s) t')

theorem undoInsert_rows_of_ne (s : InsertState) {rid rid' : Rid} (h : rid' ≠ rid) :
    (s.undoInsert tgt rid).rows rid' = s.rows rid' := by
  unfold undoInsert
  split
  · rfl
  · exact Function.update_of_ne h _ _

theorem Exact.undoInsert (h : s.Exact tgt) {rid : Rid} (hsome : (s.rows rid).isSome = true)
    (hp : ¬ s.Pending rid) : (s.undoInsert tgt rid).Exact tgt := by
  obtain ⟨rec, hrec⟩ := Option.isSome_iff_exists.1 hsome
  have heq : s.undoInsert tgt rid = { s with
      ih := deleteEntry s.ih (tgt.index.key rec), rows := Function.update s.rows rid none } := by
    unfold InsertState.undoInsert
    rw [hrec]
  have hkey : HasKey tgt.index.key s.rows rid (tgt.index.key rec) := hasKey_of_row hrec
  have hleft (rid' : Rid) (k : IxKey) :
    HasKey tgt.index.key (Function.update s.rows rid none) rid' k ↔
      rid' ≠ rid ∧ HasKey tgt.index.key s.rows rid' k := by
    unfold HasKey
    by_cases hr : rid' = rid
    · simp [hr]
    · simp [hr]
  rw [heq]
  refine ⟨fun k rid' => ?_, fun t rec' rid' ht => ?_, h.one, fun k rid₁ rid₂ h₁ h₂ => ?_⟩
  · change deleteEntry s.ih (tgt.index.key rec) k = some rid' ↔ _ ∧ ¬ s.Pending rid'
    rw [deleteEntry_eq_some_iff, h.indexed, hleft]
    constructor
    · rintro ⟨hne, hk, hnot⟩
      refine ⟨⟨?_, hk⟩, hnot⟩
      rintro rfl
      exact hne (hk.key_eq hrec).symm
    · rintro ⟨⟨hne, hk⟩, hnot⟩
      refine ⟨?_, hk, hnot⟩
      rintro rfl
      exact hne (h.unique _ _ _ hk hkey)
  · change Function.update s.rows rid none rid' = some rec'
    have hne : rid' ≠ rid := by
      rintro rfl
      exact hp ⟨t, rec', ht⟩
    rw [Function.update_of_ne hne]
    exact h.row t rec' rid' ht
  · exact h.unique k rid₁ rid₂ ((hleft rid₁ k).1 h₁).2 ((hleft rid₂ k).1 h₂).2

/-- Undoing all the inserts of a write set. -/
theorem Exact.undoAll (h : s.Exact tgt) {rids : List Rid} (hnodup : rids.Nodup)
    (hlive : ∀ rid ∈ rids, (s.rows rid).isSome = true ∧ ¬ s.Pending rid) :
    (rids.foldl (InsertState.undoInsert tgt) s).Exact tgt ∧
      (rids.foldl (InsertState.undoInsert tgt) s).txns = s.txns ∧
      ∀ rid, rid ∉ rids → (rids.foldl (InsertState.undoInsert tgt) s).rows rid = s.rows rid := by
  induction rids generalizing s with
  | nil => exact ⟨h, rfl, fun _ _ => rfl⟩
  | cons rid rids ih =>
    rw [List.nodup_cons] at hnodup
    obtain ⟨hsome, hp⟩ := hlive rid List.mem_cons_self
    have hlive' : ∀ rid' ∈ rids, ((s.undoInsert tgt rid).rows rid').isSome = true ∧
        ¬ (s.undoInsert tgt rid).Pending rid' := by
      intro rid' hr
      have hne : rid' ≠ rid := fun heq => hnodup.1 (heq ▸ hr)
      have hpend : (s.undoInsert tgt rid).Pending rid' ↔ s.Pending rid' :=
        pending_congr (fun t rec rid => by rw [undoInsert_txns]) rid'
      rw [undoInsert_rows_of_ne s hne, hpend]
      exact hlive rid' (List.mem_cons_of_mem _ hr)
    obtain ⟨hexact, htxns, hrows⟩ := ih (h.undoInsert hsome hp) hnodup.2 hlive'
    refine ⟨hexact, htxns.trans (undoInsert_txns s rid), fun rid' hr => ?_⟩
    rw [List.mem_cons, not_or] at hr
    rw [List.foldl_cons, hrows rid' hr.2, undoInsert_rows_of_ne s hr.1]

/-! ## One call -/

variable (tgt) in
/-- What every call keeps. -/
structure Inv (s : InsertState) : Prop where
  exact : s.Exact tgt
  owned : s.Owned

/-- The transaction `t` is not between `insert_record` and `insert_entry`. -/
def NotInserted (s : InsertState) (t : TxnId) : Prop :=
  ∀ rec rid, (s.txns t).stage ≠ .inserted rec rid

/-- Only `t` has changed. -/
def OthersKept (s s' : InsertState) (t : TxnId) : Prop := ∀ t', t' ≠ t → s'.txns t' = s.txns t'

theorem OthersKept.stage_iff {t : TxnId} (h : OthersKept s s' t) (hold : s.NotInserted t)
    (hnew : s'.NotInserted t) (t' : TxnId) (rec : Bytes) (rid : Rid) :
    (s'.txns t').stage = .inserted rec rid ↔ (s.txns t').stage = .inserted rec rid := by
  by_cases ht : t' = t
  · subst ht
    exact iff_of_false (hnew rec rid) (hold rec rid)
  · rw [h t' ht]

/-- Nothing happens to the rows and the index, and `t` goes on to another stage. -/
theorem Inv.move (h : s.Inv tgt) {t : TxnId} (hrows : s'.rows = s.rows) (hih : s'.ih = s.ih)
    (hothers : OthersKept s s' t) (hold : s.NotInserted t) (hnew : s'.NotInserted t)
    (hset : (s'.txns t).writeSet = (s.txns t).writeSet ∨ (s'.txns t).writeSet = []) :
    s'.Inv tgt := by
  have hstage := hothers.stage_iff hold hnew
  refine ⟨h.exact.congr hrows hih hstage, h.owned.mono (fun t' => ?_) fun t' rid _ _ => ?_⟩
  · by_cases ht : t' = t
    · subst ht
      exact hset
    · rw [hothers t' ht]
      exact Or.inl rfl
  · rw [hrows]
    exact ⟨rfl, (pending_congr hstage rid).1⟩

theorem Inv.abort (h : s.Inv tgt) (t : TxnId) (hold : s.NotInserted t) :
    (s.abort tgt t).Inv tgt := by
  obtain ⟨hexact, htxns, hrows⟩ := h.exact.undoAll (h.owned.nodup t) (h.owned.live t)
  have hself : (s.abort tgt t).txns t = { s.txns t with stage := .ended, writeSet := [] } := by
    unfold InsertState.abort
    dsimp only
    rw [Function.update_self, htxns]
  have hothers : OthersKept s (s.abort tgt t) t := by
    intro t' ht
    unfold InsertState.abort
    dsimp only
    rw [Function.update_of_ne ht, htxns]
  have hnew : (s.abort tgt t).NotInserted t := by
    intro rec rid
    rw [hself]
    simp
  refine ⟨hexact.congr rfl rfl fun t' rec rid => ?_, h.owned.mono (fun t' => ?_)
    fun t' rid hrid hmem => ?_⟩
  · rw [htxns]
    exact hothers.stage_iff hold hnew t' rec rid
  · by_cases ht : t' = t
    · subst ht
      rw [hself]
      exact Or.inr rfl
    · rw [hothers t' ht]
      exact Or.inl rfl
  · -- the rows of the other write sets stay
    have ht : t' ≠ t := by
      rintro rfl
      rw [hself] at hrid
      cases hrid
    refine ⟨hrows rid fun hr => ht (h.owned.apart t' t rid hmem hr), ?_⟩
    exact (pending_congr (hothers.stage_iff hold hnew) rid).1

/-- A record whose key is new goes into the table. -/
theorem Inv.insertRecord (h : s.Inv tgt) {t : TxnId} {rec : Bytes} {rid : Rid}
    (hstage : (s.txns t).stage = .locked rec) (hfree : s.rows rid = none)
    (hrows : s'.rows = Function.update s.rows rid (some rec)) (hih : s'.ih = s.ih)
    (hself : s'.txns t = { s.txns t with stage := .inserted rec rid }) (hothers : OthersKept s s' t)
    (hkey : s.ih (tgt.index.key rec) = none)
    (hpending : ∀ t' rec' rid', (s.txns t').stage = .inserted rec' rid' →
      tgt.index.key rec' ≠ tgt.index.key rec) : s'.Inv tgt := by
  have hstages (t' : TxnId) (rec' : Bytes) (rid' : Rid) : (s'.txns t').stage = .inserted rec' rid' ↔
      (t' = t ∧ rec' = rec ∧ rid' = rid) ∨ (s.txns t').stage = .inserted rec' rid' := by
    by_cases ht : t' = t
    · subst ht
      simp [hself, hstage, eq_comm]
    · simp [hothers t' ht, ht]
  have hpend (rid' : Rid) : s'.Pending rid' ↔ rid' = rid ∨ s.Pending rid' := by
    constructor
    · rintro ⟨t', rec', ht'⟩
      rcases (hstages t' rec' rid').1 ht' with ⟨-, -, hr⟩ | ht'
      · exact Or.inl hr
      · exact Or.inr ⟨t', rec', ht'⟩
    · rintro (rfl | ⟨t', rec', ht'⟩)
      · exact ⟨t, rec, (hstages t rec rid').2 (Or.inl ⟨rfl, rfl, rfl⟩)⟩
      · exact ⟨t', rec', (hstages t' rec' rid').2 (Or.inr ht')⟩
  have hlive (rid' : Rid) (rec' : Bytes) (hrec' : s.rows rid' = some rec') : rid' ≠ rid := by
    rintro rfl
    rw [hfree] at hrec'
    cases hrec'
  have hnew (rid' : Rid) : ¬ HasKey tgt.index.key s.rows rid' (tgt.index.key rec) := by
    intro hk
    by_cases hp : s.Pending rid'
    · obtain ⟨t', rec', ht'⟩ := hp
      exact hpending t' rec' rid' ht' (hk.key_eq (h.exact.row t' rec' rid' ht'))
    · have := (h.exact.indexed _ _).2 ⟨hk, hp⟩
      rw [hkey] at this
      cases this
  have hexact : s'.Exact tgt := by
    refine ⟨fun k rid' => ?_, fun t' rec' rid' ht' => ?_, fun t₁ t₂ rec₁ rec₂ rid' h₁ h₂ => ?_,
      fun k rid₁ rid₂ h₁ h₂ => ?_⟩
    · rw [hih, hpend, hrows, h.exact.indexed, hasKey_update, not_or]
      constructor
      · rintro ⟨hk, hp⟩
        obtain ⟨rec', hrec', -⟩ := id hk
        exact ⟨Or.inr ⟨hlive rid' rec' hrec', hk⟩, hlive rid' rec' hrec', hp⟩
      · rintro ⟨⟨heq, -⟩ | ⟨-, hk⟩, hne, hp⟩
        · exact absurd heq hne
        · exact ⟨hk, hp⟩
    · rw [hrows]
      rcases (hstages t' rec' rid').1 ht' with ⟨-, rfl, rfl⟩ | ht'
      · exact Function.update_self ..
      · have hrow := h.exact.row t' rec' rid' ht'
        rwa [Function.update_of_ne (hlive rid' rec' hrow)]
    · have hother (t' : TxnId) (rec' : Bytes) : (s.txns t').stage ≠ .inserted rec' rid :=
        fun ht' => hlive rid rec' (h.exact.row t' rec' rid ht') rfl
      rcases (hstages t₁ rec₁ rid').1 h₁ with ⟨rfl, rfl, rfl⟩ | h₁
      · rcases (hstages t₂ rec₂ rid').1 h₂ with ⟨rfl, -, -⟩ | h₂
        · rfl
        · exact absurd h₂ (hother t₂ rec₂)
      · rcases (hstages t₂ rec₂ rid').1 h₂ with ⟨-, -, rfl⟩ | h₂
        · exact absurd h₁ (hother t₁ rec₁)
        · exact h.exact.one t₁ t₂ rec₁ rec₂ rid' h₁ h₂
    · rw [hrows] at h₁ h₂
      rcases hasKey_update.1 h₁ with ⟨rfl, rfl⟩ | ⟨-, hk₁⟩
      · rcases hasKey_update.1 h₂ with ⟨rfl, -⟩ | ⟨-, hk₂⟩
        · rfl
        · exact absurd hk₂ (hnew rid₂)
      · rcases hasKey_update.1 h₂ with ⟨rfl, rfl⟩ | ⟨-, hk₂⟩
        · exact absurd hk₁ (hnew rid₁)
        · exact h.exact.unique k rid₁ rid₂ hk₁ hk₂
  refine ⟨hexact, h.owned.mono (fun t' => Or.inl ?_) fun t' rid' _ hmem => ?_⟩
  · by_cases ht : t' = t
    · subst ht
      rw [hself]
    · rw [hothers t' ht]
  · obtain ⟨rec', hrec'⟩ := Option.isSome_iff_exists.1 (h.owned.live t' rid' hmem).1
    have hne := hlive rid' rec' hrec'
    rw [hrows, Function.update_of_ne hne, hpend]
    exact ⟨rfl, fun hp => hp.resolve_left hne⟩

/-- The entry of a pending record goes into the index. -/
theorem Inv.insertEntry (h : s.Inv tgt) {t : TxnId} {rec : Bytes} {rid : Rid}
    (hstage : (s.txns t).stage = .inserted rec rid) (hrows : s'.rows = s.rows)
    (hih : s'.ih = KeyIndex.insertEntry s.ih (tgt.index.key rec) rid) (hnew : s'.NotInserted t)
    (hset : (s'.txns t).writeSet = rid :: (s.txns t).writeSet) (hothers : OthersKept s s' t) :
    s'.Inv tgt := by
  have hpending : s.Pending rid := ⟨t, rec, hstage⟩
  have hrow := h.exact.row t rec rid hstage
  have hstages (t' : TxnId) (rec' : Bytes) (rid' : Rid) : (s'.txns t').stage = .inserted rec' rid' ↔
      t' ≠ t ∧ (s.txns t').stage = .inserted rec' rid' := by
    by_cases ht : t' = t
    · subst ht
      exact iff_of_false (hnew rec' rid') fun h => h.1 rfl
    · rw [hothers t' ht]
      simp [ht]
  have hpend (rid' : Rid) : s'.Pending rid' ↔ rid' ≠ rid ∧ s.Pending rid' := by
    constructor
    · rintro ⟨t', rec', ht'⟩
      obtain ⟨hne, ht'⟩ := (hstages t' rec' rid').1 ht'
      refine ⟨?_, t', rec', ht'⟩
      rintro rfl
      exact hne (h.exact.one t' t rec' rec rid' ht' hstage)
    · rintro ⟨hne, t', rec', ht'⟩
      refine ⟨t', rec', (hstages t' rec' rid').2 ⟨?_, ht'⟩⟩
      rintro rfl
      rw [hstage] at ht'
      exact hne (InsertStage.inserted.inj ht').2.symm
  have hnone : s.ih (tgt.index.key rec) = none := by
    rw [Option.eq_none_iff_forall_not_mem]
    intro rid' hmem
    obtain ⟨hk, hp⟩ := (h.exact.indexed _ _).1 hmem
    obtain rfl := h.exact.unique _ _ _ hk (hasKey_of_row hrow)
    exact hp hpending
  have hnotset (t' : TxnId) : rid ∉ (s.txns t').writeSet :=
    fun hmem => (h.owned.live t' rid hmem).2 hpending
  have hexact : s'.Exact tgt := by
    refine ⟨fun k rid' => ?_, fun t' rec' rid' ht' => ?_, fun t₁ t₂ rec₁ rec₂ rid' h₁ h₂ => ?_, ?_⟩
    · rw [hih, insertEntry_eq_some_iff, h.exact.indexed, hrows, hpend]
      constructor
      · rintro (⟨hk, hp⟩ | ⟨rfl, -, rfl⟩)
        · exact ⟨hk, fun hp' => hp hp'.2⟩
        · exact ⟨hasKey_of_row hrow, fun hp' => hp'.1 rfl⟩
      · rintro ⟨hk, hp⟩
        by_cases hr : rid' = rid
        · subst hr
          exact Or.inr ⟨(hk.key_eq hrow).symm, hnone, rfl⟩
        · exact Or.inl ⟨hk, fun hp' => hp ⟨hr, hp'⟩⟩
    · rw [hrows]
      exact h.exact.row t' rec' rid' ((hstages t' rec' rid').1 ht').2
    · exact h.exact.one t₁ t₂ rec₁ rec₂ rid' ((hstages t₁ rec₁ rid').1 h₁).2
        ((hstages t₂ rec₂ rid').1 h₂).2
    · rw [hrows]
      exact h.exact.unique
  have hmem (t' : TxnId) (rid' : Rid) : rid' ∈ (s'.txns t').writeSet ↔
      (t' = t ∧ rid' = rid) ∨ rid' ∈ (s.txns t').writeSet := by
    by_cases ht : t' = t
    · subst ht
      simp [hset]
    · simp [hothers t' ht, ht]
  refine ⟨hexact, fun t' rid' hr => ?_, fun t₁ t₂ rid' h₁ h₂ => ?_, fun t' => ?_⟩
  · rw [hrows, hpend]
    rcases (hmem t' rid').1 hr with ⟨-, rfl⟩ | hr
    · exact ⟨by rw [hrow]; rfl, fun hp => hp.1 rfl⟩
    · obtain ⟨hsome, hp⟩ := h.owned.live t' rid' hr
      exact ⟨hsome, fun hp' => hp hp'.2⟩
  · rcases (hmem t₁ rid').1 h₁ with ⟨rfl, rfl⟩ | h₁
    · rcases (hmem t₂ rid').1 h₂ with ⟨rfl, -⟩ | h₂
      · rfl
      · exact absurd h₂ (hnotset t₂)
    · rcases (hmem t₂ rid').1 h₂ with ⟨-, rfl⟩ | h₂
      · exact absurd h₁ (hnotset t₁)
      · exact h.owned.apart t₁ t₂ rid' h₁ h₂
  · by_cases ht : t' = t
    · subst ht
      rw [hset, List.nodup_cons]
      exact ⟨hnotset t', h.owned.nodup t'⟩
    · rw [hothers t' ht]
      exact h.owned.nodup t'

variable (tgt) in
/-- When `insert_record` is called, `get_value` would still not find the key, and no other
transaction has a record with that key in the table whose entry is to come. -/
def StillFree (s : InsertState) : InsertCall → Prop
  | .insertRecord t _ => ∀ rec, (s.txns t).stage = .locked rec → s.ih (tgt.index.key rec) = none ∧
      ∀ t' rec' rid', t' ≠ t → (s.txns t').stage = .inserted rec' rid' →
        tgt.index.key rec' ≠ tgt.index.key rec
  | _ => True

theorem othersKept_update (s s' : InsertState) (t : TxnId) (txn : Inserter)
    (h : s'.txns = Function.update s.txns t txn) : OthersKept s s' t := by
  intro t' ht
  rw [h, Function.update_of_ne ht]

theorem notInserted_of_stage {t : TxnId} {stage : InsertStage} (h : (s.txns t).stage = stage)
    (hne : ∀ rec rid, stage ≠ .inserted rec rid) : s.NotInserted t := by
  intro rec rid
  rw [h]
  exact hne rec rid

/-- A transaction gets to a stage without touching the table. -/
theorem Inv.setStage (h : s.Inv tgt) {t : TxnId} (locks : LockManager) (stage : InsertStage)
    (hold : s.NotInserted t) (hne : ∀ rec rid, stage ≠ .inserted rec rid) :
    (InsertState.setStage { s with locks := locks } t stage).Inv tgt := by
  refine h.move rfl rfl (othersKept_update _ _ t _ rfl) hold ?_ ?_
  · refine notInserted_of_stage ?_ hne
    simp [InsertState.setStage]
  · simp [InsertState.setStage]

theorem Inv.withLocks (h : s.Inv tgt) (locks : LockManager) : Inv tgt { s with locks := locks } :=
  ⟨⟨h.exact.indexed, h.exact.row, h.exact.one, h.exact.unique⟩,
    ⟨h.owned.live, h.owned.apart, h.owned.nodup⟩⟩

/-- Every call keeps the invariant, when the key of the record that goes into the table is still
free. -/
theorem inv_step (s : InsertState) (c : InsertCall) (s' : InsertState)
    (hs : Meeting (StillFree tgt) (Steps tgt) s c s') (h : s.Inv tgt) : s'.Inv tgt := by
  obtain ⟨hfree, hs⟩ := hs
  cases c with
  | getValue t rec =>
    simp only [Steps, step] at hs
    split at hs
    · rename_i hstage
      have hold : s.NotInserted t := notInserted_of_stage hstage (by simp)
      split at hs
      · cases hs
        exact h.abort t hold
      · cases hs
        exact h.setStage s.locks _ hold (by simp)
    · cases hs
  | lockGap t =>
    simp only [Steps, step] at hs
    split at hs
    · rename_i rec hstage
      have hold : s.NotInserted t := notInserted_of_stage hstage (by simp)
      split at hs
      · split at hs
        · cases hs
          exact h.setStage _ _ hold (by simp)
        · cases hs
          exact (h.withLocks _).abort t hold
      · cases hs
        exact h.setStage s.locks _ hold (by simp)
    · cases hs
  | insertRecord t rid =>
    simp only [Steps, step] at hs
    split at hs
    · rename_i rec hstage
      have hold : s.NotInserted t := notInserted_of_stage hstage (by simp)
      split at hs
      · cases hs
      · rename_i hnone
        split at hs
        · cases hs
          obtain ⟨hkey, hothers⟩ := hfree rec hstage
          refine h.insertRecord hstage (Option.not_isSome_iff_eq_none.1 hnone) rfl rfl ?_
            (othersKept_update _ _ t _ rfl) hkey fun t' rec' rid' ht' => ?_
          · simp [InsertState.setStage]
          · refine hothers t' rec' rid' ?_ ht'
            rintro rfl
            exact hold rec' rid' ht'
        · cases hs
          exact (h.withLocks _).abort t hold
    · cases hs
  | insertEntry t =>
    simp only [Steps, step] at hs
    split at hs
    · rename_i rec rid hstage
      cases hs
      refine h.insertEntry hstage rfl rfl ?_ ?_ (othersKept_update _ _ t _ rfl)
      · refine notInserted_of_stage rfl fun rec' rid' => ?_
        simp only [Function.update_self]
        split_ifs <;> simp
      · simp
    · cases hs
  | commit t =>
    have hcommit {stage : InsertStage} (hstage : (s.txns t).stage = stage)
        (hne : ∀ rec rid, stage ≠ .inserted rec rid) :
        Inv tgt { s with
          locks := (s.locks.releaseAllLocks t).setState t .committed
          txns := Function.update s.txns t { s.txns t with stage := .ended, writeSet := [] } } := by
      refine h.move rfl rfl (othersKept_update _ _ t _ rfl) (notInserted_of_stage hstage hne) ?_ ?_
      · exact notInserted_of_stage rfl (by simp)
      · simp
    simp only [Steps, step] at hs
    split at hs
    · rename_i hstage
      cases hs
      exact hcommit hstage (by simp)
    · rename_i hstage
      cases hs
      exact hcommit hstage (by simp)
    · cases hs
  | rollback t =>
    simp only [Steps, step] at hs
    split at hs
    · rename_i hstage
      cases hs
      exact h.abort t (notInserted_of_stage hstage (by simp))
    · cases hs

/-- The table before the transactions of a run; `modes` says which of them are explicit. -/
def start (rows : Rid → Option Bytes) (ih : IxKey → Option Rid) (modes : TxnId → Bool) :
    InsertState :=
  { rows := rows, ih := ih, txns := fun t => { txnMode := modes t } }

theorem inv_start {rows : Rid → Option Bytes} {ih : IxKey → Option Rid} (modes : TxnId → Bool)
    (h : Indexes tgt.index.key rows ih) : (start rows ih modes).Inv tgt := by
  have hnot (rid : Rid) : ¬ (start rows ih modes).Pending rid := by
    rintro ⟨t, rec, ht⟩
    cases ht
  refine ⟨⟨fun k rid => ?_, fun t rec rid ht => ?_, fun t t' rec rec' rid ht => ?_,
    fun k rid rid' hk hk' => ?_⟩,
    ⟨fun t rid hr => ?_, fun t t' rid hr => ?_, fun t => ?_⟩⟩
  · rw [and_iff_left (hnot rid)]
    exact h k rid
  · cases ht
  · cases ht
  · exact (h.unique hk hk').symm
  · cases hr
  · cases hr
  · exact List.nodup_nil

end InsertState

open InsertState

/-- Unique keys survive in the runs of `step`: whenever no statement is under way, no two rows share
a key and every row is found through the index. -/
def UniqueKeysSurvive (tgt : InsertTarget) (step : InsertState → InsertCall → InsertState → Prop) :
    Prop :=
  ∀ (rows : Rid → Option Bytes) (ih : IxKey → Option Rid) (modes : TxnId → Bool),
    Indexes tgt.index.key rows ih →
    ∀ (cs : List InsertCall) (s : InsertState), Run step (start rows ih modes) cs s → s.Quiet →
      (∀ rid rid' rec rec', s.rows rid = some rec → s.rows rid' = some rec' →
        tgt.index.key rec = tgt.index.key rec' → rid = rid') ∧
      ∀ rid rec, s.rows rid = some rec → s.ih (tgt.index.key rec) = some rid

/-- A table with an index on its `INT` column. -/
def intTarget : InsertTarget where
  index := ⟨"t", [⟨"t", "a", .int, 4, 0⟩]⟩
  tabFd := 3
  indexFd := 5
  after := id

end Rmdb
