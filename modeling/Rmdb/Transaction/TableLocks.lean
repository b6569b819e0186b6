import Mathlib.Order.Bounds.Basic
import Rmdb.Transaction.RecordLocks

/-!
# Table locks

The modes of table locks are ordered `IS < IX, S < SIX < X`.  A queue whose granted requests are
pairwise compatible has the least upper bound of their modes as its group mode, whatever their
order; and a mode that `table_conflict` finds compatible with the group mode is compatible with each
of them. A request of a transaction that holds a lock on the table already is combined with it and
granted without looking at the other transactions, unless it is for `X`.  So the locks stay
compatible as long as no such combination clashes.
-/

namespace Rmdb

/-! ## Modes -/

/-- The compatibility matrix of table locks. -/
def compatible : LockMode → LockMode → Bool
  | .intentionShared, m => m ≠ .exclusive
  | .intentionExclusive, m => m = .intentionShared ∨ m = .intentionExclusive
  | .shared, m => m = .intentionShared ∨ m = .shared
  | .sIx, m => m = .intentionShared
  | .exclusive, _ => false

/-- The group mode of a single lock. -/
def LockMode.group : LockMode → GroupLockMode
  | .shared => .S
  | .exclusive => .X
  | .intentionShared => .IS
  | .intentionExclusive => .IX
  | .sIx => .SIX

namespace GroupLockMode

/-- The order of the modes. -/
def below : GroupLockMode → GroupLockMode → Bool
  | .nonLock, _ => true
  | .IS, g => g ≠ .nonLock
  | .IX, g => g = .IX ∨ g = .SIX ∨ g = .X
  | .S, g => g = .S ∨ g = .SIX ∨ g = .X
  | .SIX, g => g = .SIX ∨ g = .X
  | .X, g => g = .X

instance : PartialOrder GroupLockMode where
  le g g' := g.below g'
  le_refl g := by cases g <;> decide
  le_trans g g' g'' := by cases g <;> cases g' <;> cases g'' <;> decide
  le_antisymm g g' := by cases g <;> cases g' <;> decide

instance : DecidableLE GroupLockMode := fun g g' => inferInstanceAs (Decidable (g.below g' = true))

/-- The group mode `g` is that of locks that a lock in `mode` is compatible with. -/
def fits : GroupLockMode → LockMode → Bool
  | .nonLock, _ => true
  | .IS, m => m ≠ .exclusive
  | .IX, m => m = .intentionShared ∨ m = .intentionExclusive
  | .S, m => m = .intentionShared ∨ m = .shared
  | .SIX, m => m = .intentionShared
  | .X, _ => false

/-- What one turn of the loop makes of the group mode. -/
def add (g : GroupLockMode) : LockMode → GroupLockMode
  | .shared => if g = .nonLock ∨ g = .IS then .S else g
  | .exclusive => .X
  | .intentionShared => if g = .nonLock then .IS else g
  | .intentionExclusive => if g = .nonLock ∨ g = .IS then .IX else g
  | .sIx => .SIX

theorem isLUB_add {g : GroupLockMode} {mode : LockMode} (h : g.fits mode = true) :
    IsLUB {g, mode.group} (g.add mode) := by
  refine ⟨?_, fun g' hg' => ?_⟩
  · rintro g' (rfl | rfl)
    · revert h
      cases g' <;> cases mode <;> decide
    · revert h
      cases g <;> cases mode <;> decide
  · have h₁ : g ≤ g' := hg' (Set.mem_insert _ _)
    have h₂ : mode.group ≤ g' := hg' (Set.mem_insert_of_mem _ rfl)
    revert h h₁ h₂
    cases g <;> cases mode <;> cases g' <;> decide

theorem fits_add {g : GroupLockMode} {mode mode' : LockMode} (h : g.fits mode = true)
    (h' : g.fits mode' = true) (hc : compatible mode mode' = true) :
    (g.add mode).fits mode' = true := by
  revert h h' hc
  cases g <;> cases mode <;> cases mode' <;> decide

end GroupLockMode

/-- A request that passes `table_conflict` is compatible with every lock below the group mode. -/
theorem compatible_of_not_conflict {mode held : LockMode} {g : GroupLockMode} (hle : held.group ≤ g)
    (h : tableConflict mode g = false) : compatible mode held = true := by
  revert hle h
  cases mode <;> cases held <;> cases g <;> decide

theorem compatible_comm (mode mode' : LockMode) :
    compatible mode mode' = compatible mode' mode := by
  cases mode <;> cases mode' <;> rfl

/-! ## The group mode of compatible requests -/

/-- The modes of requests. -/
def groupModes (rs : List LockRequest) : Set GroupLockMode :=
  {g | ∃ req ∈ rs, req.lockMode.group = g}

/-- The requests are pairwise compatible. -/
def Compatible (rs : List LockRequest) : Prop :=
  rs.Pairwise fun req req' => compatible req.lockMode req'.lockMode = true

/-- Nothing is lost where the loop returns early. -/
theorem groupLockModeLoop_cons {g : GroupLockMode} {req : LockRequest} {rs : List LockRequest}
    (hg : ∀ r ∈ req :: rs, r.granted = true) (hc : Compatible (req :: rs)) :
    groupLockModeLoop g (req :: rs) = groupLockModeLoop (g.add req.lockMode) rs := by
  have hlater := (List.pairwise_cons.1 hc).1
  have hgranted := hg req List.mem_cons_self
  have hsix : ∀ rs : List LockRequest,
    (∀ r ∈ rs, r.granted = true ∧ r.lockMode = .intentionShared) →
      groupLockModeLoop .SIX rs = .SIX := by
    intro rs
    induction rs with
    | nil => exact fun _ => rfl
    | cons r rs ih =>
      intro h
      obtain ⟨hr, hm⟩ := h r List.mem_cons_self
      rw [groupLockModeLoop, hr, hm]
      exact ih fun r' hr' => h r' (List.mem_cons_of_mem _ hr')
  rw [groupLockModeLoop, hgranted]
  cases hmode : req.lockMode with
  | shared | intentionShared | intentionExclusive => rfl
  | exclusive =>
    -- nothing is compatible with an exclusive lock
    cases rs with
    | nil => rfl
    | cons r rs =>
      have h := hlater r List.mem_cons_self
      rw [hmode] at h
      cases h
  | sIx =>
    refine (hsix rs fun r hr => ⟨hg r (List.mem_cons_of_mem _ hr), ?_⟩).symm
    have h := hlater r hr
    rw [hmode] at h
    exact of_decide_eq_true h

/-- The loop computes the least upper bound of the modes. -/
theorem isLUB_groupLockModeLoop {g : GroupLockMode} {rs : List LockRequest}
    (hg : ∀ req ∈ rs, req.granted = true) (hc : Compatible rs)
    (hfits : ∀ req ∈ rs, g.fits req.lockMode = true) :
    IsLUB (insert g (groupModes rs)) (groupLockModeLoop g rs) := by
  induction rs generalizing g with
  | nil =>
    have hnil : groupModes [] = ∅ :=
      Set.eq_empty_of_forall_notMem fun g hg => by simp [groupModes] at hg
    rw [hnil, insert_empty_eq]
    exact isLUB_singleton
  | cons req rs ih =>
    obtain ⟨hlater, hrest⟩ := List.pairwise_cons.1 hc
    have hreq := hfits req List.mem_cons_self
    rw [groupLockModeLoop_cons hg hc]
    have hih := ih (fun r hr => hg r (List.mem_cons_of_mem _ hr)) hrest fun r hr =>
      GroupLockMode.fits_add hreq (hfits r (List.mem_cons_of_mem _ hr)) (hlater r hr)
    have hadd := GroupLockMode.isLUB_add hreq
    have hle : g.add req.lockMode ≤ groupLockModeLoop (g.add req.lockMode) rs :=
      hih.1 (Set.mem_insert _ _)
    refine ⟨?_, fun b hb => hih.2 ?_⟩
    · rintro g' (rfl | ⟨r, hr, rfl⟩)
      · exact le_trans (hadd.1 (Set.mem_insert _ _)) hle
      · rcases List.mem_cons.1 hr with rfl | hr
        · exact le_trans (hadd.1 (Set.mem_insert_of_mem _ rfl)) hle
        · exact hih.1 (Set.mem_insert_of_mem _ ⟨r, hr, rfl⟩)
    · rintro g' (rfl | ⟨r, hr, rfl⟩)
      · refine hadd.2 ?_
        rintro g' (rfl | rfl)
        · exact hb (Set.mem_insert _ _)
        · exact hb (Set.mem_insert_of_mem _ ⟨req, List.mem_cons_self, rfl⟩)
      · exact hb (Set.mem_insert_of_mem _ ⟨r, List.mem_cons_of_mem _ hr, rfl⟩)

/-! ## The invariant of a table queue -/

structure TableOk (q : LockRequestQueue) : Prop where
  granted : ∀ req ∈ q.requestQueue, req.granted = true
  nodup : (q.requestQueue.map (·.txnId)).Nodup
  compatible : Compatible q.requestQueue
  group : q.groupLockMode = groupLockModeLoop .nonLock q.requestQueue

theorem tableOk_empty : TableOk {} := ⟨by simp, by simp, List.Pairwise.nil, rfl⟩

/-- The group mode is the least upper bound of the granted modes. -/
theorem TableOk.isLUB {q : LockRequestQueue} (h : TableOk q) :
    IsLUB (groupModes q.requestQueue) q.groupLockMode := by
  have hlub := isLUB_groupLockModeLoop (g := .nonLock) h.granted h.compatible fun _ _ => rfl
  rw [h.group]
  refine ⟨fun g hg => hlub.1 (Set.mem_insert_of_mem _ hg), fun b hb => hlub.2 ?_⟩
  rintro g (rfl | hg)
  · cases b <;> decide
  · exact hb hg

/-- Changing the first request with `p`. -/
theorem updateFirst_append {p : LockRequest → Bool} {f : LockRequest → LockRequest}
    {u v : List LockRequest} {req : LockRequest} (hu : ∀ r ∈ u, p r = false) (hp : p req = true) :
    updateFirst p f (u ++ req :: v) = u ++ f req :: v := by
  induction u with
  | nil => rw [List.nil_append, updateFirst, if_pos hp, List.nil_append]
  | cons r u ih =>
    rw [List.cons_append, updateFirst,
      if_neg (by rw [hu r List.mem_cons_self]; exact Bool.false_ne_true),
      ih fun r' hr' => hu r' (List.mem_cons_of_mem _ hr'), List.cons_append]

/-- The own request of a transaction. -/
theorem TableOk.exists_own {q : LockRequestQueue} (h : TableOk q) {t : TxnId}
    (ht : ∃ req ∈ q.requestQueue, req.txnId = t) :
    ∃ u req v, q.requestQueue = u ++ req :: v ∧ req.txnId = t ∧ ∀ r ∈ u ++ v, r.txnId ≠ t := by
  obtain ⟨req, hr, rfl⟩ := ht
  obtain ⟨u, v, hq⟩ := List.append_of_mem hr
  have hnodup := h.nodup
  rw [hq, List.map_append, List.nodup_append, List.map_cons, List.nodup_cons] at hnodup
  obtain ⟨-, ⟨hv, -⟩, hu⟩ := hnodup
  refine ⟨u, req, v, hq, rfl, fun r hr => ?_⟩
  rcases List.mem_append.1 hr with hr | hr
  · exact hu r.txnId (List.mem_map_of_mem hr) req.txnId List.mem_cons_self
  · intro heq
    exact hv (heq ▸ List.mem_map_of_mem hr)

/-- The own request gets a mode that is compatible with all others. -/
theorem TableOk.replace {u v : List LockRequest} {req : LockRequest} {g : GroupLockMode}
    {mode : LockMode}
    (h : TableOk ⟨u ++ req :: v, g⟩)
    (hmode : ∀ r ∈ u ++ v, Rmdb.compatible mode r.lockMode = true) :
    TableOk (LockRequestQueue.updateGroupLockMode
      ⟨u ++ { req with lockMode := mode } :: v, g⟩) := by
  refine ⟨fun r hr => ?_, ?_, ?_, rfl⟩
  · rcases List.mem_append.1 hr with hr | hr
    · exact h.granted r (List.mem_append_left _ hr)
    · rcases List.mem_cons.1 hr with rfl | hr
      · exact h.granted req (List.mem_append_right _ List.mem_cons_self)
      · exact h.granted r (List.mem_append_right _ (List.mem_cons_of_mem _ hr))
  · have hnodup := h.nodup
    simpa [LockRequestQueue.updateGroupLockMode] using hnodup
  · obtain ⟨hu, hv, huv⟩ := List.pairwise_append.1 h.compatible
    refine List.pairwise_append.2 ⟨hu, List.pairwise_cons.2
      ⟨fun r hr => ?_, (List.pairwise_cons.1 hv).2⟩,
      fun r hr r' hr' => ?_⟩
    · exact hmode r (List.mem_append_right _ hr)
    · rcases List.mem_cons.1 hr' with rfl | hr'
      · rw [compatible_comm]
        exact hmode r (List.mem_append_left _ hr)
      · exact huv r hr r' (List.mem_cons_of_mem _ hr')

theorem TableOk.append {q : LockRequestQueue} (h : TableOk q) {t : TxnId} {mode : LockMode}
    (ht : ∀ req ∈ q.requestQueue, req.txnId ≠ t)
    (hmode : ∀ req ∈ q.requestQueue, Rmdb.compatible mode req.lockMode = true) (g : GroupLockMode) :
    TableOk (LockRequestQueue.updateGroupLockMode ⟨q.requestQueue ++ [⟨t, mode, true⟩], g⟩) := by
  refine ⟨fun r hr => ?_, ?_, ?_, rfl⟩
  · rcases List.mem_append.1 hr with hr | hr
    · exact h.granted r hr
    · rw [List.mem_singleton.1 hr]
  · rw [LockRequestQueue.updateGroupLockMode, List.map_append, List.nodup_append]
    refine ⟨h.nodup, List.nodup_singleton _, fun a ha b hb => ?_⟩
    obtain ⟨r, hr, rfl⟩ := List.mem_map.1 ha
    rw [List.mem_singleton.1 hb]
    exact ht r hr
  · refine List.pairwise_append.2 ⟨h.compatible, List.pairwise_singleton _ _, fun r hr r' hr' => ?_⟩
    rw [List.mem_singleton.1 hr', compatible_comm]
    exact hmode r hr

theorem TableOk.eraseP {q : LockRequestQueue} (h : TableOk q) (p : LockRequest → Bool)
    (g : GroupLockMode) :
    TableOk (LockRequestQueue.updateGroupLockMode ⟨q.requestQueue.eraseP p, g⟩) where
  granted req hr := h.granted req (List.mem_of_mem_eraseP hr)
  nodup := h.nodup.sublist ((List.eraseP_sublist).map _)
  compatible := h.compatible.sublist List.eraseP_sublist
  group := rfl

/-! ## One request -/

/-- The transaction holds the table already, and the combination of its mode with the requested one
clashes with the lock of another transaction. -/
def CombinesBadly (q : LockRequestQueue) (t : TxnId) (mode : LockMode) : Prop :=
  mode ≠ .exclusive ∧ ∃ req ∈ q.requestQueue, req.txnId = t ∧ req.granted = true ∧
    ∃ other ∈ q.requestQueue, other.txnId ≠ t ∧ other.granted = true ∧
      compatible (combineTableLock req.lockMode mode) other.lockMode = false

instance (q : LockRequestQueue) (t : TxnId) (mode : LockMode) :
    Decidable (CombinesBadly q t mode) :=
  inferInstanceAs (Decidable (_ ∧ _))

/-- A granted request keeps the invariant, unless it combines badly. -/
theorem TableOk.request {q q' : LockRequestQueue} {t : TxnId} {mode : LockMode} (h : TableOk q)
    (hreq : requestTable t mode q = .ok q') (hgood : ¬ CombinesBadly q t mode) : TableOk q' := by
  have hown (r : LockRequest) (hr : r ∈ q.requestQueue) : (r.txnId == t && r.granted) =
      (r.txnId == t) := by
    rw [h.granted r hr, Bool.and_true]
  unfold requestTable at hreq
  dsimp only at hreq
  split at hreq
  · rename_i hany
    obtain ⟨r₀, hr₀, hown₀⟩ := List.any_eq_true.1 hany
    rw [hown r₀ hr₀] at hown₀
    obtain ⟨u, req, v, hq, ht, hothers⟩ := h.exists_own ⟨r₀, hr₀, beq_iff_eq.1 hown₀⟩
    obtain ⟨rs, g⟩ := q
    obtain rfl : rs = u ++ req :: v := hq
    have hmem : req ∈ u ++ req :: v := List.mem_append_right _ List.mem_cons_self
    have hother (r : LockRequest) (hr : r ∈ u ++ v) : r ∈ u ++ req :: v := by
      rcases List.mem_append.1 hr with hr | hr
      · exact List.mem_append_left _ hr
      · exact List.mem_append_right _ (List.mem_cons_of_mem _ hr)
    have hu (r : LockRequest) (hr : r ∈ u) : (r.txnId == t && r.granted) = false := by
      rw [beq_eq_false_iff_ne.2 (hothers r (List.mem_append_left _ hr)), Bool.false_and]
    have hp : (req.txnId == t && req.granted) = true := by
      rw [hown req hmem]
      exact beq_iff_eq.2 ht
    split at hreq
    · -- `X` is granted to the only holder
      split at hreq
      · cases hreq
      · rename_i hnone
        cases hreq
        have hnil : u ++ v = [] := by
          refine List.eq_nil_iff_forall_not_mem.2 fun r hr => hnone ?_
          refine List.any_eq_true.2 ⟨r, hother r hr, ?_⟩
          rw [h.granted r (hother r hr), Bool.true_and]
          exact bne_iff_ne.2 (hothers r hr)
        obtain ⟨rfl, rfl⟩ := List.append_eq_nil_iff.1 hnil
        rw [updateFirst_append hu hp]
        have hgranted := h.granted req hmem
        refine ⟨by simpa using hgranted, by simp, List.pairwise_singleton _ _, ?_⟩
        rw [List.nil_append, groupLockModeLoop, hgranted]
        rfl
    · rename_i hmode
      cases hreq
      rw [updateFirst_append hu hp]
      refine h.replace fun r hr => ?_
      by_contra hclash
      exact hgood ⟨hmode, req, hmem, ht, h.granted req hmem, r, hother r hr, hothers r hr,
        h.granted r (hother r hr), Bool.eq_false_of_not_eq_true hclash⟩
  · rename_i hany
    have hothers (r : LockRequest) (hr : r ∈ q.requestQueue) : r.txnId ≠ t := by
      intro heq
      refine hany (List.any_eq_true.2 ⟨r, hr, ?_⟩)
      rw [hown r hr]
      exact beq_iff_eq.2 heq
    split at hreq
    · cases hreq
    · rename_i hfree
      cases hreq
      have hnone : ¬ (q.requestQueue.any fun req => req.txnId == t) = true := by
        intro hmine
        obtain ⟨r, hr, hrt⟩ := List.any_eq_true.1 hmine
        exact hothers r hr (beq_iff_eq.1 hrt)
      rw [if_neg hnone]
      refine h.append hothers (fun r hr => ?_) _
      refine compatible_of_not_conflict (h.isLUB.1 ⟨r, hr, rfl⟩) ?_
      refine Bool.eq_false_of_not_eq_true fun hconf => hfree (List.any_eq_true.2 ⟨r, hr, ?_⟩)
      rw [hconf, Bool.or_true, Bool.and_true]
      exact bne_iff_ne.2 (hothers r hr)

/-! ## Runs of table lock requests -/

/-- The calls of a run. -/
inductive TableCall
  | lockIS (t : TxnId) (fd : ℤ)
  | lockIX (t : TxnId) (fd : ℤ)
  | lockShared (t : TxnId) (fd : ℤ)
  | lockExclusive (t : TxnId) (fd : ℤ)
  | unlock (t : TxnId) (id : LockDataId)
deriving DecidableEq, Repr

def TableCall.exec (m : LockManager) : TableCall → LockManager
  | .lockIS t fd => (m.lockISOnTable t fd).1
  | .lockIX t fd => (m.lockIXOnTable t fd).1
  | .lockShared t fd => (m.lockSharedOnTable t fd).1
  | .lockExclusive t fd => (m.lockExclusiveOnTable t fd).1
  | .unlock t id => (m.unlock t id).1

/-- One call, as a step relation. -/
def tableStep (m : LockManager) (c : TableCall) (m' : LockManager) : Prop := m' = c.exec m

/-- The request of a transaction that is not shrinking combines badly. -/
def LockManager.Combines (m : LockManager) (t : TxnId) (fd : ℤ) (mode : LockMode) : Prop :=
  (m.txns t).state ≠ .shrinking ∧ CombinesBadly (m.queue (.table fd)) t mode

instance (m : LockManager) (t : TxnId) (fd : ℤ) (mode : LockMode) :
    Decidable (m.Combines t fd mode) :=
  inferInstanceAs (Decidable (_ ∧ _))

/-- The call is a request that combines badly. -/
def Clashes (m : LockManager) : TableCall → Prop
  | .lockIS t fd => m.Combines t fd .intentionShared
  | .lockIX t fd => m.Combines t fd .intentionExclusive
  | .lockShared t fd => m.Combines t fd .shared
  | .lockExclusive _ _ => False
  | .unlock _ _ => False

instance (m : LockManager) (c : TableCall) : Decidable (Clashes m c) :=
  match c with
  | .lockIS t fd => inferInstanceAs (Decidable (m.Combines t fd .intentionShared))
  | .lockIX t fd => inferInstanceAs (Decidable (m.Combines t fd .intentionExclusive))
  | .lockShared t fd => inferInstanceAs (Decidable (m.Combines t fd .shared))
  | .lockExclusive _ _ => inferInstanceAs (Decidable False)
  | .unlock _ _ => inferInstanceAs (Decidable False)

/-- Every table queue satisfies `TableOk`. -/
def LockManager.TablesOk (m : LockManager) : Prop := ∀ fd, TableOk (m.queue (.table fd))

theorem tablesOk_lockOnTable {m : LockManager} (h : m.TablesOk) (t : TxnId) (fd : ℤ)
    {mode : LockMode}
    (hgood : ¬ m.Combines t fd mode) : (m.lockOnTable t fd mode).1.TablesOk := by
  intro fd'
  unfold LockManager.lockOnTable
  dsimp only
  split
  · exact h fd'
  · rename_i hstate
    have hgood : ¬ CombinesBadly (m.queue (.table fd)) t mode := fun hbad => hgood ⟨hstate, hbad⟩
    split
    · exact h fd'
    · rename_i q hq
      rw [LockManager.queue_setState] at hq
      by_cases hfd : LockDataId.table fd' = .table fd
      · rw [hfd, LockManager.queue_grant_self]
        exact (h fd).request hq hgood
      · rw [LockManager.queue_grant_of_ne _ _ _ _ _ hfd, LockManager.queue_setState]
        exact h fd'

theorem tablesOk_step (m : LockManager) (c : TableCall) (m' : LockManager)
    (hs : Meeting (fun m c => ¬ Clashes m c) tableStep m c m') (h : m.TablesOk) : m'.TablesOk := by
  obtain ⟨hgood, rfl⟩ := hs
  cases c with
  | lockIS t fd => exact tablesOk_lockOnTable h t fd hgood
  | lockIX t fd => exact tablesOk_lockOnTable h t fd hgood
  | lockShared t fd => exact tablesOk_lockOnTable h t fd hgood
  | lockExclusive t fd => exact tablesOk_lockOnTable h t fd fun hbad => hbad.2.1 rfl
  | unlock t id =>
    intro fd
    change TableOk ((m.unlock t id).1.queue (.table fd))
    rcases unlock_queue m t id (.table fd) with ⟨heq, -⟩ | ⟨rfl, heq⟩
    · rw [heq]
      exact h fd
    · rw [heq]
      exact (h fd).eraseP _ _

/-- The locks on a table are compatible in the runs of `step`: any two granted requests of different
transactions are, and the group mode is the least upper bound of the granted modes. -/
def TableLocksCompatible (step : LockManager → TableCall → LockManager → Prop) (fd : ℤ) : Prop :=
  ∀ (cs : List TableCall) (m : LockManager), Run step {} cs m →
    (∀ req ∈ (m.queue (.table fd)).requestQueue, ∀ req' ∈ (m.queue (.table fd)).requestQueue,
      req.granted = true → req'.granted = true → req.txnId ≠ req'.txnId →
      compatible req.lockMode req'.lockMode = true) ∧
    IsLUB
      {g | ∃ req ∈ (m.queue (.table fd)).requestQueue, req.granted = true ∧ req.lockMode.group = g}
      (m.queue (.table fd)).groupLockMode

/-- In every run in which no request combines badly, the locks on every table are compatible. -/
theorem table_locks_compatible_of_not_clashes (fd : ℤ) :
    TableLocksCompatible (Meeting (fun m c => ¬ Clashes m c) tableStep) fd := by
  intro cs m hrun
  have hok : TableOk (m.queue (.table fd)) :=
    hrun.invariant tablesOk_step (fun _ => tableOk_empty) fd
  refine ⟨fun req hr req' hr' _ _ hne => ?_, ?_⟩
  · have : Std.Symm fun req req' : LockRequest => compatible req.lockMode req'.lockMode = true :=
      ⟨fun req req' hc => by rwa [compatible_comm]⟩
    exact hok.compatible.forall hr hr' fun heq => hne (congrArg _ heq)
  · have hmodes : {g | ∃ req ∈ (m.queue (.table fd)).requestQueue, req.granted = true ∧
        req.lockMode.group = g} = groupModes (m.queue (.table fd)).requestQueue := by
      ext g
      refine ⟨fun ⟨req, hr, _, hg⟩ => ⟨req, hr, hg⟩, fun ⟨req, hr, hg⟩ =>
        ⟨req, hr, hok.granted req hr, hg⟩⟩
    rw [hmodes]
    exact hok.isLUB

/-- Intention locks are combined, and the table is asked for in exclusive mode before and after the
other transaction has left it. -/
theorem table_locks_compatible_combined : ∃ m, Run (Meeting (fun m c => ¬ Clashes m c) tableStep) {}
      [.lockIS 1 3, .lockIX 2 3, .lockIX 1 3, .lockExclusive 2 3, .unlock 1 (.table 3),
        .lockShared 1 3, .lockExclusive 2 3] m ∧
    (m.queue (.table 3)).groupLockMode = .X ∧
    IsLUB {g | ∃ req ∈ (m.queue (.table 3)).requestQueue, req.granted = true ∧
      req.lockMode.group = g} (m.queue (.table 3)).groupLockMode := by
  have hrun : Run (Meeting (fun m c => ¬ Clashes m c) tableStep) {}
      [.lockIS 1 3, .lockIX 2 3, .lockIX 1 3, .lockExclusive 2 3, .unlock 1 (.table 3),
        .lockShared 1 3, .lockExclusive 2 3] _ :=
    .cons ⟨by decide, rfl⟩ <| .cons ⟨by decide, rfl⟩ <| .cons ⟨by decide, rfl⟩ <|
      .cons ⟨by decide, rfl⟩ <|
      .cons ⟨by decide, rfl⟩ <| .cons ⟨by decide, rfl⟩ <| .single ⟨by decide, rfl⟩
  exact ⟨_, hrun, by decide, (table_locks_compatible_of_not_clashes 3 _ _ hrun).2⟩

/-- Two transactions hold a table in shared mode; one of them asks for `IX` and is granted `SIX`. -/
theorem not_table_locks_compatible : ¬ TableLocksCompatible tableStep 3 := by
  intro h
  have hrun : Run tableStep {} [.lockShared 1 3, .lockShared 2 3, .lockIX 1 3] _ :=
    .cons rfl (.cons rfl (.single rfl))
  have hbad := (h _ _ hrun).1 ⟨1, .sIx, true⟩ (by decide) ⟨2, .shared, true⟩
    (by decide) rfl rfl (by decide)
  exact absurd hbad (by decide)

end Rmdb
