import Rmdb.Transaction.LockSets

/-!
# Gap locks are exact

A gap lock is on a range of keys or on one key.  Two of them clash when a point lies in a range or
two points are equal.  `gap_lock_conflict` finds the clash of a request with a held lock, provided
that the held range decodes to itself: the encoding ends the lower bound with a zero byte, and
decoding stops at the first one, so it needs a lower bound without zero bytes.
-/

namespace Rmdb

/-! ## The encoding of ranges -/

theorem length_encodeGapRange (r : GapRange) :
    (encodeGapRange r).length = r.lower.length + r.upper.length + 4 := by
  simp [encodeGapRange]
  omega

/-- A range whose lower bound has no zero byte is decoded to itself. -/
theorem decodeGapRange_encodeGapRange {r : GapRange} (h : 0 ∉ r.lower) :
    decodeGapRange (encodeGapRange r) = r := by
  obtain ⟨lower, upper, lowerOpen, upperOpen⟩ := r
  have hfind : ((encodeGapRange ⟨lower, upper, lowerOpen, upperOpen⟩).drop 1).findIdx? (· == 0) =
      some lower.length := by
    have hnone : lower.findIdx? (· == 0) = none :=
      List.findIdx?_eq_none_iff.2 fun b hb => beq_false_of_ne fun heq => h (heq ▸ hb)
    simp [encodeGapRange, List.findIdx?_append, hnone, List.findIdx?_cons]
  have hlen := length_encodeGapRange ⟨lower, upper, lowerOpen, upperOpen⟩
  unfold decodeGapRange
  rw [if_neg (by simp [encodeGapRange]), hfind]
  dsimp only at hlen ⊢
  rw [if_neg (by omega), hlen]
  have hupper : lower.length + upper.length + 4 - (lower.length + 1) - 3 = upper.length := by omega
  -- the flags are the last two bytes
  have hflag (i : ℕ) : (encodeGapRange ⟨lower, upper, lowerOpen, upperOpen⟩).getD
      (lower.length + upper.length + 2 + i) 0 =
      [if lowerOpen then (1 : UInt8) else 0, if upperOpen then 1 else 0].getD i 0 := by
    have happ : encodeGapRange ⟨lower, upper, lowerOpen, upperOpen⟩ =
      (kGapRangeTag :: lower ++ 0 :: upper) ++
        [if lowerOpen then (1 : UInt8) else 0, if upperOpen then 1 else 0] := by
      simp [encodeGapRange]
    have hpre : (kGapRangeTag :: lower ++ 0 :: upper).length = lower.length + upper.length + 2 := by
      simp
      omega
    rw [happ, ← hpre, List.getD_eq_getElem?_getD, List.getElem?_append_right (Nat.le_add_right _ _),
      Nat.add_sub_cancel_left, List.getD_eq_getElem?_getD]
  have h₀ := hflag 0
  have h₁ := hflag 1
  rw [show lower.length + upper.length + 2 + 0 = lower.length + upper.length + 4 - 2 by omega] at h₀
  rw [show lower.length + upper.length + 2 + 1 = lower.length + upper.length + 4 - 1 by omega] at h₁
  rw [h₀, h₁, hupper]
  congr 1
  · simp [encodeGapRange]
  · have hlower : lower.drop (lower.length + 1) = [] := List.drop_eq_nil_of_le (Nat.le_succ _)
    rw [encodeGapRange, List.drop_succ_cons, List.drop_append, hlower]
    simp
  · cases lowerOpen <;> rfl
  · cases upperOpen <;> rfl

/-- A decoded lower bound ends before the first zero byte. -/
theorem zero_notMem_lower_decodeGapRange (gapKey : Bytes) : 0 ∉ (decodeGapRange gapKey).lower := by
  unfold decodeGapRange
  split
  · simp
  · split
    · simp
    · rename_i i hi
      dsimp only
      split
      · simp
      · rw [Nat.add_sub_cancel]
        intro hmem
        obtain ⟨j, hj, hval⟩ := List.mem_iff_getElem.1 hmem
        obtain ⟨_, -, hbefore⟩ := List.findIdx?_eq_some_iff_getElem.1 hi
        rw [List.length_take] at hj
        refine hbefore j (by omega) ?_
        rw [List.getElem_take] at hval
        rw [hval]
        rfl

/-- Decoding gives a range back just when its lower bound has no zero byte. -/
theorem decodeGapRange_encodeGapRange_iff (r : GapRange) :
    decodeGapRange (encodeGapRange r) = r ↔ 0 ∉ r.lower := by
  refine ⟨fun h => ?_, decodeGapRange_encodeGapRange⟩
  rw [← h]
  exact zero_notMem_lower_decodeGapRange _

theorem encodeGapRange_inj {r r' : GapRange} (hlower : r.lower.length = r'.lower.length)
    (hupper : r.upper.length = r'.upper.length) (h : encodeGapRange r = encodeGapRange r') :
    r = r' := by
  have hflag : ∀ b b' : Bool, (if b then (1 : UInt8) else 0) = (if b' then 1 else 0) →
    b = b' := by decide
  obtain ⟨hl, hrest⟩ := List.append_inj (List.cons.inj h).2 hlower
  obtain ⟨hu, hflags⟩ := List.append_inj (List.cons.inj hrest).2 hupper
  obtain ⟨hlo, huo⟩ := List.cons.inj hflags
  obtain ⟨lower, upper, lowerOpen, upperOpen⟩ := r
  obtain ⟨lower', upper', lowerOpen', upperOpen'⟩ := r'
  obtain rfl : lower = lower' := hl
  obtain rfl : upper = upper' := hu
  obtain rfl := hflag _ _ hlo
  obtain rfl := hflag _ _ (List.cons.inj huo).1
  rfl

/-- A key is not read beyond its end. -/
theorem cStr_of_length {after : Bytes → Bytes} {n : ℕ} {s : Bytes} (h : s.length = n) :
    cStr after n s = s := by
  subst h
  exact List.take_left

/-! ## Clashing locks -/

/-- What a gap lock is on. -/
inductive GapLock
  | range (r : GapRange)
  | point (key : Bytes)
deriving DecidableEq, Repr

namespace GapLock

/-- The encoded `gap_key_`. -/
def gapKey : GapLock → Bytes
  | range r => encodeGapRange r
  | point key => encodeGapPoint key

/-- Ranges are locked in shared mode, points in exclusive mode. -/
def mode : GapLock → LockMode
  | range _ => .shared
  | point _ => .exclusive

/-- The keys are as long as those of the index. -/
def Fits (cols : List (ColType × ℕ)) : GapLock → Prop
  | range r => r.lower.length = keyLen cols ∧ r.upper.length = keyLen cols
  | point key => key.length = keyLen cols

/-- A point lies in a range, or two points are equal. -/
def clash (cols : List (ColType × ℕ)) : GapLock → GapLock → Bool
  | range r, point key => keyInGapRange cols key r
  | point key, range r => keyInGapRange cols key r
  | point key, point key' => ixCompare cols key key' == .eq
  | range _, range _ => false

/-- The lower bound of a range has no zero byte. -/
def ZeroFree : GapLock → Prop
  | range r => 0 ∉ r.lower
  | point _ => True

instance : DecidablePred ZeroFree := fun g => by cases g <;> unfold ZeroFree <;> infer_instance

theorem gapKey_inj {cols : List (ColType × ℕ)} {g g' : GapLock} (hg : g.Fits cols)
    (hg' : g'.Fits cols) (h : g.gapKey = g'.gapKey) : g = g' := by
  cases g with
  | range r =>
    cases g' with
    | range r' => rw [encodeGapRange_inj (hg.1.trans hg'.1.symm) (hg.2.trans hg'.2.symm) h]
    | point key => exact absurd (List.cons.inj h).1 (by decide)
  | point key =>
    cases g' with
    | range r => exact absurd (List.cons.inj h).1 (by decide)
    | point key' => rw [(List.cons.inj h).2]

end GapLock

theorem memcmp_swap (a b : Bytes) : (memcmp a b).swap = memcmp b a := by
  induction a generalizing b with
  | nil => cases b <;> rfl
  | cons x a ih =>
    cases b with
    | nil => rfl
    | cons y b => rw [memcmp, memcmp, Ordering.swap_then, ih, Nat.compare_swap]

theorem ixCompareCol_swap (a b : Bytes) (type : ColType) (len : ℕ) :
    (ixCompareCol a b type len).swap = ixCompareCol b a type len := by
  cases type with
  | float =>
    rw [ixCompareCol, ixCompareCol, Bool.or_comm]
    split_ifs
    · rfl
    · exact Int.compare_swap _ _
  | string => exact memcmp_swap _ _
  | int => exact Int.compare_swap _ _
  | bigint => exact Int.compare_swap _ _
  | datetime => exact Int.compare_swap _ _

theorem ixCompare_swap (cols : List (ColType × ℕ)) (a b : Bytes) :
    (ixCompare cols a b).swap = ixCompare cols b a := by
  induction cols generalizing a b with
  | nil => rfl
  | cons col cols ih =>
    obtain ⟨type, len⟩ := col
    rw [ixCompare, ixCompare, Ordering.swap_then, ixCompareCol_swap, ih]

theorem GapLock.clash_comm (cols : List (ColType × ℕ)) (g g' : GapLock) :
    g.clash cols g' = g'.clash cols g := by
  cases g with
  | range r => cases g' <;> rfl
  | point key =>
    cases g' with
    | range r => rfl
    | point key' =>
      change (ixCompare cols key key' == .eq) = (ixCompare cols key' key == .eq)
      rw [← ixCompare_swap cols key key']
      cases ixCompare cols key key' <;> rfl

/-! ## One request -/

namespace GapLock

def isRange : GapLock → Bool
  | range _ => true
  | point _ => false

/-- The bounds that are handed to `lock_on_gap`. -/
def bounds : GapLock → GapRange
  | range r => r
  | point key => ⟨key, key, false, false⟩

end GapLock

/-- `lock_shared_on_gap_range` or `lock_exclusive_on_gap_point`. -/
def LockManager.lockGap (after : Bytes → Bytes) (m : LockManager) (t : TxnId) (fd : ℤ)
    (cols : List (ColType × ℕ)) : GapLock → LockManager × Except AbortReason Bool
  | .range r => m.lockSharedOnGapRange after t fd cols r
  | .point key => m.lockExclusiveOnGapPoint after t fd cols key

theorem lockGap_eq (after : Bytes → Bytes) (m : LockManager) (t : TxnId) (fd : ℤ)
    (cols : List (ColType × ℕ)) (g : GapLock) :
    m.lockGap after t fd cols g = m.lockOnGap after t fd g.gapKey g.mode cols g.isRange
    g.bounds := by
  cases g <;> rfl

/-- `t` holds the gap lock `g` of the index. -/
def LockManager.HoldsGap (m : LockManager) (t : TxnId) (fd : ℤ) (g : GapLock) : Prop :=
  ∃ req ∈ (m.queue (.gap fd g.gapKey)).requestQueue, req.txnId = t ∧ req.granted = true

instance (m : LockManager) (t : TxnId) (fd : ℤ) (g : GapLock) : Decidable (m.HoldsGap t fd g) :=
  inferInstanceAs (Decidable (∃ req ∈ (m.queue (.gap fd g.gapKey)).requestQueue,
    req.txnId = t ∧ req.granted = true))

/-- `gap_lock_conflict` finds the clash with a held lock that decodes to itself. -/
theorem gapLockConflict_eq_clash (after : Bytes → Bytes) {cols : List (ColType × ℕ)} (g : GapLock)
    {held : GapLock} (hfits : held.Fits cols) (hzero : held.ZeroFree) :
    gapLockConflict after cols g.mode held.mode g.isRange g.bounds
    (heldIsRange held.gapKey) held.gapKey = g.clash cols held := by
  cases held with
  | range r =>
    have hrange : heldIsRange (GapLock.range r).gapKey = true := rfl
    rw [hrange]
    cases g with
    | range r' => rfl
    | point key =>
      change keyInGapRange cols key { decodeGapRange (encodeGapRange r) with
          lower := cStr after (keyLen cols) (decodeGapRange (encodeGapRange r)).lower
          upper := cStr after (keyLen cols) (decodeGapRange (encodeGapRange r)).upper } =
        keyInGapRange cols key r
      rw [decodeGapRange_encodeGapRange hzero, cStr_of_length hfits.1, cStr_of_length hfits.2]
  | point key =>
    have hpoint : heldIsRange (GapLock.point key).gapKey = false := rfl
    rw [hpoint]
    cases g with
    | range r =>
      change keyInGapRange cols (cStr after (keyLen cols) key) r = keyInGapRange cols key r
      rw [cStr_of_length hfits]
    | point key' =>
      change (ixCompare cols key' (cStr after (keyLen cols) key) == .eq) =
        (ixCompare cols key' key == .eq)
      rw [cStr_of_length hfits]

/-- The loop over the lock table looks at all requests for gaps of the index. -/
theorem gapBlocked_iff {after : Bytes → Bytes} {m : LockManager} {t : TxnId} {fd : ℤ}
    {mode : LockMode}
    {cols : List (ColType × ℕ)} {isRange : Bool} {r : GapRange} :
    m.gapBlocked after t fd mode cols isRange r = true ↔
      ∃ gapKey, ∃ req ∈ (m.queue (.gap fd gapKey)).requestQueue, req.granted = true ∧
      req.txnId ≠ t ∧
        gapLockConflict after cols mode req.lockMode isRange r
        (heldIsRange gapKey) gapKey = true := by
  have hentry (id : LockDataId) (req : LockRequest) : req ∈ (m.queue id).requestQueue ↔
      ∃ q, (⟨id, q⟩ : Sigma fun _ : LockDataId => LockRequestQueue) ∈ m.lockTable.entries ∧
        req ∈ q.requestQueue := by
    have hlookup (q : LockRequestQueue) :
        (⟨id, q⟩ : Sigma fun _ : LockDataId => LockRequestQueue) ∈ m.lockTable.entries ↔
          m.lockTable.lookup id = some q := AList.mem_lookup_iff.symm
    simp only [hlookup, LockManager.queue]
    cases m.lockTable.lookup id <;> simp
  rw [LockManager.gapBlocked, List.any_eq_true]
  constructor
  · rintro ⟨⟨id, q⟩, he, h⟩
    cases id with
    | table _ => cases h
    | record _ _ => cases h
    | gap fd' gapKey =>
      simp only [Bool.and_eq_true, beq_iff_eq, List.any_eq_true, bne_iff_ne] at h
      obtain ⟨rfl, req, hr, ⟨hg, ht⟩, hc⟩ := h
      exact ⟨gapKey, req, (hentry _ _).2 ⟨q, he, hr⟩, hg, ht, hc⟩
  · rintro ⟨gapKey, req, hr, hg, ht, hc⟩
    obtain ⟨q, he, hr⟩ := (hentry _ _).1 hr
    refine ⟨_, he, ?_⟩
    simp only [Bool.and_eq_true, beq_iff_eq, List.any_eq_true, bne_iff_ne]
    exact ⟨trivial, req, hr, ⟨hg, ht⟩, hc⟩

/-- The outcomes of a gap lock request: the queues stay as they are, because the transaction is
shrinking or holds the lock already or another lock is in the way; or the request is appended to its
queue. -/
theorem lockGap_cases (after : Bytes → Bytes) (m : LockManager) (t : TxnId) (fd : ℤ)
    (cols : List (ColType × ℕ)) (g : GapLock) :
    ((∀ id, (m.lockGap after t fd cols g).1.queue id = m.queue id) ∧
      ((m.lockGap after t fd cols g).2 = .ok true ∨ (m.txns t).state = .shrinking ∨
        m.gapBlocked after t fd g.mode cols g.isRange g.bounds = true)) ∨
    ((m.lockGap after t fd cols g).2 = .ok true ∧
      m.gapBlocked after t fd g.mode cols g.isRange g.bounds = false ∧
      (∀ id, id ≠ .gap fd g.gapKey → (m.lockGap after t fd cols g).1.queue id = m.queue id) ∧
      ((m.lockGap after t fd cols g).1.queue (.gap fd g.gapKey)).requestQueue =
        (m.queue (.gap fd g.gapKey)).requestQueue ++ [⟨t, g.mode, true⟩]) := by
  rw [lockGap_eq]
  unfold LockManager.lockOnGap
  dsimp only
  split
  · rename_i hstate
    exact Or.inl ⟨fun _ => rfl, Or.inr (Or.inl hstate)⟩
  · split
    · exact Or.inl ⟨fun _ => rfl, Or.inl rfl⟩
    · split
      · rename_i hblocked
        exact Or.inl ⟨fun _ => rfl, Or.inr (Or.inr hblocked)⟩
      · rename_i hfree
        refine Or.inr ⟨rfl, Bool.eq_false_of_not_eq_true hfree, fun id hid => ?_, ?_⟩
        · rw [LockManager.queue_grant_of_ne _ _ _ _ _ hid, LockManager.queue_setState]
        · rw [LockManager.queue_grant_self, LockManager.queue_setState]

/-! ## Runs of gap lock requests -/

/-- The calls of a run.  `colsOf` gives the columns of each index. -/
inductive GapCall
  | lock (t : TxnId) (fd : ℤ) (g : GapLock)
  | unlock (t : TxnId) (id : LockDataId)
deriving DecidableEq, Repr

section Runs

variable (after : Bytes → Bytes) (colsOf : ℤ → List (ColType × ℕ))

/-- One call; the keys of a request are as long as those of the index. -/
def gapStep (m : LockManager) (c : GapCall) (m' : LockManager) : Prop :=
  match c with
  | .lock t fd g => g.Fits (colsOf fd) ∧ m' = (m.lockGap after t fd (colsOf fd) g).1
  | .unlock t id => m' = (m.unlock t id).1

/-- The gap locks are exact in the runs of `step`: no two transactions hold clashing locks, and a
request of a transaction that is not shrinking is refused only when it clashes with a lock of
another one. -/
def GapLocksExact (step : LockManager → GapCall → LockManager → Prop) (fd : ℤ) : Prop :=
  ∀ (cs : List GapCall) (m : LockManager), Run step {} cs m →
    (∀ t t' g g', t ≠ t' → g.Fits (colsOf fd) → g'.Fits (colsOf fd) → m.HoldsGap t fd g →
      m.HoldsGap t' fd g' → g.clash (colsOf fd) g' = false) ∧
    ∀ t g, g.Fits (colsOf fd) → (m.txns t).state ≠ .shrinking →
      (m.lockGap after t fd (colsOf fd) g).2 ≠ .ok true →
      ∃ t' g', t' ≠ t ∧ g'.Fits (colsOf fd) ∧ m.HoldsGap t' fd g' ∧ g.clash (colsOf fd) g' = true

/-- The call asks for no range whose lower bound has a zero byte. -/
def AsksZeroFree : GapCall → Prop
  | .lock _ _ g => g.ZeroFree
  | .unlock _ _ => True

/-- The held locks are what their gap keys encode, and no two of different transactions clash. -/
structure GapInv (m : LockManager) : Prop where
  held : ∀ fd gapKey, ∀ req ∈ (m.queue (.gap fd gapKey)).requestQueue,
    ∃ g : GapLock, g.Fits (colsOf fd) ∧ g.ZeroFree ∧ gapKey = g.gapKey ∧ req.lockMode = g.mode ∧
      req.granted = true
  apart : ∀ fd t t' g g', t ≠ t' → g.Fits (colsOf fd) → g'.Fits (colsOf fd) → m.HoldsGap t fd g →
    m.HoldsGap t' fd g' → g.clash (colsOf fd) g' = false

variable {after colsOf}

/-- A request is blocked just when it clashes with a held lock. -/
theorem GapInv.gapBlocked_iff {m : LockManager} (h : GapInv colsOf m)
    (after : Bytes → Bytes) (t : TxnId) (fd : ℤ) (g : GapLock) :
    m.gapBlocked after t fd g.mode (colsOf fd) g.isRange g.bounds = true ↔
      ∃ t' g', t' ≠ t ∧ g'.Fits (colsOf fd) ∧ m.HoldsGap t' fd g' ∧ g.clash
      (colsOf fd) g' = true := by
  rw [Rmdb.gapBlocked_iff]
  constructor
  · rintro ⟨gapKey, req, hr, hg, ht, hc⟩
    obtain ⟨g', hfits, hzero, rfl, hmode, -⟩ := h.held fd gapKey req hr
    rw [hmode, gapLockConflict_eq_clash after g hfits hzero] at hc
    exact ⟨req.txnId, g', ht, hfits, ⟨req, hr, rfl, hg⟩, hc⟩
  · rintro ⟨t', g', hne, hfits, ⟨req, hr, rfl, hg⟩, hc⟩
    obtain ⟨g'', hfits'', hzero, hkey, hmode, -⟩ := h.held fd g'.gapKey req hr
    obtain rfl := GapLock.gapKey_inj hfits hfits'' hkey
    refine ⟨g'.gapKey, req, hr, hg, hne, ?_⟩
    rw [hmode, gapLockConflict_eq_clash after g hfits hzero]
    exact hc

/-- The queues keep their requests or lose some. -/
theorem GapInv.sublist {m m' : LockManager} (h : GapInv colsOf m)
    (hq : ∀ id, (m'.queue id).requestQueue ⊆ (m.queue id).requestQueue) : GapInv colsOf m' where
  held fd gapKey req hr := h.held fd gapKey req (hq _ hr)
  apart fd t t' g g' hne hg hg' ht ht' := by
    obtain ⟨req, hr, hreq⟩ := ht
    obtain ⟨req', hr', hreq'⟩ := ht'
    exact h.apart fd t t' g g' hne hg hg' ⟨req, hq _ hr, hreq⟩ ⟨req', hq _ hr', hreq'⟩

/-- A lock that clashes with no held one is added. -/
theorem GapInv.add {m m' : LockManager} (h : GapInv colsOf m) {t : TxnId} {fd : ℤ} {g : GapLock}
    (hfits : g.Fits (colsOf fd)) (hzero : g.ZeroFree)
    (hfree : ∀ t' g', t' ≠ t → g'.Fits (colsOf fd) → m.HoldsGap t' fd g' →
      g.clash (colsOf fd) g' = false)
    (hne : ∀ id, id ≠ .gap fd g.gapKey → m'.queue id = m.queue id)
    (hself : (m'.queue (.gap fd g.gapKey)).requestQueue =
      (m.queue (.gap fd g.gapKey)).requestQueue ++ [⟨t, g.mode, true⟩]) : GapInv colsOf m' := by
  have hmem (fd' : ℤ) (gapKey : Bytes) (req : LockRequest)
      (hr : req ∈ (m'.queue (.gap fd' gapKey)).requestQueue) :
      req ∈ (m.queue (.gap fd' gapKey)).requestQueue ∨
        (fd' = fd ∧ gapKey = g.gapKey ∧ req = ⟨t, g.mode, true⟩) := by
    by_cases hid : LockDataId.gap fd' gapKey = .gap fd g.gapKey
    · obtain ⟨rfl, rfl⟩ := LockDataId.gap.inj hid
      rw [hself, List.mem_append, List.mem_singleton] at hr
      exact hr.imp_right fun hr => ⟨rfl, rfl, hr⟩
    · rw [hne _ hid] at hr
      exact Or.inl hr
  have hholds (fd' : ℤ) (t' : TxnId) (g' : GapLock) (hg' : g'.Fits (colsOf fd'))
      (ht' : m'.HoldsGap t' fd' g') : m.HoldsGap t' fd' g' ∨ (fd' = fd ∧ g' = g ∧ t' = t) := by
    obtain ⟨req, hr, ht, hgr⟩ := ht'
    rcases hmem fd' _ req hr with hr | ⟨rfl, hkey, rfl⟩
    · exact Or.inl ⟨req, hr, ht, hgr⟩
    · exact Or.inr ⟨rfl, GapLock.gapKey_inj hg' hfits hkey, ht.symm⟩
  refine ⟨fun fd' gapKey req hr => ?_, fun fd' t₁ t₂ g₁ g₂ h₁₂ hg₁ hg₂ ht₁ ht₂ => ?_⟩
  · rcases hmem fd' gapKey req hr with hr | ⟨rfl, rfl, rfl⟩
    · exact h.held fd' gapKey req hr
    · exact ⟨g, hfits, hzero, rfl, rfl, rfl⟩
  · rcases hholds fd' t₁ g₁ hg₁ ht₁ with ht₁ | ⟨rfl, rfl, rfl⟩
    · rcases hholds fd' t₂ g₂ hg₂ ht₂ with ht₂ | ⟨rfl, rfl, rfl⟩
      · exact h.apart fd' t₁ t₂ g₁ g₂ h₁₂ hg₁ hg₂ ht₁ ht₂
      · rw [GapLock.clash_comm]
        exact hfree t₁ g₁ h₁₂ hg₁ ht₁
    · rcases hholds fd' t₂ g₂ hg₂ ht₂ with ht₂ | ⟨-, -, rfl⟩
      · exact hfree t₂ g₂ h₁₂.symm hg₂ ht₂
      · exact absurd rfl h₁₂

theorem gapInv_step (m : LockManager) (c : GapCall) (m' : LockManager)
    (hs : Meeting (fun _ c => AsksZeroFree c) (gapStep after colsOf) m c m') (h : GapInv colsOf m) :
    GapInv colsOf m' := by
  obtain ⟨hzero, hs⟩ := hs
  cases c with
  | lock t fd g =>
    obtain ⟨hfits, rfl⟩ := hs
    rcases lockGap_cases after m t fd (colsOf fd) g with ⟨hq, -⟩ | ⟨-, hfree, hne, hself⟩
    · refine h.sublist fun id => ?_
      rw [hq]
      exact List.Subset.refl _
    · refine h.add hfits hzero (fun t' g' hne' hg' ht' => ?_) hne hself
      by_contra hclash
      have hblocked := (h.gapBlocked_iff after t fd g).2
        ⟨t', g', hne', hg', ht', Bool.eq_true_of_not_eq_false hclash⟩
      rw [hfree] at hblocked
      cases hblocked
  | unlock t id =>
    obtain rfl := hs
    refine h.sublist fun id' => ?_
    rcases unlock_queue m t id id' with ⟨heq, -⟩ | ⟨rfl, heq⟩
    · rw [heq]
      exact List.Subset.refl _
    · rw [heq]
      exact List.eraseP_subset

/-- In every run that asks for no range whose lower bound has a zero byte, the gap locks are
exact. -/
theorem gap_locks_exact_of_zero_free (after : Bytes → Bytes)
    (colsOf : ℤ → List (ColType × ℕ)) (fd : ℤ) :
    GapLocksExact after colsOf (Meeting (fun _ c => AsksZeroFree c) (gapStep after colsOf)) fd := by
  intro cs m hrun
  have hinv : GapInv colsOf m := hrun.invariant gapInv_step
    ⟨by simp [LockManager.queue], by simp [LockManager.HoldsGap, LockManager.queue]⟩
  refine ⟨fun t t' g g' => hinv.apart fd t t' g g', fun t g hfits hstate hrefused => ?_⟩
  rw [← hinv.gapBlocked_iff after]
  rcases lockGap_cases after m t fd (colsOf fd) g with ⟨-, hok | hsh | hblocked⟩ | ⟨hok, -⟩
  · exact absurd hok hrefused
  · exact absurd hsh hstate
  · exact hblocked
  · exact absurd hok hrefused

end Runs

/-- Two transactions lock ranges of an `INT` index that overlap, and points outside of each other's
range; then the first one is refused a point in the range of the second one. -/
theorem gap_locks_exact_two_ranges :
    ∃ m, Run (Meeting (fun _ c => AsksZeroFree c) (gapStep (fun _ => []) fun _ => [(.int, 4)])) {}
      [.lock 1 5 (.range ⟨[3, 2, 1, 1], [9, 2, 1, 1], false, false⟩),
        .lock 2 5 (.range ⟨[4, 2, 1, 1], [5, 2, 1, 2], false, true⟩), .lock 2 5
        (.point [2, 2, 1, 1]), .lock 1 5 (.point [3, 2, 1, 1]), .lock 1 5 (.point [4, 2, 1, 1])] m ∧
      m.HoldsGap 1 5 (.point [3, 2, 1, 1]) ∧ m.HoldsGap 2 5 (.point [2, 2, 1, 1]) ∧
      ∃ t' g', t' ≠ 1 ∧ g'.Fits [(.int, 4)] ∧ m.HoldsGap t' 5 g' ∧
        (GapLock.point [4, 2, 1, 1]).clash [(.int, 4)] g' = true := by
  have hrun : Run
      (Meeting (fun _ c => AsksZeroFree c) (gapStep (fun _ => []) fun _ => [(.int, 4)])) {}
      [.lock 1 5 (.range ⟨[3, 2, 1, 1], [9, 2, 1, 1], false, false⟩),
        .lock 2 5 (.range ⟨[4, 2, 1, 1], [5, 2, 1, 2], false, true⟩),
        .lock 2 5 (.point [2, 2, 1, 1]),
        .lock 1 5 (.point [3, 2, 1, 1]), .lock 1 5 (.point [4, 2, 1, 1])] _ :=
    .cons ⟨show (0 : UInt8) ∉ [3, 2, 1, 1] by decide, ⟨rfl, rfl⟩, rfl⟩ <|
      .cons ⟨show (0 : UInt8) ∉ [4, 2, 1, 1] by decide, ⟨rfl, rfl⟩, rfl⟩ <|
        .cons ⟨trivial, rfl, rfl⟩ <|
      .cons ⟨trivial, rfl, rfl⟩ <| .single ⟨trivial, rfl, rfl⟩
  have hexact := gap_locks_exact_of_zero_free (fun _ => []) (fun _ => [(.int, 4)]) 5 _ _ hrun
  exact ⟨_, hrun, by decide, by decide, hexact.2 1 (.point [4, 2, 1, 1]) rfl (by decide)
    (by decide)⟩

/-- Transaction 1 locks the range from 66051 to 8388608 of an `INT` index.  The lower bound is
`03 02 01 00`, so it is cut off before its last byte and the upper bound is read one byte early, as
-2147483648; transaction 2 is granted the point 66052. -/
theorem not_gap_locks_exact :
    ¬ GapLocksExact (fun _ => []) (fun _ => [(.int, 4)])
    (gapStep (fun _ => []) fun _ => [(.int, 4)]) 5 := by
  intro h
  have hrun : Run (gapStep (fun _ => []) fun _ => [(.int, 4)]) {}
      [.lock 1 5 (.range ⟨[3, 2, 1, 0], [0, 0, 128, 0], false, false⟩),
        .lock 2 5 (.point [4, 2, 1, 0])] _ :=
    .cons ⟨⟨rfl, rfl⟩, rfl⟩ (.single ⟨rfl, rfl⟩)
  have hclash := (h _ _ hrun).1 1 2 (.range ⟨[3, 2, 1, 0], [0, 0, 128, 0], false, false⟩)
    (.point [4, 2, 1, 0]) (by decide) ⟨rfl, rfl⟩ rfl (by decide) (by decide)
  exact absurd hclash (by decide)

end Rmdb
