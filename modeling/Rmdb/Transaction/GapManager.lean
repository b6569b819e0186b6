import Rmdb.Index.Compare
import Rmdb.Transaction.LockManager

/-!
# Gap locks

The gap locks of `LockManager`: a shared lock on a range of keys of an index, or an exclusive lock
on one key of it.  A held lock is kept as the encoded `gap_key_` of its `LockDataId` only, so a
point that is requested against a held range needs the range decoded again.

`c_str()` pointers are handed to `ix_compare`, which reads as many bytes as the key has.  A string
that is shorter is read beyond its terminator: `after` gives the bytes that stand there.
-/

namespace Rmdb

/-- The bounds of a range of keys with their open flags. -/
structure GapRange where
  lower : Bytes
  upper : Bytes
  lowerOpen : Bool
  upperOpen : Bool
deriving DecidableEq, Repr

/-- `kGapRangeTag`: the letter `R`. -/
def kGapRangeTag : UInt8 := 0x52

/-- `kGapPointTag`: the letter `P`. -/
def kGapPointTag : UInt8 := 0x50

/-- The length of the keys of an index. -/
def keyLen (cols : List (ColType × ℕ)) : ℕ := (cols.map (·.2)).sum

/-- `encode_gap_range`, on bounds of the key's length. -/
def encodeGapRange (r : GapRange) : Bytes :=
  kGapRangeTag :: (r.lower ++ 0 ::
    (r.upper ++ [if r.lowerOpen then 1 else 0, if r.upperOpen then 1 else 0]))

/-- `encode_gap_point`. -/
def encodeGapPoint (pointKey : Bytes) : Bytes := kGapPointTag :: pointKey

/-- `decode_gap_range`. -/
def decodeGapRange (gapKey : Bytes) : GapRange :=
  if gapKey.head? ≠ some kGapRangeTag then ⟨[], [], false, false⟩
  else match (gapKey.drop 1).findIdx? (· == 0) with
    | none => ⟨[], [], false, false⟩
    | some i =>
      let split := i + 1
      if gapKey.length < split + 3 then ⟨[], [], false, false⟩
      else
        { lower := (gapKey.drop 1).take (split - 1)
          upper := (gapKey.drop (split + 1)).take (gapKey.length - split - 3)
          lowerOpen := gapKey.getD (gapKey.length - 2) 0 != 0
          upperOpen := gapKey.getD (gapKey.length - 1) 0 != 0 }

/-- The first `n` bytes at `s.c_str()`. -/
def cStr (after : Bytes → Bytes) (n : ℕ) (s : Bytes) : Bytes := (s ++ 0 :: after s).take n

/-- `key_in_gap_range`. -/
def keyInGapRange (cols : List (ColType × ℕ)) (key : Bytes) (r : GapRange) : Bool :=
  let cmpLower := ixCompare cols r.lower key
  let cmpUpper := ixCompare cols key r.upper
  let geLower := if r.lowerOpen then cmpLower == .lt else cmpLower != .gt
  let ltUpper := if r.upperOpen then cmpUpper == .lt else cmpUpper != .gt
  geLower && ltUpper

/-- `gap_lock_conflict`.  The bounds of a requested point are both the point. -/
def gapLockConflict (after : Bytes → Bytes) (cols : List (ColType × ℕ)) (request held : LockMode)
    (reqIsRange : Bool) (req : GapRange) (heldIsRange : Bool) (heldGapKey : Bytes) : Bool :=
  if request = .shared ∧ held = .shared then false
  else match reqIsRange, heldIsRange with
    | true, false => keyInGapRange cols (cStr after (keyLen cols) (heldGapKey.drop 1)) req
    | false, true =>
      let r := decodeGapRange heldGapKey
      keyInGapRange cols req.lower
        { r with
          lower := cStr after (keyLen cols) r.lower, upper := cStr after (keyLen cols) r.upper }
    | false, false =>
      ixCompare cols req.lower (cStr after (keyLen cols) (heldGapKey.drop 1)) == .eq
    | true, true => false

/-- `held_is_range`. -/
def heldIsRange (gapKey : Bytes) : Bool := gapKey.head? == some kGapRangeTag

namespace LockManager

/-- The loop of `lock_on_gap` over the lock table. -/
def gapBlocked (after : Bytes → Bytes) (m : LockManager) (t : TxnId) (indexFd : ℤ) (mode : LockMode)
    (cols : List (ColType × ℕ)) (isRange : Bool) (r : GapRange) : Bool :=
  m.lockTable.entries.any fun e =>
    match e.1 with
    | .gap fd gapKey => fd == indexFd && e.2.requestQueue.any fun req =>
        req.granted && req.txnId != t &&
          gapLockConflict after cols mode req.lockMode isRange r (heldIsRange gapKey) gapKey
    | _ => false

/-- `lock_on_gap`. -/
def lockOnGap (after : Bytes → Bytes) (m : LockManager) (t : TxnId) (indexFd : ℤ) (gapKey : Bytes)
    (mode : LockMode) (cols : List (ColType × ℕ)) (isRange : Bool) (r : GapRange) :
    LockManager × Except AbortReason Bool :=
  if (m.txns t).state = .shrinking then (m, .error .lockOnShrinking)
  else
    let m := m.setState t .growing
    let id := LockDataId.gap indexFd gapKey
    let q := m.queue id
    if q.requestQueue.any fun req =>
      req.txnId == t && req.granted then (m.insertLock t id, .ok true)
    else if m.gapBlocked after t indexFd mode cols isRange r then (m, .error .deadlockPrevention)
    else
      (m.grant t id
        { requestQueue := q.requestQueue ++ [{ txnId := t, lockMode := mode, granted := true }]
          groupLockMode := if mode = .shared then .S else .X }, .ok true)

/-- `lock_shared_on_gap_range`. -/
def lockSharedOnGapRange (after : Bytes → Bytes) (m : LockManager) (t : TxnId) (indexFd : ℤ)
    (cols : List (ColType × ℕ)) (r : GapRange) : LockManager × Except AbortReason Bool :=
  m.lockOnGap after t indexFd (encodeGapRange r) .shared cols true r

/-- `lock_exclusive_on_gap_point`. -/
def lockExclusiveOnGapPoint (after : Bytes → Bytes) (m : LockManager) (t : TxnId) (indexFd : ℤ)
    (cols : List (ColType × ℕ)) (key : Bytes) : LockManager × Except AbortReason Bool :=
  m.lockOnGap after t indexFd (encodeGapPoint key) .exclusive cols false ⟨key, key, false, false⟩

end LockManager

end Rmdb
