import Mathlib.Algebra.Ring.Int.Defs
import Mathlib.Algebra.Ring.Nat
import Mathlib.Data.Nat.Init

/-!
# Shared definitions

The constants and small records that several components use (`defs.h`, `common/config.h`).
-/

namespace Rmdb

/-- `PAGE_SIZE`: the size of a data page in bytes. -/
def PAGE_SIZE : ℕ := 4096

/-- `INVALID_PAGE_ID`. -/
def INVALID_PAGE_ID : ℤ := -1

/-- The position of a record in a table file. -/
structure Rid where
  pageNo : ℤ
  slotNo : ℤ
deriving DecidableEq, Repr

/-- `txn_id_t`. -/
abbrev TxnId := ℤ

/-- `char` buffers. -/
abbrev Bytes := List UInt8

/-- The sum of two `int`s. -/
def intAdd (a b : ℤ) : ℤ := (a + b).bmod (2 ^ 32)

/-- An integer is kept by the conversion to an `int` just when it is one. -/
theorem bmod_eq_self_iff (i : ℤ) : i.bmod (2 ^ 32) = i ↔ -2 ^ 31 ≤ i ∧ i < 2 ^ 31 := by
  rw [Int.bmod]
  omega

theorem intAdd_eq {a b : ℤ} (hlow : -2 ^ 31 ≤ a + b) (hhigh : a + b < 2 ^ 31) :
    intAdd a b = a + b :=
  (bmod_eq_self_iff (a + b)).2 ⟨hlow, hhigh⟩

end Rmdb
