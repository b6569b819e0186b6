import Mathlib.Data.Int.Notation
import Mathlib.Data.Nat.Notation
import Mathlib.Data.List.Basic

/-!
# Files with a position

An open file: its bytes and the position at which the next transfer takes place.  A seek to a
negative offset fails and leaves the position where it is.  A write behind the end fills the gap
with zeros, and a read stops at the end.
-/

namespace Rmdb

structure ByteFile where
  content : List UInt8
  pos : ℕ
deriving DecidableEq, Repr

namespace ByteFile

/-- `lseek` from the start of the file. -/
def lseek (f : ByteFile) (offset : ℤ) : ByteFile :=
  if offset < 0 then f else { f with pos := offset.toNat }

/-- `write`: the number of bytes written, and the file. -/
def write (f : ByteFile) (data : List UInt8) : ℕ × ByteFile :=
  (data.length,
    ⟨f.content.take f.pos ++ List.replicate (f.pos - f.content.length) 0 ++ data ++
      f.content.drop (f.pos + data.length),
      f.pos + data.length⟩)

/-- `read`: the bytes read, and the file. -/
def read (f : ByteFile) (n : ℕ) : List UInt8 × ByteFile :=
  let data := (f.content.drop f.pos).take n
  (data, { f with pos := f.pos + data.length })

variable {f : ByteFile} {data : List UInt8} {a n : ℕ}

theorem lseek_natCast (f : ByteFile) (a : ℕ) : f.lseek a = { f with pos := a } := by
  rw [lseek, if_neg (by omega), Int.toNat_natCast]

/-- The bytes before the position of a write. -/
theorem length_before_write (f : ByteFile) :
    (f.content.take f.pos ++ List.replicate (f.pos - f.content.length) 0).length = f.pos := by
  rw [List.length_append, List.length_take, List.length_replicate]
  omega

/-- What was written is read back. -/
theorem read_write_self (f : ByteFile) (data : List UInt8) :
    (({ (f.write data).2 with pos := f.pos } : ByteFile).read data.length).1 = data := by
  simp only [write, read, List.append_assoc]
  rw [← List.append_assoc, List.drop_left' (length_before_write f), List.take_left]

/-- A write behind the bytes that were read before leaves them. -/
theorem read_write_of_le (h : a + n ≤ f.pos) (hlen : a + n ≤ f.content.length) :
    (({ (f.write data).2 with pos := a } : ByteFile).read n).1 =
    (({ f with pos := a } : ByteFile).read n).1 := by
  have htake : (f.content.take f.pos).length = min f.pos f.content.length := List.length_take
  simp only [write, read, List.append_assoc]
  rw [List.drop_append_of_le_length (by omega),
    List.take_append_of_le_length (by rw [List.length_drop]; omega),
    List.drop_take, List.take_take, Nat.min_eq_left (by omega)]

/-- A write in front of the bytes that are read leaves them. -/
theorem read_write_of_ge (h : f.pos + data.length ≤ a) :
    (({ (f.write data).2 with pos := a } : ByteFile).read n).1 =
    (({ f with pos := a } : ByteFile).read n).1 := by
  simp only [write, read]
  rw [List.drop_append, List.drop_eq_nil_of_le
    (by rw [List.length_append, length_before_write]; exact h),
    List.nil_append, List.length_append, length_before_write, List.drop_drop,
    show f.pos + data.length + (a - (f.pos + data.length)) = a by omega]

end ByteFile

end Rmdb
