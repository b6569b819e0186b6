import Rmdb.Recovery.LogBytes
import Rmdb.System.SmManager

/-!
# The header of an index file

`IxFileHdr` (`index/ix_defs.h`) with `update_tot_len`, `serialize` and `deserialize`, and the header
that `IxManager::create_index` writes.  All positions are counted in an `int`, and every field takes
four bytes.  The number of bytes fits an `int` up to 268435450 columns; from there on `tot_len_` is
negative.
-/

namespace Rmdb

/-- A type as it is stored. -/
def ColType.stored (type : ColType) : Int32 := Int32.ofNat type.code

/-- The type for a stored number; `none` when none of the enumerators has it. -/
def ColType.ofStored (x : Int32) : Option ColType :=
  [ColType.int, .float, .bigint, .string, .datetime].find? fun type => type.stored = x

@[simp] theorem ColType.ofStored_stored (type : ColType) :
    ColType.ofStored type.stored = some type := by
  cases type <;> decide

/-- `IxFileHdr`. -/
structure IxFileHdr where
  firstFreePageNo : Int32
  numPages : Int32
  rootPage : Int32
  colNum : Int32
  colTypes : List ColType
  colLens : List Int32
  colTotLen : Int32
  btreeOrder : Int32
  keysSize : Int32
  firstLeaf : Int32
  lastLeaf : Int32
  totLen : Int32
deriving DecidableEq, Repr

namespace IxFileHdr

/-- The sums are made in a `size_t`; only their last 32 bits are kept. -/
def updateTotLen (h : IxFileHdr) : IxFileHdr :=
  let totLen : Int32 := 0
  let totLen := totLen + (4 * 4 + 4 * 6)
  let totLen := totLen + (4 * h.colNum + 4 * h.colNum)
  { h with totLen }

/-! ## Writing -/

/-- What stands in memory while a header is written, and `offset`. -/
structure Writer where
  mem : Memory
  offset : Int32

/-- `memcpy` of one field to `dest + offset`. -/
def put (dest : ℤ) (x : Int32) (w : Writer) : Writer where
  mem := w.mem.store (dest + w.offset.toInt) (int32Bytes x)
  offset := w.offset + 4

/-- A loop of `serialize` from the element `i` on, with `n` rounds left; `none` behind the end of
the vector. -/
def putLoop (dest : ℤ) (xs : List Int32) : ℕ → ℕ → Writer → Option Writer
  | 0, _, w => some w
  | n + 1, i, w => do
    let x ← xs[i]?
    putLoop dest xs n (i + 1) (put dest x w)

/-- The memory after `serialize`; `none` when the assertion at its end fails. -/
def serialize (h : IxFileHdr) (m : Memory) (dest : ℤ) : Option Memory := do
  let w : Writer := ⟨m, 0⟩
  let w := put dest h.totLen w
  let w := put dest h.firstFreePageNo w
  let w := put dest h.numPages w
  let w := put dest h.rootPage w
  let w := put dest h.colNum w
  let w ← putLoop dest (h.colTypes.map ColType.stored) h.colNum.toNatClampNeg 0 w
  let w ← putLoop dest h.colLens h.colNum.toNatClampNeg 0 w
  let w := put dest h.colTotLen w
  let w := put dest h.btreeOrder w
  let w := put dest h.keysSize w
  let w := put dest h.firstLeaf w
  let w := put dest h.lastLeaf w
  if w.offset = h.totLen then return w.mem else none

/-! ## Reading -/

/-- A loop of `deserialize` with `n` rounds left: `push_back` of what stands at `src + offset`. -/
def pushLoop {α : Type} (m : Memory) (src : ℤ) (ofStored : Int32 → Option α) : ℕ → List α → Int32 →
    Option (List α × Int32)
  | 0, xs, offset => some (xs, offset)
  | n + 1, xs, offset => do
    let x ← ofStored (m.int32 (src + offset.toInt))
    pushLoop m src ofStored n (xs ++ [x]) (offset + 4)

/-- `deserialize` into `h`; `none` when the assertion at its end fails. -/
def deserialize (h : IxFileHdr) (m : Memory) (src : ℤ) : Option IxFileHdr := do
  let offset : Int32 := 0
  let totLen := m.int32 (src + offset.toInt)
  let offset := offset + 4
  let firstFreePageNo := m.int32 (src + offset.toInt)
  let offset := offset + 4
  let numPages := m.int32 (src + offset.toInt)
  let offset := offset + 4
  let rootPage := m.int32 (src + offset.toInt)
  let offset := offset + 4
  let colNum := m.int32 (src + offset.toInt)
  let offset := offset + 4
  let (colTypes, offset) ← pushLoop m src ColType.ofStored colNum.toNatClampNeg h.colTypes offset
  let (colLens, offset) ← pushLoop m src some colNum.toNatClampNeg h.colLens offset
  let colTotLen := m.int32 (src + offset.toInt)
  let offset := offset + 4
  let btreeOrder := m.int32 (src + offset.toInt)
  let offset := offset + 4
  let keysSize := m.int32 (src + offset.toInt)
  let offset := offset + 4
  let firstLeaf := m.int32 (src + offset.toInt)
  let offset := offset + 4
  let lastLeaf := m.int32 (src + offset.toInt)
  let offset := offset + 4
  if offset = totLen then
    return { firstFreePageNo, numPages, rootPage, colNum, colTypes, colLens, colTotLen, btreeOrder,
             keysSize, firstLeaf, lastLeaf, totLen }
  else none

/-- The arrays have the length that `col_num_` says. -/
structure Sized (h : IxFileHdr) : Prop where
  colTypes : (h.colTypes.length : ℤ) = h.colNum.toInt
  colLens : (h.colLens.length : ℤ) = h.colNum.toInt

/-- A header without columns, such as the default constructor makes; the other fields may be
anything. -/
def Fresh (h : IxFileHdr) : Prop := h.colTypes = [] ∧ h.colLens = []

/-- `serialize` writes `tot_len_` bytes, and `deserialize` restores the header from them. -/
def RoundTrips (h : IxFileHdr) : Prop :=
  ∃ bs : Bytes, (bs.length : ℤ) = h.totLen.toInt ∧
    (∀ (m : Memory) (dest : ℤ), h.serialize m dest = some (m.store dest bs)) ∧
    ∀ (fresh : IxFileHdr) (m : Memory) (src : ℤ), fresh.Fresh → m.Holds src bs →
      fresh.deserialize m src = some h

/-! ## Fields one behind the other -/

/-- The fields in the order in which they are written. -/
def fields (h : IxFileHdr) : List Int32 :=
  [h.totLen, h.firstFreePageNo, h.numPages, h.rootPage, h.colNum] ++
    (h.colTypes.map ColType.stored ++ (h.colLens ++
      [h.colTotLen, h.btreeOrder, h.keysSize, h.firstLeaf, h.lastLeaf]))

def fieldBytes (xs : List Int32) : Bytes := xs.flatMap int32Bytes

@[simp] theorem length_fieldBytes (xs : List Int32) : (fieldBytes xs).length = 4 * xs.length := by
  induction xs with
  | nil => rfl
  | cons x xs ih =>
    rw [fieldBytes, List.flatMap_cons, List.length_append, length_int32Bytes, List.length_cons]
    rw [fieldBytes] at ih
    omega

/-- The position behind `k` fields. -/
def fieldOffset (k : ℕ) : Int32 := Int32.ofNat (4 * k)

theorem fieldOffset_succ (k : ℕ) : fieldOffset k + 4 = fieldOffset (k + 1) := by
  have h4 : (4 : Int32) = Int32.ofNat 4 := rfl
  rw [fieldOffset, fieldOffset, h4, ← Int32.ofNat_add, Nat.mul_succ]

theorem toInt_fieldOffset {k : ℕ} (h : 4 * k < 2 ^ 31) : (fieldOffset k).toInt = 4 * k := by
  rw [fieldOffset, Int32.toInt_ofNat_of_lt h]
  omega

section
variable {m : Memory} {dest src : ℤ} {xs ys : List Int32} {x : Int32} {n i k : ℕ}

/-- The writer behind the fields. -/
def Writer.after (m : Memory) (dest : ℤ) (xs : List Int32) : Writer where
  mem := m.store dest (fieldBytes xs)
  offset := fieldOffset xs.length

theorem after_nil (m : Memory) (dest : ℤ) : Writer.after m dest [] = ⟨m, 0⟩ := by
  have hstore : m.store dest [] = m := Memory.store_of_holds rfl
  rw [Writer.after, fieldBytes, List.flatMap_nil, hstore]
  rfl

theorem put_after (h : 4 * xs.length < 2 ^ 31) :
    put dest x (.after m dest xs) = .after m dest (xs ++ [x]) := by
  have hbytes : fieldBytes (xs ++ [x]) = fieldBytes xs ++ int32Bytes x := by simp [fieldBytes]
  have hdest : dest + 4 * (xs.length : ℤ) = dest + (fieldBytes xs).length := by
    rw [length_fieldBytes]
    omega
  simp only [put, Writer.after, toInt_fieldOffset h, fieldOffset_succ, hbytes, List.length_append,
    List.length_singleton]
  rw [hdest, Memory.store_append]

theorem foldl_put_after (h : 4 * (xs.length + ys.length) ≤ 2 ^ 31) :
    ys.foldl (fun w y => put dest y w) (.after m dest xs) = .after m dest (xs ++ ys) := by
  induction ys generalizing xs with
  | nil => simp
  | cons y ys ih =>
    rw [List.length_cons] at h
    have hput : put dest y (.after m dest xs) = .after m dest (xs ++ [y]) := put_after (by omega)
    rw [List.foldl_cons, hput, ih (by simp; omega), List.append_assoc, List.singleton_append]

/-- A loop of `serialize` appends what is left of the vector. -/
theorem putLoop_after (hn : i + n = ys.length) (h : 4 * (xs.length + n) ≤ 2 ^ 31) :
    putLoop dest ys n i (.after m dest xs) = some (.after m dest (xs ++ ys.drop i)) := by
  induction n generalizing i xs with
  | zero => rw [putLoop, List.drop_eq_nil_of_le (by omega), List.append_nil]
  | succ n ih =>
    have hi : i < ys.length := by omega
    have hput : put dest ys[i] (.after m dest xs) = .after m dest (xs ++ [ys[i]]) :=
      put_after (by omega)
    have hlen : (xs ++ [ys[i]]).length = xs.length + 1 := by simp
    have hrest : putLoop dest ys n (i + 1) (.after m dest (xs ++ [ys[i]])) = _ :=
      ih (by omega) (by omega)
    rw [putLoop, List.getElem?_eq_getElem hi, Option.bind_eq_bind, Option.bind_some, hput, hrest,
      List.append_assoc, List.singleton_append, List.getElem_cons_drop]

/-- What is read at the position of a field. -/
theorem int32_fieldOffset (h : m.Holds src (fieldBytes xs)) (hx : xs[k]? = some x)
    (hk : 4 * k < 2 ^ 31) : m.int32 (src + (fieldOffset k).toInt) = x := by
  obtain ⟨hlt, hget⟩ := List.getElem?_eq_some_iff.mp hx
  obtain ⟨before, rest, hxs, hlen⟩ : ∃ before rest, xs = before ++ x :: rest ∧ before.length = k :=
    ⟨xs.take k, xs.drop (k + 1), by rw [← hget, List.getElem_cons_drop, List.take_append_drop],
      by rw [List.length_take]; omega⟩
  have hbytes : fieldBytes xs = fieldBytes before ++ (int32Bytes x ++ fieldBytes rest) := by
    simp [hxs, fieldBytes]
  rw [hbytes, Memory.holds_append, Memory.holds_append, length_fieldBytes, hlen] at h
  rw [toInt_fieldOffset hk]
  exact int32_of_holds h.2.1

/-- A loop of `deserialize` appends what stands in memory. -/
theorem pushLoop_eq {α : Type} {stored : α → Int32} {ofStored : Int32 → Option α} {as bs : List α}
    (hround : ∀ a, ofStored (stored a) = some a) (h : m.Holds src (fieldBytes xs))
    (hbs : ∀ j (hj : j < bs.length), xs[k + j]? = some (stored bs[j]))
    (hk : 4 * (k + bs.length) ≤ 2 ^ 31) :
    pushLoop m src ofStored bs.length as
    (fieldOffset k) = some (as ++ bs, fieldOffset (k + bs.length)) := by
  induction bs generalizing as k with
  | nil => simp [pushLoop]
  | cons b bs ih =>
    rw [List.length_cons] at hk
    have hread := int32_fieldOffset h (hbs 0 (by simp)) (by omega)
    have hnext (j : ℕ) (hj : j < bs.length) : xs[k + 1 + j]? = some (stored bs[j]) := by
      rw [show k + 1 + j = k + (j + 1) by omega]
      exact hbs (j + 1) (Nat.succ_lt_succ hj)
    have hrest : pushLoop m src ofStored bs.length (as ++ [b]) (fieldOffset (k + 1)) = _ :=
      ih hnext (by omega)
    rw [Nat.add_zero, List.getElem_cons_zero] at hread
    rw [List.length_cons, pushLoop, hread, hround, Option.bind_eq_bind, Option.bind_some,
      fieldOffset_succ, hrest,
      List.append_assoc, List.singleton_append, show k + 1 + bs.length =
        k + (bs.length + 1) by omega]

end

/-! ## Round trip -/

section
variable {h : IxFileHdr}

theorem Sized.toNat (hsized : h.Sized) : h.colNum.toNatClampNeg = h.colTypes.length := by
  have htypes := hsized.colTypes
  rw [Int32.toNatClampNeg]
  omega

theorem Sized.length_colLens (hsized : h.Sized) : h.colLens.length = h.colTypes.length := by
  have htypes := hsized.colTypes
  have hlens := hsized.colLens
  omega

theorem Sized.length_fields (hsized : h.Sized) : h.fields.length = 10 + 2 * h.colTypes.length := by
  have hlens := hsized.length_colLens
  simp [fields]
  omega

/-- `update_tot_len` counts the bytes of the fields. -/
theorem Sized.totLen (hsized : h.Sized) :
    h.updateTotLen.totLen = fieldOffset (10 + 2 * h.colTypes.length) := by
  have hnum : h.colNum = Int32.ofNat h.colTypes.length := by
    rw [← Int32.ofInt_eq_ofNat, hsized.colTypes, Int32.ofInt_toInt]
  have hconst : (0 : Int32) + (4 * 4 + 4 * 6) = Int32.ofNat 40 := rfl
  have h4 : (4 : Int32) = Int32.ofNat 4 := rfl
  have htotal : 40 + (4 * h.colTypes.length + 4 * h.colTypes.length) =
    4 * (10 + 2 * h.colTypes.length) := by omega
  simp only [updateTotLen]
  rw [hnum, hconst, h4, ← Int32.ofNat_mul, ← Int32.ofNat_add, ← Int32.ofNat_add,
    fieldOffset, htotal]

/-- `serialize` writes the fields one behind the other. -/
theorem Sized.serialize_eq (hsized : h.Sized) (hlen : 40 + 8 * h.colTypes.length < 2 ^ 31)
    (htot : h.totLen = fieldOffset (10 + 2 * h.colTypes.length)) (m : Memory) (dest : ℤ) :
    h.serialize m dest = some (m.store dest (fieldBytes h.fields)) := by
  have hlens := hsized.length_colLens
  obtain ⟨head, hhead⟩ : ∃ head,
    head = [h.totLen, h.firstFreePageNo, h.numPages, h.rootPage, h.colNum] := ⟨_, rfl⟩
  obtain ⟨foot, hfoot⟩ : ∃ foot,
    foot = [h.colTotLen, h.btreeOrder, h.keysSize, h.firstLeaf, h.lastLeaf] := ⟨_, rfl⟩
  have hlen₁ : head.length = 5 := by rw [hhead]; rfl
  have hlen₂ : foot.length = 5 := by rw [hfoot]; rfl
  have hput : head.foldl (fun w x => put dest x w) ⟨m, 0⟩ = .after m dest head := by
    rw [← after_nil m dest, foldl_put_after (by simp; omega), List.nil_append]
  have htypes : putLoop dest (h.colTypes.map ColType.stored) h.colTypes.length 0
    (.after m dest head) =
      some (.after m dest (head ++ h.colTypes.map ColType.stored)) :=
        putLoop_after (by simp) (by omega)
  have hcolLens : putLoop dest h.colLens h.colTypes.length 0
    (.after m dest (head ++ h.colTypes.map ColType.stored)) =
      some (.after m dest (head ++ h.colTypes.map ColType.stored ++ h.colLens)) :=
    putLoop_after (by omega) (by simp; omega)
  have hrest : foot.foldl (fun w x => put dest x w)
      (.after m dest (head ++ h.colTypes.map ColType.stored ++ h.colLens)) =
        .after m dest h.fields := by
    rw [foldl_put_after (by simp; omega), hhead, hfoot, List.append_assoc, List.append_assoc]
    rfl
  subst hhead hfoot
  simp only [List.foldl_cons, List.foldl_nil] at hput hrest
  simp only [serialize, hsized.toNat, hput, htypes, hcolLens, hrest, Option.bind_eq_bind,
    Option.bind_some]
  rw [if_pos]
  · rfl
  · rw [htot, Writer.after, hsized.length_fields]

theorem getElem?_fields_type {j : ℕ} (hj : j < h.colTypes.length) :
    h.fields[5 + j]? = some h.colTypes[j].stored := by
  have hindex : 5 + j - [h.totLen, h.firstFreePageNo, h.numPages, h.rootPage, h.colNum].length =
    j := by simp
  rw [fields, List.getElem?_append_right (by simp), hindex,
    List.getElem?_append_left (by simpa using hj),
    List.getElem?_map, List.getElem?_eq_getElem hj, Option.map_some]

theorem getElem?_fields_lens {j : ℕ} :
    h.fields[5 + h.colTypes.length + j]? =
      (h.colLens ++ [h.colTotLen, h.btreeOrder, h.keysSize, h.firstLeaf, h.lastLeaf])[j]? := by
  have hindex : 5 + h.colTypes.length + j - [h.totLen, h.firstFreePageNo, h.numPages, h.rootPage,
    h.colNum].length = h.colTypes.length + j := by simp; omega
  have hindex' : h.colTypes.length + j - (h.colTypes.map ColType.stored).length = j := by simp
  rw [fields, List.getElem?_append_right (by simp; omega), hindex,
    List.getElem?_append_right (by simp), hindex']

/-- `deserialize` reads the fields. -/
theorem Sized.deserialize_eq (hsized : h.Sized) (hlen : 40 + 8 * h.colTypes.length < 2 ^ 31)
    (htot : h.totLen = fieldOffset (10 + 2 * h.colTypes.length)) {fresh : IxFileHdr}
    (hfresh : fresh.Fresh) {m : Memory}
    {src : ℤ} (hm : m.Holds src (fieldBytes h.fields)) : fresh.deserialize m src = some h := by
  have hlens := hsized.length_colLens
  have hread (k : ℕ) (x : Int32) (hx : h.fields[k]? = some x)
    (hk : k < 10 + 2 * h.colTypes.length) :
      m.int32 (src + (fieldOffset k).toInt) = x := int32_fieldOffset hm hx (by omega)
  have hfoot (i : ℕ) (x : Int32) (hi : i < 5)
      (hx : [h.colTotLen, h.btreeOrder, h.keysSize, h.firstLeaf, h.lastLeaf][i]? = some x) :
      m.int32 (src + (fieldOffset (5 + h.colTypes.length + h.colLens.length + i)).toInt) = x := by
    apply hread _ _ _ (by omega)
    rw [Nat.add_assoc (5 + h.colTypes.length), getElem?_fields_lens,
      List.getElem?_append_right (by omega), Nat.add_sub_cancel_left, hx]
  have htypes : pushLoop m src ColType.ofStored h.colTypes.length fresh.colTypes (fieldOffset 5) =
      some (h.colTypes, fieldOffset (5 + h.colTypes.length)) := by
    rw [hfresh.1]
    exact pushLoop_eq ColType.ofStored_stored hm (fun j hj => getElem?_fields_type hj) (by omega)
  have hcolLens : pushLoop m src some h.colLens.length fresh.colLens
    (fieldOffset (5 + h.colTypes.length)) =
      some (h.colLens, fieldOffset (5 + h.colTypes.length + h.colLens.length)) := by
    rw [hfresh.2]
    have hround (x : Int32) : some (id x) = some x := rfl
    refine pushLoop_eq hround hm (fun j hj => ?_) (by omega)
    rw [getElem?_fields_lens, List.getElem?_append_left hj, List.getElem?_eq_getElem hj]
    rfl
  have h₀ := hread 0 _ rfl (by omega)
  have h₁ := hread 1 _ rfl (by omega)
  have h₂ := hread 2 _ rfl (by omega)
  have h₃ := hread 3 _ rfl (by omega)
  have h₄ := hread 4 _ rfl (by omega)
  have hoffset : (0 : Int32) = fieldOffset 0 := rfl
  have h₅ := hfoot 0 _ (by omega) rfl
  have h₆ := hfoot 1 _ (by omega) rfl
  have h₇ := hfoot 2 _ (by omega) rfl
  have h₈ := hfoot 3 _ (by omega) rfl
  have h₉ := hfoot 4 _ (by omega) rfl
  rw [hlens] at hcolLens h₅ h₆ h₇ h₈ h₉
  have hend : fieldOffset (5 + h.colTypes.length + h.colTypes.length + 5) = h.totLen := by
    rw [htot]
    congr 1
    omega
  simp only [deserialize, hoffset, fieldOffset_succ, Nat.zero_add, Nat.reduceAdd, h₀, h₁, h₂, h₃,
    h₄, hsized.toNat, htypes, hcolLens, Option.bind_eq_bind, Option.bind_some]
  simp only [Nat.add_assoc, Nat.reduceAdd, Nat.add_zero] at h₅ h₆ h₇ h₈ h₉ hend ⊢
  rw [h₅, h₆, h₇, h₈, h₉, hend, if_pos rfl]
  rfl

/-- The header of an index with fewer than 268435451 columns is read back as it was written. -/
theorem roundTrips_updateTotLen (h : IxFileHdr) (hsized : h.Sized)
    (hnum : h.colNum.toInt < 268435451) : h.updateTotLen.RoundTrips := by
  have hcount := hsized.colTypes
  have hlen : 40 + 8 * h.colTypes.length < 2 ^ 31 := by omega
  have htot := hsized.totLen
  have hsized' : h.updateTotLen.Sized := ⟨hsized.colTypes, hsized.colLens⟩
  refine ⟨fieldBytes h.updateTotLen.fields, ?_, fun m dest => ?_, fun fresh m src hfresh hm => ?_⟩
  · have hfields : h.updateTotLen.fields.length = 10 + 2 * h.colTypes.length :=
      hsized'.length_fields
    rw [length_fieldBytes, hfields, htot, toInt_fieldOffset (by omega)]
    omega
  · exact hsized'.serialize_eq hlen htot m dest
  · exact hsized'.deserialize_eq hlen htot hfresh hm

/-- A header with one column. -/
def oneColumn : IxFileHdr where
  firstFreePageNo := -1
  numPages := 3
  rootPage := 2
  colNum := 1
  colTypes := [.bigint]
  colLens := [8]
  colTotLen := 8
  btreeOrder := 253
  keysSize := 2032
  firstLeaf := 2
  lastLeaf := 2
  totLen := 0

theorem roundTrips_oneColumn :
    oneColumn.updateTotLen.totLen = 48 ∧ oneColumn.updateTotLen.RoundTrips :=
  ⟨by decide, roundTrips_updateTotLen oneColumn ⟨by decide, by decide⟩ (by decide)⟩

/-- The length of the header with 268435456 columns does not fit an `int`. -/
theorem not_roundTrips_updateTotLen : ¬ ∀ h : IxFileHdr, h.Sized → h.updateTotLen.RoundTrips := by
  intro hall
  obtain ⟨h, hh⟩ : ∃ h : IxFileHdr, h = { oneColumn with
      colNum := 268435456
      colTypes := List.replicate (268435456) .bigint
      colLens := List.replicate (268435456) 8 } := ⟨_, rfl⟩
  have hnum : h.colNum = 268435456 := by rw [hh]
  have hsized : h.Sized := by
    constructor
    · rw [hnum, hh, List.length_replicate]
      rfl
    · rw [hnum, hh, List.length_replicate]
      rfl
  have htot : h.updateTotLen.totLen.toInt = -2147483608 := by
    rw [updateTotLen, hnum]
    rfl
  obtain ⟨bs, hlen, -⟩ := hall h hsized
  rw [htot] at hlen
  omega

end

/-! ## The header of a new index -/

/-- The header that `IxManager::create_index` writes. -/
def ofColumns (cols : List ColEntry) : IxFileHdr :=
  let colTotLen := Int32.ofInt (Rmdb.colTotLen cols)
  let btreeOrder := Int32.ofInt (btreeOrderOf (Rmdb.colTotLen cols))
  let h : IxFileHdr :=
    { firstFreePageNo := Int32.ofInt IX_NO_PAGE
      numPages := Int32.ofInt IX_INIT_NUM_PAGES
      rootPage := Int32.ofInt IX_INIT_ROOT_PAGE
      colNum := Int32.ofNat cols.length
      colTypes := cols.map ColEntry.type
      colLens := cols.map fun col => Int32.ofInt col.len
      colTotLen
      btreeOrder
      keysSize := (btreeOrder + 1) * colTotLen
      firstLeaf := Int32.ofInt IX_INIT_ROOT_PAGE
      lastLeaf := Int32.ofInt IX_INIT_ROOT_PAGE
      totLen := 0 }
  h.updateTotLen

/-- `open_index` finds the header that `create_index` wrote. -/
theorem ofColumns_roundTrips {cols : List ColEntry} (h : cols.length < 268435451) :
    (ofColumns cols).RoundTrips := by
  have hnum : (Int32.ofNat cols.length).toInt = cols.length := Int32.toInt_ofNat_of_lt (by omega)
  apply roundTrips_updateTotLen
  · constructor
    · rw [List.length_map, hnum]
    · rw [List.length_map, hnum]
  · rw [hnum]
    omega

end IxFileHdr

end Rmdb
