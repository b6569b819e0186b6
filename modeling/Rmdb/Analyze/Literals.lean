import Rmdb.Common.Datetime
import Rmdb.Execution.Meta

/-!
# Integer literals

How a statement comes by the value of an integer literal: `Analyze::convert_sv_value`
(`analyze/analyze.cpp`) for the constants of `VALUES`, `SET` and `WHERE`, which compares the digits
with those of the smallest and the largest number before it converts them, and the actions of the
grammar (`parser/yacc.y`) for `CHAR(n)` and `LIMIT n`, which convert them at once.  `client_handler`
(`rmdb.cpp`) catches an `RMDBError` of the analysis; nothing is caught around the parser.
-/

namespace Rmdb

/-! ## Numbers in texts -/

/-- `std::to_string`. -/
def intText (i : ℤ) : Bytes :=
  if i < 0 then '-'.toUInt8 :: decPadded 1 i.natAbs else decPadded 1 i.natAbs

/-- The number that digits after an optional sign stand for. -/
def intOfText : Bytes → ℤ
  | [] => 0
  | c :: s =>
    if c = '-'.toUInt8 then -(decVal s : ℤ)
    else if c = '+'.toUInt8 then decVal s else decVal (c :: s)

/-- The exceptions that end a statement.  `outOfRange` is thrown by `std::stoi` and `std::stoll`,
and is not an `RMDBError`. -/
inductive LitError
  | integerOverflow
  | invalidDateTime
  | incompatibleType (lhs rhs : ColType)
  | outOfRange
deriving DecidableEq, Repr

/-- `std::stoi` and `std::stoll` on digits after an optional sign. -/
def stoi (lowest max : ℤ) (s : Bytes) : Except LitError ℤ :=
  if lowest ≤ intOfText s ∧ intOfText s ≤ max then .ok (intOfText s) else .error .outOfRange

/-- `std::string::compare`. -/
def strCompare (a b : Bytes) : Ordering := (memcmp a b).then (compare a.length b.length)

def comparePosIntString (a b : Bytes) : Ordering :=
  if a.length ≠ b.length then if a.length < b.length then .lt else .gt else strCompare a b

def compareIntString (a b : Bytes) : Ordering :=
  if a = [] ∨ b = [] then strCompare a b
  else if a.head? = some '-'.toUInt8 ∧ b.head? ≠ some '-'.toUInt8 then .lt
  else if a.head? ≠ some '-'.toUInt8 ∧ b.head? = some '-'.toUInt8 then .gt
  else if a.head? = some '-'.toUInt8 ∧ b.head? = some '-'.toUInt8 then
    (comparePosIntString a.tail b.tail).swap
  else
    let pa := if a.head? = some '+'.toUInt8 then a.tail else a
    let pb := if b.head? = some '+'.toUInt8 then b.tail else b
    comparePosIntString pa pb

def noOverflow (lowest max : ℤ) (value : Bytes) : Bool :=
  (compareIntString value (intText max)).isLE && (compareIntString value (intText lowest)).isGE

/-! ## Values -/

/-- The smallest and the largest `int` and `int64_t`. -/
def INT_LOWEST : ℤ := -2147483648
def INT_MAX : ℤ := 2147483647
def INT64_LOWEST : ℤ := -9223372036854775808
def INT64_MAX : ℤ := 9223372036854775807

/-- `ast::Value`; a float is given by its bits. -/
inductive SvValue
  | intLit (val : Bytes)
  | floatLit (val : BitVec 32)
  | stringLit (val : Bytes)
deriving DecidableEq, Repr

/-- A value of another type than the column, if there is one, is refused. -/
def checkType (col : Option ColType) (val : Value) : Except LitError Value :=
  match col with
  | some type => if val.type ≠ type then .error (.incompatibleType type val.type) else .ok val
  | none => .ok val

/-- `convert_sv_value`, with the type of the column. -/
def convertSvValue (svVal : SvValue) (col : Option ColType) : Except LitError Value := do
  let val ← match svVal with
    | .intLit s =>
      if col = some .bigint then
        if !noOverflow INT64_LOWEST INT64_MAX s then throw .integerOverflow
        else do return Value.bigint (.ofInt 64 (← stoi INT64_LOWEST INT64_MAX s))
      else if !noOverflow INT_LOWEST INT_MAX s then throw .integerOverflow
      else do return Value.int (.ofInt 32 (← stoi INT_LOWEST INT_MAX s))
    | .floatLit v => checkType col (.float v)
    | .stringLit s =>
      if col = some .datetime then
        match parseDatetime s with
        | some v => return Value.datetime v
        | none => throw .invalidDateTime
      else checkType col (.str s)
  checkType col val

/-- `coerce_value_to_col_type`; `toFloat` is the conversion from `int` to `float`. -/
def coerceValueToColType (toFloat : BitVec 32 → BitVec 32) (val : Value) (type : ColType) : Value :=
  match val, type with
  | .int v, .float => .float (toFloat v)
  | _, _ => val

/-- The value of a `SET` clause in `do_analyze`. -/
def setValue (toFloat : BitVec 32 → BitVec 32) (svVal : SvValue) (type : ColType) :
    Except LitError Value := do
  let val ← convertSvValue svVal (some type)
  checkType (some type) (coerceValueToColType toFloat val type)

/-- The value of a condition in `check_clause`. -/
def condValue (toFloat : BitVec 32 → BitVec 32) (svVal : SvValue) (type : ColType) :
    Except LitError Value := do
  if type = .bigint ∨ type = .datetime then convertSvValue svVal (some type)
  else do
    let val ← convertSvValue svVal none
    checkType (some type) (coerceValueToColType toFloat val type)

/-! ## Places of a literal -/

/-- The columns for which an integer literal is meant. -/
inductive IntCol
  | int
  | bigint
deriving DecidableEq, Repr

namespace IntCol

def colType : IntCol → ColType
  | int => .int
  | bigint => .bigint

def lowest : IntCol → ℤ
  | int => INT_LOWEST
  | bigint => INT64_LOWEST

def max : IntCol → ℤ
  | int => INT_MAX
  | bigint => INT64_MAX

/-- The number of digits of the smallest and of the largest number. -/
def numDigits : IntCol → ℕ
  | int => 10
  | bigint => 19

end IntCol

/-- Where the grammar takes an integer literal. -/
inductive LitPlace
  | values (col : IntCol)
  | set (col : IntCol)
  | cond (col : IntCol)
  | charLen
  | limit
deriving DecidableEq, Repr

/-- The type of number that is asked for. -/
def LitPlace.target : LitPlace → IntCol
  | .values col | .set col | .cond col => col
  | .charLen | .limit => .int

/-- How a statement with a literal ends: the literal is used as a number, the statement is refused
with an error that `client_handler` catches, or an exception leaves the thread. -/
inductive LitOutcome
  | used (n : ℤ)
  | refused (e : LitError)
  | escaped (e : LitError)
deriving DecidableEq, Repr

/-- The number that a value stands for. -/
def Value.number : Value → ℤ
  | .int v => v.toInt
  | .bigint v => v.toInt
  | _ => 0

/-- The analysis is done inside the `try` of `client_handler`, which catches an `RMDBError`. -/
def analyzed : Except LitError Value → LitOutcome
  | .ok v => .used v.number
  | .error .outOfRange => .escaped .outOfRange
  | .error e => .refused e

/-- The actions of the grammar run in `yyparse`, outside the `try`. -/
def parsed : Except LitError ℤ → LitOutcome
  | .ok n => .used n
  | .error e => .escaped e

/-- What becomes of a literal in `client_handler`. -/
def handleLiteral (toFloat : BitVec 32 → BitVec 32) (s : Bytes) : LitPlace → LitOutcome
  | .values col => analyzed (convertSvValue (.intLit s) (some col.colType))
  | .set col => analyzed (setValue toFloat (.intLit s) col.colType)
  | .cond col => analyzed (condValue toFloat (.intLit s) col.colType)
  | .charLen => parsed (stoi INT_LOWEST INT_MAX s)
  | .limit => parsed (stoi INT_LOWEST INT_MAX s)

/-! ## Literals -/

/-- The sign in front of a literal. -/
inductive LitSign
  | none
  | plus
  | minus
deriving DecidableEq, Repr

/-- A text of the lexer's form `[+-]?[0-9]+`. -/
structure IntLiteral where
  sign : LitSign
  digits : Bytes
  nonempty : digits ≠ []
  isDigits : Digits digits

namespace IntLiteral

variable (lit : IntLiteral)

def text : Bytes :=
  match lit.sign with
  | .none => lit.digits
  | .plus => '+'.toUInt8 :: lit.digits
  | .minus => '-'.toUInt8 :: lit.digits

/-- The number that the literal means. -/
def value : ℤ :=
  match lit.sign with
  | .minus => -(decVal lit.digits : ℤ)
  | _ => decVal lit.digits

/-- The number is one of the type. -/
def Fits (col : IntCol) : Prop := col.lowest ≤ lit.value ∧ lit.value ≤ col.max

instance (col : IntCol) : Decidable (lit.Fits col) := inferInstanceAs (Decidable (_ ∧ _))

end IntLiteral

/-- The literal is used as the number that it means, or refused if that does not fit. -/
def MeansValue (toFloat : BitVec 32 → BitVec 32) (place : LitPlace) (lit : IntLiteral) : Prop :=
  if lit.Fits place.target then handleLiteral toFloat lit.text place = .used lit.value
  else ∃ e, handleLiteral toFloat lit.text place = .refused e

/-- A constant that fits has no more digits than the largest number, leading zeros counted; a length
or a limit fits. -/
def Convertible (place : LitPlace) (lit : IntLiteral) : Prop :=
  match place with
  | .values col | .set col | .cond col => lit.Fits col → lit.digits.length ≤ col.numDigits
  | .charLen | .limit => lit.Fits .int

/-! ## Comparing digits -/

section Digits
variable {lit : IntLiteral} {col : IntCol} {ds : Bytes}

theorem head?_ne_of_digits (h : Digits ds) {c : UInt8} (hc : isDigit c = false) :
    ds.head? ≠ some c := by
  intro hhead
  have hdigit := h c (List.mem_of_mem_head? hhead)
  rw [hc] at hdigit
  cases hdigit

/-- A row of digits is not above a number if it is not longer and its number is not greater. -/
theorem comparePosIntString_isLE (h : Digits ds) {w b : ℕ} (hlow : 10 ^ w ≤ b)
    (hhigh : b < 10 ^ (w + 1)) :
    (comparePosIntString ds (decDigits (w + 1) b)).isLE = true ↔ ds.length ≤ w + 1 ∧
    decVal ds ≤ b := by
  rw [comparePosIntString, length_decDigits]
  rcases Nat.lt_trichotomy ds.length (w + 1) with hlt | heq | hgt
  · have hval : decVal ds ≤ b := by
      have hpow : 10 ^ ds.length ≤ 10 ^ w := Nat.pow_le_pow_right (by decide) (by omega)
      have := decVal_lt h
      omega
    rw [if_pos hlt.ne, if_pos hlt]
    simp only [Ordering.isLE, true_iff]
    exact ⟨hlt.le, hval⟩
  · rw [if_neg (not_not.mpr heq), strCompare, memcmp_digits (by rw [heq, length_decDigits]) h
      (digits_decDigits _ _),
      decVal_decDigits hhigh, length_decDigits, heq, compare_eq_iff_eq.2 rfl, Ordering.then_eq]
    rw [Nat.isLE_compare]
    exact ⟨fun hle => ⟨Nat.le_refl _, hle⟩, And.right⟩
  · rw [if_pos hgt.ne', if_neg hgt.not_gt]
    refine ⟨fun hfalse => ?_, fun hle => ?_⟩
    · cases hfalse
    · omega

theorem decPadded_one {w b : ℕ} (hlow : 10 ^ w ≤ b) (hhigh : b < 10 ^ (w + 1)) :
    decPadded 1 b = decDigits (w + 1) b := by
  rw [decPadded, Nat.log_eq_of_pow_le_of_lt_pow hlow hhigh, max_eq_right (Nat.le_add_left 1 w)]

/-- The bounds of a type in digits. -/
theorem IntCol.exists_bounds (col : IntCol) :
    ∃ w low high : ℕ, col.numDigits = w + 1 ∧ col.lowest = -(low : ℤ) ∧
    col.max = high ∧ (10 ^ w ≤ low ∧ low < 10 ^ (w + 1)) ∧ 10 ^ w ≤ high ∧ high < 10 ^ (w + 1) := by
  cases col with
  | int => exact ⟨9, 2147483648, 2147483647, rfl, rfl, rfl, by decide, by decide, by decide⟩
  | bigint =>
    exact ⟨18, 9223372036854775808, 9223372036854775807, rfl, rfl,
      rfl, by decide, by decide, by decide⟩

/-- A number without `-` lies above every number with one. -/
theorem compareIntString_minus_right {a b : Bytes} (ha : a ≠ [])
    (hhead : a.head? ≠ some '-'.toUInt8) : compareIntString a ('-'.toUInt8 :: b) = .gt := by
  simp [compareIntString, ha, hhead]

theorem compareIntString_minus_left {a b : Bytes} (hb : b ≠ [])
    (hhead : b.head? ≠ some '-'.toUInt8) : compareIntString ('-'.toUInt8 :: a) b = .lt := by
  simp [compareIntString, hb, hhead]

theorem compareIntString_minus (a b : Bytes) :
    compareIntString ('-'.toUInt8 :: a) ('-'.toUInt8 :: b) = (comparePosIntString a b).swap := by
  simp [compareIntString]

theorem compareIntString_digits {a b : Bytes} (ha : a ≠ []) (hb : b ≠ []) (hda : Digits a)
    (hdb : Digits b) : compareIntString a b = comparePosIntString a b := by
  have hminus {ds : Bytes} (h : Digits ds) : ds.head? ≠ some '-'.toUInt8 :=
    head?_ne_of_digits h (by decide)
  have hplus {ds : Bytes} (h : Digits ds) : ds.head? ≠ some '+'.toUInt8 :=
    head?_ne_of_digits h (by decide)
  simp [compareIntString, ha, hb, hminus hda, hminus hdb, hplus hda, hplus hdb]

theorem compareIntString_plus {a b : Bytes} (hb : b ≠ []) (hdb : Digits b) :
    compareIntString ('+'.toUInt8 :: a) b = comparePosIntString a b := by
  have hminus : b.head? ≠ some '-'.toUInt8 := head?_ne_of_digits hdb (by decide)
  have hplus : b.head? ≠ some '+'.toUInt8 := head?_ne_of_digits hdb (by decide)
  have hsign : '+'.toUInt8 ≠ '-'.toUInt8 := by decide
  simp [compareIntString, hb, hminus, hplus, hsign]

/-- The test for an overflow accepts the literals that fit and are not too long. -/
theorem noOverflow_text : noOverflow col.lowest col.max lit.text = true ↔
    lit.digits.length ≤ col.numDigits ∧ lit.Fits col := by
  obtain ⟨w, low, high, hw, hlow, hhigh, ⟨hlow₁, hlow₂⟩, hhigh₁, hhigh₂⟩ := col.exists_bounds
  have hlowPos : 0 < low := lt_of_lt_of_le (Nat.pow_pos (by decide)) hlow₁
  have hmax : intText col.max = decDigits (w + 1) high := by
    rw [hhigh, intText, if_neg (by omega), Int.natAbs_natCast, decPadded_one hhigh₁ hhigh₂]
  have hmin : intText col.lowest = '-'.toUInt8 :: decDigits (w + 1) low := by
    rw [hlow, intText, if_pos (by omega), Int.natAbs_neg, Int.natAbs_natCast,
      decPadded_one hlow₁ hlow₂]
  have hne (n : ℕ) : decDigits (w + 1) n ≠ [] := by simp [decDigits]
  have hsign : '+'.toUInt8 ≠ '-'.toUInt8 := by decide
  have hdig := lit.isDigits
  have hminus (n : ℕ) : (decDigits (w + 1) n).head? ≠ some '-'.toUInt8 :=
    head?_ne_of_digits (digits_decDigits _ _) (by decide)
  rw [noOverflow, Bool.and_eq_true, hmax, hmin, hw, IntLiteral.Fits, hlow, hhigh, IntLiteral.text,
    IntLiteral.value]
  cases lit.sign with
  | none =>
    simp only []
    rw [compareIntString_digits lit.nonempty (hne _) hdig (digits_decDigits _ _),
      comparePosIntString_isLE hdig hhigh₁ hhigh₂,
      compareIntString_minus_right lit.nonempty (head?_ne_of_digits hdig (by decide))]
    simp only [Ordering.isGE, and_true]
    omega
  | plus =>
    simp only []
    rw [compareIntString_plus (hne _) (digits_decDigits _ _),
      comparePosIntString_isLE hdig hhigh₁ hhigh₂,
      compareIntString_minus_right (List.cons_ne_nil _ _) (by simp [hsign])]
    simp only [Ordering.isGE, and_true]
    omega
  | minus =>
    simp only []
    rw [compareIntString_minus_left (hne _) (hminus _), compareIntString_minus, Ordering.isGE_swap,
      comparePosIntString_isLE hdig hlow₁ hlow₂]
    simp only [Ordering.isLE, true_and]
    omega

theorem intOfText_text (lit : IntLiteral) : intOfText lit.text = lit.value := by
  obtain ⟨sign, digits, hne, hdigits⟩ := lit
  cases sign with
  | none =>
    obtain ⟨c, ds, rfl⟩ := List.exists_cons_of_ne_nil hne
    have hminus : c ≠ '-'.toUInt8 :=
      fun h => head?_ne_of_digits (c := '-'.toUInt8) hdigits (by decide) (h ▸ rfl)
    have hplus : c ≠ '+'.toUInt8 :=
      fun h => head?_ne_of_digits (c := '+'.toUInt8) hdigits (by decide) (h ▸ rfl)
    simp [IntLiteral.text, IntLiteral.value, intOfText, hminus, hplus]
  | plus =>
    have hsign : '+'.toUInt8 ≠ '-'.toUInt8 := by decide
    simp [IntLiteral.text, IntLiteral.value, intOfText, hsign]
  | minus => simp [IntLiteral.text, IntLiteral.value, intOfText]

theorem stoi_text (lit : IntLiteral) (col : IntCol) : stoi col.lowest col.max lit.text =
    if lit.Fits col then .ok lit.value else .error .outOfRange := by
  rw [stoi, intOfText_text]
  rfl

end Digits

/-! ## What becomes of a literal -/

section Outcome
variable {lit : IntLiteral} {col : IntCol}

/-- The value with the number of a literal. -/
def IntCol.ofNumber (col : IntCol) (n : ℤ) : Value :=
  match col with
  | .int => .int (.ofInt 32 n)
  | .bigint => .bigint (.ofInt 64 n)

theorem number_ofNumber {n : ℤ} (h : col.lowest ≤ n ∧ n ≤ col.max) :
    (col.ofNumber n).number = n := by
  obtain ⟨hlow, hhigh⟩ := h
  cases col with
  | int =>
    simp only [IntCol.lowest, IntCol.max, INT_LOWEST, INT_MAX] at hlow hhigh
    rw [IntCol.ofNumber, Value.number, BitVec.toInt_ofInt]
    exact Int.bmod_eq_of_le (by omega) (by omega)
  | bigint =>
    simp only [IntCol.lowest, IntCol.max, INT64_LOWEST, INT64_MAX] at hlow hhigh
    rw [IntCol.ofNumber, Value.number, BitVec.toInt_ofInt]
    exact Int.bmod_eq_of_le (by omega) (by omega)

/-- `convert_sv_value` on an integer literal for a column of type INT or BIGINT. -/
theorem convertSvValue_intLit (s : Bytes) (col : IntCol) :
    convertSvValue (.intLit s) (some col.colType) =
    if noOverflow col.lowest col.max s then (stoi col.lowest col.max s).map col.ofNumber
    else .error .integerOverflow := by
  cases col with
  | int =>
    show convertSvValue (.intLit s) (some .int) =
      if noOverflow INT_LOWEST INT_MAX s then (stoi INT_LOWEST INT_MAX s).map _ else _
    rw [convertSvValue, if_neg (by decide)]
    cases noOverflow INT_LOWEST INT_MAX s with
    | false => rfl
    | true =>
      cases stoi INT_LOWEST INT_MAX s with
      | ok n => rfl
      | error e => rfl
  | bigint =>
    show convertSvValue (.intLit s) (some .bigint) =
      if noOverflow INT64_LOWEST INT64_MAX s then (stoi INT64_LOWEST INT64_MAX s).map _ else _
    rw [convertSvValue, if_pos rfl]
    cases noOverflow INT64_LOWEST INT64_MAX s with
    | false => rfl
    | true =>
      cases stoi INT64_LOWEST INT64_MAX s with
      | ok n => rfl
      | error e => rfl

/-- The value that a literal is converted to. -/
def converted (lit : IntLiteral) (col : IntCol) : Except LitError Value :=
  if lit.digits.length ≤ col.numDigits ∧ lit.Fits col then .ok (col.ofNumber lit.value)
  else .error .integerOverflow

theorem convertSvValue_text (lit : IntLiteral) (col : IntCol) :
    convertSvValue (.intLit lit.text) (some col.colType) = converted lit col := by
  rw [convertSvValue_intLit, converted]
  by_cases h : lit.digits.length ≤ col.numDigits ∧ lit.Fits col
  · rw [if_pos (noOverflow_text.mpr h), if_pos h, stoi_text, if_pos h.2]
    rfl
  · rw [if_neg fun htest => h (noOverflow_text.mp htest), if_neg h]

theorem setValue_text (toFloat : BitVec 32 → BitVec 32) (lit : IntLiteral) (col : IntCol) :
    setValue toFloat (.intLit lit.text) col.colType = converted lit col := by
  rw [setValue, convertSvValue_text, converted]
  split
  · cases col <;> rfl
  · rfl

/-- Without the column, an integer literal is converted to an `int`. -/
theorem convertSvValue_none (s : Bytes) :
    convertSvValue (.intLit s) none = convertSvValue (.intLit s) (some IntCol.int.colType) := by
  rw [convertSvValue_intLit, convertSvValue, if_neg (by decide)]
  show _ = if noOverflow INT_LOWEST INT_MAX s then (stoi INT_LOWEST INT_MAX s).map _ else _
  cases noOverflow INT_LOWEST INT_MAX s with
  | false => rfl
  | true =>
    cases stoi INT_LOWEST INT_MAX s with
    | ok n => rfl
    | error e => rfl

theorem condValue_text (toFloat : BitVec 32 → BitVec 32) (lit : IntLiteral) (col : IntCol) :
    condValue toFloat (.intLit lit.text) col.colType = converted lit col := by
  cases col with
  | int =>
    rw [condValue, if_neg (by decide), convertSvValue_none, convertSvValue_text, converted]
    split
    · rfl
    · rfl
  | bigint =>
    rw [condValue, if_pos (.inl rfl)]
    exact convertSvValue_text lit .bigint

theorem analyzed_converted (lit : IntLiteral) (col : IntCol) : analyzed (converted lit col) =
    if lit.digits.length ≤ col.numDigits ∧ lit.Fits col then .used lit.value
    else .refused .integerOverflow := by
  rw [converted]
  split
  · next h => rw [analyzed, number_ofNumber h.2]
  · rfl

/-- The analysis of a constant means the value of the literal unless it fits and is too long. -/
theorem meansValue_constant {out : LitOutcome} (h : out = analyzed (converted lit col)) :
    (if lit.Fits col then out = .used lit.value else ∃ e, out = .refused e) ↔
      (lit.Fits col → lit.digits.length ≤ col.numDigits) := by
  rw [h, analyzed_converted]
  by_cases hfits : lit.Fits col
  · by_cases hlen : lit.digits.length ≤ col.numDigits
    · simp [hfits, hlen]
    · simp [hfits, hlen]
  · simp [hfits]

/-- The action of the grammar means the value of the literal if it fits. -/
theorem meansValue_parsed {out : LitOutcome} (h : out = parsed (stoi INT_LOWEST INT_MAX lit.text)) :
    (if lit.Fits .int then out = .used lit.value else ∃ e, out = .refused e) ↔ lit.Fits .int := by
  have hstoi : stoi INT_LOWEST INT_MAX lit.text =
    if lit.Fits .int then .ok lit.value else .error .outOfRange :=
    stoi_text lit .int
  rw [h, hstoi]
  by_cases hfits : lit.Fits .int
  · simp [hfits, parsed]
  · simp [hfits, parsed]

/-- A literal means its value, or is refused if that does not fit, exactly if it is convertible at
its place. -/
theorem literal_means_value_iff (toFloat : BitVec 32 → BitVec 32) (place : LitPlace)
    (lit : IntLiteral) : MeansValue toFloat place lit ↔ Convertible place lit := by
  cases place with
  | values col => exact meansValue_constant (congrArg analyzed (convertSvValue_text lit col))
  | set col => exact meansValue_constant (congrArg analyzed (setValue_text toFloat lit col))
  | cond col => exact meansValue_constant (congrArg analyzed (condValue_text toFloat lit col))
  | charLen => exact meansValue_parsed rfl
  | limit => exact meansValue_parsed rfl

/-- The literal `00000000001`. -/
def elevenDigits : IntLiteral where
  sign := .none
  digits := decDigits 11 1
  nonempty := by decide
  isDigits := digits_decDigits 11 1

/-- The literal `2147483648`. -/
def aboveMax : IntLiteral where
  sign := .none
  digits := decDigits 10 2147483648
  nonempty := by decide
  isDigits := digits_decDigits 10 2147483648

/-- `VALUES (00000000001)` is refused as an overflow, and `LIMIT 2147483648` ends the server. -/
theorem not_literal_means_value :
    ¬ MeansValue id (.values .int) elevenDigits ∧ ¬ MeansValue id .limit aboveMax ∧
      handleLiteral id elevenDigits.text (.values .int) = .refused .integerOverflow ∧
      handleLiteral id aboveMax.text .limit = .escaped .outOfRange := by
  have hone : elevenDigits.Fits .int := by decide +kernel
  have habove : ¬ aboveMax.Fits .int := by decide +kernel
  have hvalues : handleLiteral id elevenDigits.text (.values .int) = .refused .integerOverflow := by
    decide +kernel
  have hlimit : handleLiteral id aboveMax.text .limit = .escaped .outOfRange := by decide +kernel
  refine ⟨?_, ?_, hvalues, hlimit⟩
  · rw [MeansValue, if_pos (show elevenDigits.Fits (LitPlace.values .int).target from hone),
      hvalues]
    exact LitOutcome.noConfusion
  · rw [MeansValue, if_neg (show ¬ aboveMax.Fits LitPlace.limit.target from habove), hlimit]
    rintro ⟨e, he⟩
    cases he

end Outcome

end Rmdb
