import Mathlib.Data.List.GetD
import Mathlib.Tactic.IntervalCases
import Rmdb.Index.Compare

/-!
# Dates and times

`common/datetime_util.h`: a point in time as the text `YYYY-MM-DD HH:MM:SS` and as 64 bits with one
field after the other.  The calendar is that of `IsDatetime`, and both forms are ordered like the
points in time.
-/

namespace Rmdb

/-- The numbers that the functions pass around: `year`, `month`, `day`, `hour`, `minute` and
`second`. -/
structure Datetime where
  year : ℕ
  month : ℕ
  day : ℕ
  hour : ℕ
  minute : ℕ
  second : ℕ
deriving DecidableEq, Repr

/-! ## The functions -/

def isLeapYear (year : ℕ) : Bool :=
  (decide (year % 4 = 0) && decide (year % 100 ≠ 0)) || decide (year % 400 = 0)

/-- The table is read for the months 1 to 12 only. -/
def daysInMonth (year month : ℕ) : ℕ :=
  if month = 2 && isLeapYear year then 29
  else [0, 31, 28, 31, 30, 31, 30, 31, 31, 30, 31, 30, 31].getD month 0

def packDatetime (f : Datetime) : BitVec 64 :=
  BitVec.ofNat 64 f.year <<< 48 ||| BitVec.ofNat 64 f.month <<< 40 ||| BitVec.ofNat 64
    f.day <<< 32 |||
    BitVec.ofNat 64 f.hour <<< 24 ||| BitVec.ofNat 64 f.minute <<< 16 ||| BitVec.ofNat 64
      f.second <<< 8

/-- The right shift is that of a signed number. -/
def unpackDatetime (val : BitVec 64) : Datetime where
  year := (val.sshiftRight 48 &&& 0xFFFF#64).toNat
  month := (val.sshiftRight 40 &&& 0xFF#64).toNat
  day := (val.sshiftRight 32 &&& 0xFF#64).toNat
  hour := (val.sshiftRight 24 &&& 0xFF#64).toNat
  minute := (val.sshiftRight 16 &&& 0xFF#64).toNat
  second := (val.sshiftRight 8 &&& 0xFF#64).toNat

/-- The format `%04d-%02d-%02d %02d:%02d:%02d`. -/
def formatDatetime (val : BitVec 64) : Bytes :=
  let f := unpackDatetime val
  decPadded 4 f.year ++ '-'.toUInt8 ::
    (decPadded 2 f.month ++ '-'.toUInt8 :: (decPadded 2 f.day ++ ' '.toUInt8 ::
    (decPadded 2 f.hour ++ ':'.toUInt8 ::
      (decPadded 2 f.minute ++ ':'.toUInt8 :: decPadded 2 f.second))))

/-- `s.substr(pos, n)`. -/
def substr (s : Bytes) (pos n : ℕ) : Bytes := (s.drop pos).take n

/-- `none` is an `InvalidDateTimeError`.  `std::stoi` is only used on digits. -/
def parseDatetime (s : Bytes) : Option (BitVec 64) :=
  if s.length ≠ 19 then none
  else if s.getD 4 0 ≠ '-'.toUInt8 ∨ s.getD 7 0 ≠ '-'.toUInt8 ∨ s.getD 10 0 ≠ ' '.toUInt8 ∨
      s.getD 13 0 ≠ ':'.toUInt8 ∨ s.getD 16 0 ≠ ':'.toUInt8 then none
  else if (List.range 19).any fun i => decide (i ∉ [4, 7, 10, 13, 16]) &&
    !isDigit (s.getD i 0) then none
  else
    let year := decVal (substr s 0 4)
    let month := decVal (substr s 5 2)
    let day := decVal (substr s 8 2)
    let hour := decVal (substr s 11 2)
    let minute := decVal (substr s 14 2)
    let second := decVal (substr s 17 2)
    if year < 1000 ∨ year > 9999 then none
    else if month < 1 ∨ month > 12 then none
    else if day < 1 ∨ day > daysInMonth year month then none
    else if hour > 23 then none
    else if minute > 59 then none
    else if second > 59 then none
    else some (packDatetime ⟨year, month, day, hour, minute, second⟩)

/-! ## Points in time -/

/-- The leap years of the Gregorian calendar. -/
def LeapYear (year : ℕ) : Prop := 400 ∣ year ∨ 4 ∣ year ∧ ¬ 100 ∣ year

instance (year : ℕ) : Decidable (LeapYear year) := inferInstanceAs (Decidable (_ ∨ _))

/-- The number of days of a month. -/
def monthLength (year : ℕ) : ℕ → ℕ
  | 2 => if LeapYear year then 29 else 28
  | 4 | 6 | 9 | 11 => 30
  | _ => 31

/-- A date of the Gregorian calendar in the years 1000 to 9999, and a time of day. -/
structure IsDatetime (f : Datetime) : Prop where
  year : 1000 ≤ f.year ∧ f.year ≤ 9999
  month : 1 ≤ f.month ∧ f.month ≤ 12
  day : 1 ≤ f.day ∧ f.day ≤ monthLength f.year f.month
  hour : f.hour ≤ 23
  minute : f.minute ≤ 59
  second : f.second ≤ 59

/-- `YYYY-MM-DD HH:MM:SS`. -/
def Datetime.text (f : Datetime) : Bytes :=
  decDigits 4 f.year ++ '-'.toUInt8 ::
    (decDigits 2 f.month ++ '-'.toUInt8 :: (decDigits 2 f.day ++ ' '.toUInt8 ::
    (decDigits 2 f.hour ++ ':'.toUInt8 ::
      (decDigits 2 f.minute ++ ':'.toUInt8 :: decDigits 2 f.second))))

/-- The earlier and the later of two points in time. -/
def Datetime.chronological (f g : Datetime) : Ordering :=
  (compare f.year g.year).then <| (compare f.month g.month).then <| (compare f.day g.day).then <|
    (compare f.hour g.hour).then <| (compare f.minute g.minute).then (compare f.second g.second)

theorem daysInMonth_eq {year month : ℕ} (hmonth : 1 ≤ month ∧ month ≤ 12) :
    daysInMonth year month = monthLength year month := by
  have hleap : isLeapYear year = decide (LeapYear year) := by
    rw [Bool.eq_iff_iff]
    simp only [isLeapYear, LeapYear, Bool.or_eq_true, Bool.and_eq_true, decide_eq_true_eq,
      Nat.dvd_iff_mod_eq_zero]
    exact or_comm
  obtain ⟨hlow, hhigh⟩ := hmonth
  interval_cases month <;> simp [daysInMonth, monthLength, hleap]

theorem monthLength_le (year month : ℕ) : monthLength year month ≤ 31 := by
  unfold monthLength
  split
  · split <;> decide
  all_goals decide

/-! ## The packed form -/

section Packed
variable {f g : Datetime}

/-- The fields are within their widths. -/
structure Datetime.Fits (f : Datetime) : Prop where
  year : f.year < 2 ^ 15
  month : f.month < 2 ^ 8
  day : f.day < 2 ^ 8
  hour : f.hour < 2 ^ 8
  minute : f.minute < 2 ^ 8
  second : f.second < 2 ^ 8

theorem IsDatetime.fits (h : IsDatetime f) : f.Fits := by
  obtain ⟨hyear, hmonth, hday, hhour, hminute, hsecond⟩ := h
  have hlength := monthLength_le f.year f.month
  refine ⟨?_, ?_, ?_, ?_, ?_, ?_⟩ <;> omega

/-- Shifted fields that do not overlap. -/
theorem or_shiftLeft {a b k w : ℕ} (hb : b < 2 ^ w) :
    a <<< (w + k) ||| b <<< k = (a * 2 ^ w + b) <<< k := by
  rw [Nat.shiftLeft_add, ← Nat.shiftLeft_or_distrib, ← Nat.shiftLeft_add_eq_or_of_lt hb,
    Nat.shiftLeft_eq a w]

theorem toNat_field {n k w : ℕ} (hn : n < 2 ^ w) (hk : w + k ≤ 64) :
    (BitVec.ofNat 64 n <<< k).toNat = n <<< k := by
  have hpow : 2 ^ w * 2 ^ k ≤ 2 ^ 64 := by
    rw [← pow_add]
    exact Nat.pow_le_pow_right (by decide) hk
  have hshift : n * 2 ^ k < 2 ^ 64 :=
    lt_of_lt_of_le (Nat.mul_lt_mul_of_pos_right hn (Nat.two_pow_pos k)) hpow
  have hle : n ≤ n * 2 ^ k := Nat.le_mul_of_pos_right n (Nat.two_pow_pos k)
  rw [BitVec.toNat_shiftLeft, BitVec.toNat_ofNat, Nat.mod_eq_of_lt (lt_of_le_of_lt hle hshift),
    Nat.shiftLeft_eq, Nat.mod_eq_of_lt hshift]

/-- The packed form is a number with one digit for each field. -/
theorem toNat_packDatetime (h : f.Fits) : (packDatetime f).toNat =
    (((((f.year * 2 ^ 8 + f.month) * 2 ^ 8 + f.day) * 2 ^ 8 + f.hour) * 2 ^ 8 + f.minute) * 2 ^
      8 + f.second) * 2 ^ 8 := by
  simp only [packDatetime, BitVec.toNat_or]
  rw [toNat_field h.year (by decide), toNat_field h.month (by decide),
    toNat_field h.day (by decide),
    toNat_field h.hour (by decide), toNat_field h.minute (by decide),
      toNat_field h.second (by decide),
    or_shiftLeft (k := 40) (w := 8) h.month, or_shiftLeft (k := 32) (w := 8) h.day,
    or_shiftLeft (k := 24) (w := 8) h.hour, or_shiftLeft (k := 16) (w := 8) h.minute,
    or_shiftLeft (k := 8) (w := 8) h.second, Nat.shiftLeft_eq]

theorem packDatetime_lt (h : f.Fits) : (packDatetime f).toNat < 2 ^ 63 := by
  rw [toNat_packDatetime h]
  obtain ⟨hyear, hmonth, hday, hhour, hminute, hsecond⟩ := h
  omega

/-- A field of a number that is not negative. -/
theorem toNat_shift_and {v : BitVec 64} (hv : v.toNat < 2 ^ 63) (k : ℕ) {w : ℕ} (hw : w ≤ 64) :
    (v.sshiftRight k &&& BitVec.ofNat 64 (2 ^ w - 1)).toNat = v.toNat / 2 ^ k % 2 ^ w := by
  have hmsb : v.msb = false := BitVec.msb_eq_false_iff_two_mul_lt.mpr (by omega)
  have hpow : 2 ^ w ≤ 2 ^ 64 := Nat.pow_le_pow_right (by decide) hw
  have hpos : 0 < 2 ^ w := Nat.two_pow_pos w
  rw [BitVec.sshiftRight_eq_of_msb_false hmsb, BitVec.toNat_and, BitVec.toNat_ushiftRight,
    BitVec.toNat_ofNat,
    Nat.mod_eq_of_lt (show 2 ^ w - 1 < 2 ^ 64 by omega), Nat.and_two_pow_sub_one_eq_mod,
      Nat.shiftRight_eq_div_pow]

theorem unpackDatetime_packDatetime (h : f.Fits) : unpackDatetime (packDatetime f) = f := by
  have hlt := packDatetime_lt h
  have hfield (k : ℕ) : ((packDatetime f).sshiftRight k &&& 0xFF#64).toNat =
      (packDatetime f).toNat / 2 ^ k % 2 ^ 8 := toNat_shift_and hlt k (w := 8) (by decide)
  have hyear : ((packDatetime f).sshiftRight 48 &&& 0xFFFF#64).toNat =
      (packDatetime f).toNat / 2 ^ 48 % 2 ^ 16 := toNat_shift_and hlt 48 (w := 16) (by decide)
  rw [unpackDatetime, hyear, hfield, hfield, hfield, hfield, hfield, toNat_packDatetime h]
  obtain ⟨hyear, hmonth, hday, hhour, hminute, hsecond⟩ := h
  cases f with
  | mk year month day hour minute second =>
    simp only at hyear hmonth hday hhour hminute hsecond
    simp only [Datetime.mk.injEq]
    refine ⟨?_, ?_, ?_, ?_, ?_, ?_⟩ <;> omega

/-- The packed forms are ordered like the points in time. -/
theorem compare_packDatetime (hf : f.Fits) (hg : g.Fits) :
    compare (packDatetime f).toNat (packDatetime g).toNat = f.chronological g := by
  rw [toNat_packDatetime hf, toNat_packDatetime hg, compare_mul (Nat.two_pow_pos 8),
    compare_mul_add hf.second hg.second, compare_mul_add hf.minute hg.minute,
      compare_mul_add hf.hour hg.hour,
    compare_mul_add hf.day hg.day, compare_mul_add hf.month hg.month]
  simp only [Datetime.chronological, Ordering.then_assoc]

end Packed

/-! ## The text -/

section Text
variable {f g : Datetime} {s : Bytes}

theorem drop_eq_substr (s : Bytes) (i w : ℕ) : s.drop i = substr s i w ++ s.drop (i + w) := by
  rw [substr, ← List.drop_drop, List.take_append_drop]

theorem drop_eq_cons {c : UInt8} {i : ℕ} (hi : i < s.length) (hc : s.getD i 0 = c) :
    s.drop i = c :: s.drop (i + 1) := by
  rw [List.drop_eq_getElem_cons hi, ← hc, List.getD_eq_getElem s 0 hi]

/-- A piece of the string between separators is a row of digits. -/
theorem digits_substr {i w : ℕ} (hw : i + w ≤ s.length)
    (h : ∀ j, i ≤ j → j < i + w → isDigit (s.getD j 0) = true) : Digits (substr s i w) := by
  intro b hb
  obtain ⟨j, hj, rfl⟩ := List.mem_iff_getElem.mp hb
  rw [substr, List.length_take, List.length_drop] at hj
  have hlt : i + j < s.length := by omega
  have hdigit := h (i + j) (by omega) (by omega)
  rw [List.getD_eq_getElem s 0 hlt] at hdigit
  simpa [substr] using hdigit

theorem decDigits_substr {i w : ℕ} (hw : i + w ≤ s.length)
    (h : ∀ j, i ≤ j → j < i + w → isDigit (s.getD j 0) = true) :
    substr s i w = decDigits w (decVal (substr s i w)) := by
  have hlen : (substr s i w).length = w := by
    rw [substr, List.length_take, List.length_drop]
    omega
  have hdigits := decDigits_decVal (digits_substr hw h)
  rw [hlen] at hdigits
  exact hdigits.symm

/-- The numbers that `parse_datetime` reads. -/
def fieldsOf (s : Bytes) : Datetime where
  year := decVal (substr s 0 4)
  month := decVal (substr s 5 2)
  day := decVal (substr s 8 2)
  hour := decVal (substr s 11 2)
  minute := decVal (substr s 14 2)
  second := decVal (substr s 17 2)

/-- The form that `parse_datetime` asks for: digits with separators between them. -/
structure HasForm (s : Bytes) : Prop where
  length : s.length = 19
  separators : s.getD 4 0 = '-'.toUInt8 ∧ s.getD 7 0 = '-'.toUInt8 ∧ s.getD 10 0 = ' '.toUInt8 ∧
    s.getD 13 0 = ':'.toUInt8 ∧ s.getD 16 0 = ':'.toUInt8
  digits : ∀ i < 19, i ∉ [4, 7, 10, 13, 16] → isDigit (s.getD i 0) = true

theorem parseDatetime_iff {v : BitVec 64} :
    parseDatetime s = some v ↔ HasForm s ∧ IsDatetime (fieldsOf s) ∧ packDatetime
    (fieldsOf s) = v := by
  simp only [parseDatetime, Option.ite_none_left_eq_some, Option.some.injEq, not_or, not_not,
    List.any_eq_true,
    List.mem_range, Bool.and_eq_true, decide_eq_true_eq, Bool.not_eq_true', not_exists,
      not_and, not_lt,
    Bool.not_eq_false]
  constructor
  · rintro ⟨hlen, hsep, hdigits, hyear, hmonth, hday, hhour, hminute, hsecond, hv⟩
    rw [daysInMonth_eq hmonth] at hday
    exact ⟨⟨hlen, hsep, hdigits⟩, ⟨hyear, hmonth, hday, hhour, hminute, hsecond⟩, hv⟩
  · rintro ⟨⟨hlen, hsep, hdigits⟩, ⟨hyear, hmonth, hday, hhour, hminute, hsecond⟩, hv⟩
    rw [← daysInMonth_eq hmonth] at hday
    exact ⟨hlen, hsep, hdigits, hyear, hmonth, hday, hhour, hminute, hsecond, hv⟩

/-- A string of the form is the text of its fields. -/
theorem HasForm.eq_text (h : HasForm s) : s = (fieldsOf s).text := by
  obtain ⟨hlen, ⟨h4, h7, h10, h13, h16⟩, hdigits⟩ := h
  have hpiece {i w : ℕ} (hw : i + w ≤ 19) (hi : ∀ j, i ≤ j → j < i + w → j ∉ [4, 7, 10, 13, 16]) :
      substr s i w = decDigits w (decVal (substr s i w)) :=
    decDigits_substr (hlen ▸ hw) fun j hij hjw => hdigits j (by omega) (hi j hij hjw)
  have hmem {i w : ℕ} (hw : i + w ≤ 19) (hi : ∀ j < 19, i ≤ j → j < i + w →
    j ∉ [4, 7, 10, 13, 16]) :
      ∀ j, i ≤ j → j < i + w → j ∉ [4, 7, 10, 13, 16] := fun j hij hjw => hi j (by omega) hij hjw
  calc s = s.drop 0 := rfl
    _ = substr s 0 4 ++ '-'.toUInt8 ::
      (substr s 5 2 ++ '-'.toUInt8 :: (substr s 8 2 ++ ' '.toUInt8 ::
        (substr s 11 2 ++ ':'.toUInt8 ::
          (substr s 14 2 ++ ':'.toUInt8 :: (substr s 17 2 ++ s.drop 19))))) := by
      rw [drop_eq_substr s 0 4, drop_eq_cons (by omega) h4, drop_eq_substr s 5 2,
        drop_eq_cons (by omega) h7,
        drop_eq_substr s 8 2, drop_eq_cons (by omega) h10, drop_eq_substr s 11 2,
          drop_eq_cons (by omega) h13,
        drop_eq_substr s 14 2, drop_eq_cons (by omega) h16, drop_eq_substr s 17 2]
    _ = (fieldsOf s).text := by
      rw [List.drop_eq_nil_of_le hlen.le, List.append_nil, 
        hpiece (i := 0) (w := 4) (by decide) (hmem (by decide) (by decide)),
        hpiece (i := 5) (w := 2) (by decide) (hmem (by decide) (by decide)),
        hpiece (i := 8) (w := 2) (by decide) (hmem (by decide) (by decide)),
        hpiece (i := 11) (w := 2) (by decide) (hmem (by decide) (by decide)),
        hpiece (i := 14) (w := 2) (by decide) (hmem (by decide) (by decide)),
        hpiece (i := 17) (w := 2) (by decide) (hmem (by decide) (by decide))]
      rfl

theorem hasForm_text (f : Datetime) : HasForm f.text := by
  refine ⟨?_, ⟨rfl, rfl, rfl, rfl, rfl⟩, fun i hi hsep => ?_⟩
  · simp [Datetime.text]
  · interval_cases i
    all_goals first
      | exact isDigit_digit _
      | exact absurd (by decide) hsep

theorem fieldsOf_text (h : IsDatetime f) : fieldsOf f.text = f := by
  obtain ⟨hyear, hmonth, hday, hhour, hminute, hsecond⟩ := h
  have hlength := monthLength_le f.year f.month
  have hy : substr f.text 0 4 = decDigits 4 f.year := rfl
  have hmo : substr f.text 5 2 = decDigits 2 f.month := rfl
  have hd : substr f.text 8 2 = decDigits 2 f.day := rfl
  have hh : substr f.text 11 2 = decDigits 2 f.hour := rfl
  have hmi : substr f.text 14 2 = decDigits 2 f.minute := rfl
  have hs : substr f.text 17 2 = decDigits 2 f.second := rfl
  rw [fieldsOf, hy, hmo, hd, hh, hmi, hs, decVal_decDigits (by omega), decVal_decDigits (by omega),
    decVal_decDigits (by omega), decVal_decDigits (by omega), decVal_decDigits (by omega),
    decVal_decDigits (by omega)]

/-- What `parse_datetime` accepts, and what it returns. -/
theorem parseDatetime_eq_some {v : BitVec 64} :
    parseDatetime s = some v ↔ ∃ f, IsDatetime f ∧ s = f.text ∧ v = packDatetime f := by
  rw [parseDatetime_iff]
  constructor
  · rintro ⟨hform, hfields, rfl⟩
    exact ⟨fieldsOf s, hfields, hform.eq_text, rfl⟩
  · rintro ⟨f, hf, rfl, rfl⟩
    rw [fieldsOf_text hf]
    exact ⟨hasForm_text f, hf, rfl⟩

/-- `format_datetime` writes the text. -/
theorem formatDatetime_packDatetime (h : IsDatetime f) :
    formatDatetime (packDatetime f) = f.text := by
  rw [formatDatetime, unpackDatetime_packDatetime h.fits]
  obtain ⟨hyear, hmonth, hday, hhour, hminute, hsecond⟩ := h
  have hlength := monthLength_le f.year f.month
  simp only [Datetime.text]
  rw [decPadded_eq (w := 4) (by omega) (by decide), decPadded_eq (w := 2) (by omega) (by decide),
    decPadded_eq (w := 2) (by omega) (by decide), decPadded_eq (w := 2) (by omega) (by decide),
    decPadded_eq (w := 2) (by omega) (by decide), decPadded_eq (w := 2) (by omega) (by decide)]

theorem memcmp_decDigits {w m n : ℕ} (hm : m < 10 ^ w) (hn : n < 10 ^ w) :
    memcmp (decDigits w m) (decDigits w n) = compare m n := by
  rw [memcmp_digits (by simp) (digits_decDigits w m) (digits_decDigits w n), decVal_decDigits hm,
    decVal_decDigits hn]

/-- A number and a separator in front of two strings. -/
theorem memcmp_piece {w m n : ℕ} (hm : m < 10 ^ w) (hn : n < 10 ^ w) (c : UInt8) (as bs : Bytes) :
    memcmp (decDigits w m ++ c :: as) (decDigits w n ++ c :: bs) = (compare m n).then
    (memcmp as bs) := by
  rw [memcmp_append (by simp), memcmp_decDigits hm hn, memcmp, compare_eq_iff_eq.2 rfl]
  rfl

/-- The texts are ordered like the points in time. -/
theorem memcmp_text (hf : IsDatetime f) (hg : IsDatetime g) :
    memcmp f.text g.text = f.chronological g := by
  obtain ⟨hyear, hmonth, hday, hhour, hminute, hsecond⟩ := hf
  obtain ⟨hyear', hmonth', hday', hhour', hminute', hsecond'⟩ := hg
  have hlength := monthLength_le f.year f.month
  have hlength' := monthLength_le g.year g.month
  rw [Datetime.text, Datetime.text, memcmp_piece (by omega) (by omega),
    memcmp_piece (by omega) (by omega),
    memcmp_piece (by omega) (by omega), memcmp_piece (by omega) (by omega),
      memcmp_piece (by omega) (by omega),
    memcmp_decDigits (by omega) (by omega), Datetime.chronological]

/-- `ix_compare` on packed forms that are stored in a column. -/
theorem ixCompareCol_datetime {v w : BitVec 64} (hv : v.toNat < 2 ^ 63) (hw : w.toNat < 2 ^ 63) :
    ixCompareCol (leBytes 8 v.toNat) (leBytes 8 w.toNat) .datetime 8 = compare v.toNat w.toNat := by
  have hread {v : BitVec 64} (hv : v.toNat < 2 ^ 63) :
      signed 64 (leNat ((leBytes 8 v.toNat).take 8)) = v.toNat := by
    rw [List.take_of_length_le (by simp), leNat_leBytes (by omega), signed, if_pos (by omega)]
  rw [ixCompareCol, hread hv, hread hw]
  rcases Nat.lt_trichotomy v.toNat w.toNat with hlt | heq | hgt
  · rw [compare_lt_iff_lt.2 hlt, compare_lt_iff_lt.2 (Int.ofNat_lt.2 hlt)]
  · rw [heq, compare_eq_iff_eq.2 rfl, compare_eq_iff_eq.2 rfl]
  · rw [compare_gt_iff_gt.2 hgt, compare_gt_iff_gt.2 (Int.ofNat_lt.2 hgt)]

/-- `parse_datetime` accepts exactly the texts of points in time; printing, unpacking and the order
of `ix_compare` agree with the text. -/
theorem datetime_text_and_packed (s : Bytes) :
    ((parseDatetime s).isSome = true ↔ ∃ f, IsDatetime f ∧ s = f.text) ∧
      (∀ v, parseDatetime s = some v → formatDatetime v = s ∧
        ∃ f, IsDatetime f ∧ s = f.text ∧ v = packDatetime f ∧ unpackDatetime v = f) ∧
      ∀ t v w, parseDatetime s = some v → parseDatetime t = some w →
        ixCompareCol (leBytes 8 v.toNat) (leBytes 8 w.toNat) .datetime 8 = memcmp s t ∧
        memcmp s t = (unpackDatetime v).chronological (unpackDatetime w) := by
  refine ⟨?_, fun v hv => ?_, fun t v w hv hw => ?_⟩
  · rw [Option.isSome_iff_exists]
    constructor
    · rintro ⟨v, hv⟩
      obtain ⟨f, hf, hs, -⟩ := parseDatetime_eq_some.mp hv
      exact ⟨f, hf, hs⟩
    · rintro ⟨f, hf, hs⟩
      exact ⟨packDatetime f, parseDatetime_eq_some.mpr ⟨f, hf, hs, rfl⟩⟩
  · obtain ⟨f, hf, rfl, rfl⟩ := parseDatetime_eq_some.mp hv
    exact ⟨formatDatetime_packDatetime hf, f, hf, rfl, rfl, unpackDatetime_packDatetime hf.fits⟩
  · obtain ⟨f, hf, rfl, rfl⟩ := parseDatetime_eq_some.mp hv
    obtain ⟨g, hg, rfl, rfl⟩ := parseDatetime_eq_some.mp hw
    rw [ixCompareCol_datetime (packDatetime_lt hf.fits) (packDatetime_lt hg.fits),
      compare_packDatetime hf.fits hg.fits, memcmp_text hf hg, unpackDatetime_packDatetime hf.fits,
      unpackDatetime_packDatetime hg.fits]
    exact ⟨rfl, rfl⟩

end Text

end Rmdb
