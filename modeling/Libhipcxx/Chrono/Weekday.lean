import Libhipcxx.Chrono.Civil
import Libhipcxx.Chrono.DayCount

/-!
# Weekdays and `year_month_weekday`

`weekday` and `weekday_indexed` keep an `unsigned char` each.  The weekday of
a day count is a remainder with a branch for the days before the epoch, and
the days of a `year_month_weekday` are those of the first of its month, the
days to the weekday asked for, and whole weeks.

`year_month_weekday::ok` accepts every index from one to five.  A fifth
weekday that the month does not have becomes a day of the month after, so the
conversion back gives another value.
-/

namespace Libhipcxx.Chrono

open MachineInt Gregorian

/-! ## The types -/

structure Weekday where
  wd : BitVec 8
deriving DecidableEq

def Weekday.ofUnsigned (val : BitVec 32) : Weekday :=
  ⟨(if val = 7 then 0 else val).setWidth 8⟩

def Weekday.cEncoding (weekday : Weekday) : BitVec 32 := weekday.wd.setWidth 32

def Weekday.ok (weekday : Weekday) : Bool := weekday.wd ≤ 6

/-- `weekday::__weekday_from_days`; none if an `int` operation overflows. -/
def weekdayFromDays (days : ℤ) : Option (BitVec 8) := do
  if -4 ≤ days then
    let shifted ← int32 (days + 4)
    return (BitVec.ofInt 32 (shifted.tmod 7)).setWidth 8
  else
    let shifted ← int32 (days + 5)
    return (BitVec.ofInt 32 (shifted.tmod 7 + 6)).setWidth 8

/-- The difference of two weekdays as a number of days. -/
def Weekday.sub (lhs rhs : Weekday) : ℤ :=
  let wdu := lhs.cEncoding.toInt - rhs.cEncoding.toInt
  let wk := (if 0 ≤ wdu then wdu else wdu - 6).tdiv 7
  wdu - wk * 7

structure WeekdayIndexed where
  weekday : Weekday
  idx : BitVec 8
deriving DecidableEq

def WeekdayIndexed.index (wdi : WeekdayIndexed) : BitVec 32 :=
  wdi.idx.setWidth 32

def WeekdayIndexed.ok (wdi : WeekdayIndexed) : Bool :=
  wdi.weekday.ok && 1 ≤ wdi.idx && wdi.idx ≤ 5

/-- `weekday::operator[]`. -/
def Weekday.indexed (weekday : Weekday) (index : BitVec 32) : WeekdayIndexed :=
  ⟨weekday, index.setWidth 8⟩

structure YearMonthWeekday where
  year : Year
  month : Month
  wdi : WeekdayIndexed
deriving DecidableEq

namespace YearMonthWeekday

/-- `year_month_weekday::ok`; whether the month has the weekday is not
checked. -/
def ok (date : YearMonthWeekday) : Bool :=
  if !date.year.ok || !date.month.ok || !date.wdi.ok then false else true

def fromDays (d : ℤ) : Option YearMonthWeekday := do
  let wd ← weekdayFromDays d
  let ymd ← Chrono.fromDays d
  return {
    year := ymd.year
    month := ymd.month
    wdi := Weekday.indexed ⟨wd⟩ ((ymd.day.toUnsigned - 1) / 7 + 1) }

def toDays (date : YearMonthWeekday) : Option ℤ := do
  let sysd ← Chrono.toDays ⟨date.year, date.month, Day.ofUnsigned 1⟩
  let wd ← weekdayFromDays sysd
  let weeks := ((date.wdi.index - 1) * 7).toInt
  let offset ← int32 (date.wdi.weekday.sub ⟨wd⟩ + weeks)
  int32 (sysd + offset)

end YearMonthWeekday

/-! ## Weekdays of the calendar -/

/-- The weekday of a day number, counted from Sunday; the first of January
1970 is a Thursday. -/
def weekdayOf (n : ℤ) : ℕ := ((n + 4) % 7).toNat

theorem weekdayOf_le (n : ℤ) : weekdayOf n ≤ 6 := by
  rw [weekdayOf]
  omega

/-- The remainder that the branch for days before the epoch computes. -/
theorem tmod_before_epoch {d : ℤ} (h : ¬ -4 ≤ d) :
    (d + 5).tmod 7 + 6 = (d + 4) % 7 := by
  have hneg : d + 5 = -(-(d + 5)) := by omega
  rw [hneg, Int.neg_tmod, Int.tmod_eq_emod_of_nonneg (by omega)]
  omega

theorem byte_of_remainder (x : ℤ) :
    (BitVec.ofInt 32 (x % 7)).setWidth 8 = BitVec.ofNat 8 (x % 7).toNat := by
  have hlo := Int.emod_nonneg x (by decide : (7 : ℤ) ≠ 0)
  have hhi := Int.emod_lt_of_pos x (by decide : (0 : ℤ) < 7)
  generalize x % 7 = r at hlo hhi
  interval_cases r <;> rfl

theorem weekdayFromDays_eq {d : ℤ} (hlo : -2147483648 ≤ d)
    (hhi : d < 2147483644) :
    weekdayFromDays d = some (BitVec.ofNat 8 (weekdayOf d)) := by
  rw [weekdayFromDays, weekdayOf, ← byte_of_remainder]
  split
  · rw [int32_of_bounds (by omega) (by omega), Option.bind_eq_bind,
      Option.bind_some, Int.tmod_eq_emod_of_nonneg (by omega)]
    rfl
  · rename_i hbefore
    rw [int32_of_bounds (by omega) (by omega), Option.bind_eq_bind,
      Option.bind_some, tmod_before_epoch hbefore]
    rfl

theorem sub_eq {a b : ℕ} (ha : a ≤ 6) (hb : b ≤ 6) :
    Weekday.sub ⟨BitVec.ofNat 8 a⟩ ⟨BitVec.ofNat 8 b⟩ = ((a : ℤ) - b) % 7 := by
  interval_cases a <;> interval_cases b <;> decide

/-- The `year_month_weekday` with the given fields. -/
def ofFields (y : ℤ) (m wd index : ℕ) : YearMonthWeekday where
  year := Year.ofInt y
  month := Month.ofUnsigned (BitVec.ofNat 32 m)
  wdi := ⟨⟨BitVec.ofNat 8 wd⟩, BitVec.ofNat 8 index⟩

theorem ofUnsigned_toNat (month : Month) :
    Month.ofUnsigned (BitVec.ofNat 32 month.m.toNat) = month := by
  unfold Month.ofUnsigned
  rw [BitVec.setWidth_ofNat_of_le (by decide), BitVec.ofNat_toNat,
    BitVec.setWidth_eq]

theorem year_ok_iff (year : Year) :
    year.ok = true ↔ -32767 ≤ year.toInt ∧ year.toInt ≤ 32767 := by
  unfold Year.ok Year.min Year.max
  rw [toInt_year (by decide) (by decide), toInt_year (by decide) (by decide)]
  simp only [Bool.and_eq_true, decide_eq_true_eq]

theorem exists_fields {date : YearMonthWeekday} (hok : date.ok = true) :
    ∃ (y : ℤ) (m wd index : ℕ), date = ofFields y m wd index ∧
      -32767 ≤ y ∧ y ≤ 32767 ∧ 1 ≤ m ∧ m ≤ 12 ∧ wd ≤ 6 ∧ 1 ≤ index ∧
      index ≤ 5 := by
  obtain ⟨year, month, ⟨⟨wd⟩, idx⟩⟩ := date
  have hfields : year.ok = true ∧ month.ok = true ∧
      (WeekdayIndexed.mk ⟨wd⟩ idx).ok = true := by
    simpa [YearMonthWeekday.ok, and_assoc] using hok
  obtain ⟨hyear, hmonth, hwdi⟩ := hfields
  rw [year_ok_iff] at hyear
  simp only [Month.ok, WeekdayIndexed.ok, Weekday.ok, Bool.and_eq_true,
    decide_eq_true_eq, BitVec.le_def] at hmonth hwdi
  refine ⟨year.toInt, month.m.toNat, wd.toNat, idx.toNat, ?_, hyear.1, hyear.2,
    hmonth.1, hmonth.2, hwdi.1.1, hwdi.1.2, hwdi.2⟩
  rw [ofFields, ofUnsigned_toNat, BitVec.ofNat_toNat, BitVec.ofNat_toNat,
    BitVec.setWidth_eq, BitVec.setWidth_eq, Year.ofInt, Year.toInt,
    BitVec.ofInt_toInt]

/-! ## Conversion from days -/

/-- The index of the weekday of a date among those of its month. -/
def indexOf (date : Date) : ℕ := (date.day - 1) / 7 + 1

theorem fromDays_fields {d : ℤ} (hlo : -2147483648 ≤ d) (hhi : d < 2146764180) :
    YearMonthWeekday.fromDays d =
      some (ofFields (Date.ofNumber d).year (Date.ofNumber d).month
        (weekdayOf d) (indexOf (Date.ofNumber d))) := by
  have hday : (Date.ofNumber d).day ≤ 31 :=
    (Date.ofNumber d).day_le.trans (monthLength_le _ _)
  have hpos := (Date.ofNumber d).day_pos
  have hindex : (BitVec.ofNat 32 (Date.ofNumber d).day - 1) / 7 + 1 =
      BitVec.ofNat 32 (indexOf (Date.ofNumber d)) := by
    change (BitVec.ofNat 32 _ - BitVec.ofNat 32 1) / BitVec.ofNat 32 7 +
      BitVec.ofNat 32 1 = _
    rw [ofNat_sub (by omega) hpos, ofNat_div (by omega) (by decide),
      ← BitVec.ofNat_add, indexOf]
  rw [YearMonthWeekday.fromDays, weekdayFromDays_eq hlo (by omega),
    fromDays_eq hlo hhi]
  simp only [Option.bind_eq_bind, Option.bind_some, ofDate,
    toUnsigned_day (show (Date.ofNumber d).day < 2 ^ 8 by omega), hindex,
    Weekday.indexed, BitVec.setWidth_ofNat_of_le (show 8 ≤ 32 by decide)]
  rfl

/-! ## Conversion to days -/

/-- The first of a month. -/
def firstOf (y : ℤ) {m : ℕ} (hpos : 1 ≤ m) (hle : m ≤ 12) : Date where
  year := y
  month := m
  day := 1
  month_pos := hpos
  month_le := hle
  day_pos := Nat.one_pos
  day_le := Nat.le_trans (by decide) (monthLength_pos _ _)

/-- The number of days from the first of the month. -/
def daysAfterFirst (y : ℤ) (m wd index : ℕ) : ℕ :=
  (((wd : ℤ) - weekdayOf (dayNumber y m 1)) % 7).toNat + 7 * (index - 1)

theorem daysAfterFirst_le {y : ℤ} {m wd index : ℕ} (hindex : index ≤ 5) :
    daysAfterFirst y m wd index ≤ 34 := by
  unfold daysAfterFirst
  omega

theorem dayNumber_bounds {y : ℤ} {m : ℕ} (hlo : -32767 ≤ y) (hhi : y ≤ 32767)
    (hpos : 1 ≤ m) (hle : m ≤ 12) :
    -12687428 ≤ dayNumber y m 1 ∧ dayNumber y m 1 < 11248738 := by
  obtain ⟨hfirst, hlast⟩ := number_bounds (firstOf y hpos hle)
  have hmin := january_strictMono.monotone hlo
  have hend : january (y + 1) ≤ january 32768 :=
    january_strictMono.monotone (by omega)
  rw [january_min] at hmin
  rw [january_end] at hend
  exact ⟨hmin.trans hfirst, lt_of_lt_of_le hlast hend⟩

theorem toDays_fields {y : ℤ} {m wd index : ℕ} (hlo : -32767 ≤ y)
    (hhi : y ≤ 32767) (hpos : 1 ≤ m) (hle : m ≤ 12) (hwd : wd ≤ 6)
    (hindex : 1 ≤ index) (hindex_le : index ≤ 5) :
    (ofFields y m wd index).toDays =
      some (dayNumber y m 1 + daysAfterFirst y m wd index) := by
  obtain ⟨hmin, hmax⟩ := dayNumber_bounds hlo hhi hpos hle
  have hfirst : Chrono.toDays ⟨Year.ofInt y,
      Month.ofUnsigned (BitVec.ofNat 32 m), Day.ofUnsigned 1⟩ =
        some (dayNumber y m 1) :=
    toDays_ofDate (firstOf y hpos hle) (by simp only [firstOf]; omega)
      (by simp only [firstOf]; omega)
  have hweeks : ((((BitVec.ofNat 8 index).setWidth 32 : BitVec 32) - 1) * 7).toInt =
      7 * ((index - 1 : ℕ) : ℤ) := by
    interval_cases index <;> rfl
  have hoffset : ((wd : ℤ) - weekdayOf (dayNumber y m 1)) % 7 +
      7 * ((index - 1 : ℕ) : ℤ) = daysAfterFirst y m wd index := by
    unfold daysAfterFirst
    omega
  have hafter := @daysAfterFirst_le y m wd index hindex_le
  simp only [YearMonthWeekday.toDays, ofFields, hfirst, Option.bind_eq_bind,
    Option.bind_some, WeekdayIndexed.index, hweeks,
    weekdayFromDays_eq (show -2147483648 ≤ dayNumber y m 1 by omega) (by omega),
    sub_eq hwd (weekdayOf_le _), hoffset]
  rw [int32_of_bounds (by omega) (by omega), Option.bind_some]
  exact int32_of_bounds (by omega) (by omega)

/-! ## The weekdays that a month has -/

/-- The month has a day with this weekday and this index. -/
def MonthHas (date : YearMonthWeekday) : Prop :=
  ∃ day : Date, day.year = date.year.toInt ∧
    day.month = date.month.toUnsigned.toNat ∧
    weekdayOf day.number = date.wdi.weekday.cEncoding.toNat ∧
    indexOf day = date.wdi.index.toNat

/-- The day is the one that the fields of a `year_month_weekday` name. -/
def IsNamed (day : Date) (y : ℤ) (m wd index : ℕ) : Prop :=
  day.year = y ∧ day.month = m ∧ weekdayOf day.number = wd ∧
    indexOf day = index

theorem toNat_byte {n : ℕ} (h : n < 256) :
    ((BitVec.ofNat 8 n).setWidth 32).toNat = n := by
  rw [BitVec.setWidth_ofNat_of_le_of_lt (by decide) h,
    toNat_ofNat_of_lt (by omega)]

theorem monthHas_fields {y : ℤ} {m wd index : ℕ} (hlo : -32767 ≤ y)
    (hhi : y ≤ 32767) (hle : m ≤ 12) (hwd : wd ≤ 6) (hindex_le : index ≤ 5) :
    MonthHas (ofFields y m wd index) ↔ ∃ day, IsNamed day y m wd index := by
  have hyear : (Year.ofInt y).toInt = y := toInt_year (by omega) (by omega)
  have hmonth : (Month.ofUnsigned (BitVec.ofNat 32 m)).toUnsigned.toNat = m := by
    rw [toUnsigned_month (by omega), toNat_ofNat_of_lt (by omega)]
  have hweekday : (Weekday.mk (BitVec.ofNat 8 wd)).cEncoding.toNat = wd :=
    toNat_byte (by omega)
  simp only [MonthHas, IsNamed, ofFields, hyear, hmonth, hweekday,
    WeekdayIndexed.index, toNat_byte (show index < 256 by omega)]

/-- The fields are those of the conversion to days. -/
theorem IsNamed.number_eq {day : Date} {y : ℤ} {m wd index : ℕ}
    (h : IsNamed day y m wd index) :
    day.number = dayNumber y m 1 + daysAfterFirst y m wd index := by
  obtain ⟨hyear, hmonth, hweekday, hindex⟩ := h
  have hpos := day.day_pos
  have hnumber : day.number = dayNumber y m 1 + (day.day - 1) := by
    rw [← hyear, ← hmonth]
    unfold Date.number dayNumber
    omega
  rw [indexOf] at hindex
  rw [hnumber, weekdayOf] at hweekday
  rw [hnumber, daysAfterFirst, weekdayOf]
  omega

/-- The month has every weekday four times. -/
theorem exists_named {y : ℤ} {m wd index : ℕ} (hpos : 1 ≤ m) (hle : m ≤ 12)
    (hwd : wd ≤ 6) (hindex : 1 ≤ index) (hindex_le : index ≤ 4) :
    ∃ day, IsNamed day y m wd index := by
  have hlength := monthLength_pos y m
  have hafter : daysAfterFirst y m wd index + 1 ≤ monthLength y m := by
    unfold daysAfterFirst
    omega
  refine ⟨⟨y, m, daysAfterFirst y m wd index + 1, hpos, hle,
    Nat.succ_pos _, hafter⟩, rfl, rfl, ?_, ?_⟩
  · have hnumber : dayNumber y m (daysAfterFirst y m wd index + 1) =
        dayNumber y m 1 + daysAfterFirst y m wd index := by
      unfold dayNumber
      omega
    rw [Date.number, hnumber, daysAfterFirst, weekdayOf, weekdayOf]
    omega
  · simp only [indexOf, daysAfterFirst]
    omega

/-! ## Round trips -/

/-- To days and back gives the same value. -/
def RoundTrips (date : YearMonthWeekday) : Prop :=
  ∃ d, date.toDays = some d ∧ YearMonthWeekday.fromDays d = some date

theorem year_eq_of_ofInt {y z : ℤ} (hy : -32767 ≤ y) (hy' : y ≤ 32767)
    (hz : -32768 ≤ z) (hz' : z ≤ 32768) (h : Year.ofInt z = Year.ofInt y) :
    z = y := by
  have hyear := congrArg Year.toInt h
  rw [@toInt_year y (by omega) (by omega)] at hyear
  rcases eq_or_lt_of_le hz' with rfl | hlt
  · -- The year after the last one wraps around to one that is not accepted.
    have hwrap : (Year.ofInt 32768).toInt = -32768 := by decide
    omega
  · rwa [toInt_year (by omega) hlt] at hyear

theorem month_eq_of_ofUnsigned {m n : ℕ} (hm : m ≤ 12) (hn : n ≤ 12)
    (h : Month.ofUnsigned (BitVec.ofNat 32 m) =
      Month.ofUnsigned (BitVec.ofNat 32 n)) : m = n := by
  have hmonth := congrArg (fun x : Month => x.toUnsigned.toNat) h
  simp only [toUnsigned_month (show m < 2 ^ 8 by omega),
    toUnsigned_month (show n < 2 ^ 8 by omega)] at hmonth
  rwa [toNat_ofNat_of_lt (by omega), toNat_ofNat_of_lt (by omega)] at hmonth

theorem byte_eq_of_ofNat {m n : ℕ} (hm : m < 256) (hn : n < 256)
    (h : BitVec.ofNat 8 m = BitVec.ofNat 8 n) : m = n := by
  have hbyte := congrArg BitVec.toNat h
  rwa [toNat_ofNat_of_lt hm, toNat_ofNat_of_lt hn] at hbyte

/-- A value that comes back names the day in between. -/
theorem named_of_fromDays {y d : ℤ} {m wd index : ℕ} (hlo : -32767 ≤ y)
    (hhi : y ≤ 32767) (hle : m ≤ 12) (hwd : wd ≤ 6) (hindex_le : index ≤ 5)
    (hd : -12687428 ≤ d) (hd' : d < 11248772)
    (h : YearMonthWeekday.fromDays d = some (ofFields y m wd index)) :
    ∃ day, IsNamed day y m wd index := by
  have hfields := fromDays_fields (show -2147483648 ≤ d by omega) (by omega)
  rw [h, Option.some.injEq] at hfields
  simp only [ofFields, YearMonthWeekday.mk.injEq, WeekdayIndexed.mk.injEq,
    Weekday.mk.injEq] at hfields
  obtain ⟨hyear, hmonth, hweekday, hindex⟩ := hfields
  have hend : january (32768 + 1) = 11249104 := by decide
  have hbounds := @ofNumber_year_bounds (-32767) 32768 d
    (by rw [january_min]; exact hd) (by omega)
  have hday := (Date.ofNumber d).day_le.trans (monthLength_le _ _)
  have hindexOf : indexOf (Date.ofNumber d) ≤ 5 := by
    unfold indexOf
    omega
  have hweekdayOf := weekdayOf_le d
  refine ⟨Date.ofNumber d, ?_, ?_, ?_, ?_⟩
  · exact year_eq_of_ofInt hlo hhi (by omega) hbounds.2 hyear.symm
  · exact month_eq_of_ofUnsigned (Date.ofNumber d).month_le hle hmonth.symm
  · rw [number_ofNumber]
    exact byte_eq_of_ofNat (by omega) (by omega) hweekday.symm
  · exact byte_eq_of_ofNat (by omega) (by omega) hindex.symm

theorem roundTrips_fields {y : ℤ} {m wd index : ℕ} (hlo : -32767 ≤ y)
    (hhi : y ≤ 32767) (hpos : 1 ≤ m) (hle : m ≤ 12) (hwd : wd ≤ 6)
    (hindex : 1 ≤ index) (hindex_le : index ≤ 5) :
    RoundTrips (ofFields y m wd index) ↔ ∃ day, IsNamed day y m wd index := by
  obtain ⟨hmin, hmax⟩ := dayNumber_bounds hlo hhi hpos hle
  have hafter := @daysAfterFirst_le y m wd index hindex_le
  have hdays := toDays_fields hlo hhi hpos hle hwd hindex hindex_le
  constructor
  · rintro ⟨d, hd, hback⟩
    rw [hdays, Option.some.injEq] at hd
    exact named_of_fromDays hlo hhi hle hwd hindex_le (by omega) (by omega) hback
  · rintro ⟨day, hnamed⟩
    have hnumber := hnamed.number_eq
    obtain ⟨hyear, hmonth, hweekday, hindex'⟩ := hnamed
    have hsame : Date.ofNumber day.number = day :=
      number_injective (number_ofNumber _)
    refine ⟨day.number, hnumber ▸ hdays, ?_⟩
    rw [fromDays_fields (by omega) (by omega), hsame, hyear, hmonth, hweekday,
      hindex']

theorem ok_fields {y : ℤ} {m wd index : ℕ} (hlo : -32767 ≤ y)
    (hhi : y ≤ 32767) (hpos : 1 ≤ m) (hle : m ≤ 12) (hwd : wd ≤ 6)
    (hindex : 1 ≤ index) (hindex_le : index ≤ 5) :
    (ofFields y m wd index).ok = true := by
  have hweekday : (WeekdayIndexed.mk ⟨BitVec.ofNat 8 wd⟩
      (BitVec.ofNat 8 index)).ok = true := by
    interval_cases wd <;> interval_cases index <;> rfl
  simp [YearMonthWeekday.ok, ofFields, ok_year hlo (show y < 32768 by omega),
    ok_month hpos hle, hweekday]

/-- Every day count of the years that `year::ok` accepts is an accepted value
and comes back.  An accepted value comes back exactly if its month has that
weekday, which only the index five leaves open. -/
theorem yearMonthWeekday_round_trip (d : ℤ) (date : YearMonthWeekday) :
    (january (-32767) ≤ d → d < january 32768 →
      ∃ day, YearMonthWeekday.fromDays d = some day ∧ day.ok = true ∧
        day.toDays = some d) ∧
    (date.ok = true →
      (RoundTrips date ↔ MonthHas date) ∧
      (date.wdi.index.toNat ≤ 4 → MonthHas date)) := by
  constructor
  · intro hlo hhi
    obtain ⟨hyear_lo, hyear_hi⟩ := @ofNumber_year_bounds (-32767) 32767 d hlo hhi
    rw [january_min] at hlo
    rw [january_end] at hhi
    have hpos := (Date.ofNumber d).month_pos
    have hle := (Date.ofNumber d).month_le
    have hday := (Date.ofNumber d).day_le.trans (monthLength_le _ _)
    have hindex : 1 ≤ indexOf (Date.ofNumber d) := Nat.le_add_left 1 _
    have hindex_le : indexOf (Date.ofNumber d) ≤ 5 := by
      unfold indexOf
      omega
    refine ⟨_, fromDays_fields (by omega) (by omega),
      ok_fields hyear_lo hyear_hi hpos hle (weekdayOf_le d) hindex hindex_le, ?_⟩
    have hnamed : IsNamed (Date.ofNumber d) (Date.ofNumber d).year
        (Date.ofNumber d).month (weekdayOf d) (indexOf (Date.ofNumber d)) :=
      ⟨rfl, rfl, by rw [number_ofNumber], rfl⟩
    rw [toDays_fields hyear_lo hyear_hi hpos hle (weekdayOf_le d) hindex
      hindex_le, ← hnamed.number_eq, number_ofNumber]
  · intro hok
    obtain ⟨y, m, wd, index, rfl, hlo, hhi, hpos, hle, hwd, hindex, hindex_le⟩ :=
      exists_fields hok
    rw [monthHas_fields hlo hhi hle hwd hindex_le]
    refine ⟨roundTrips_fields hlo hhi hpos hle hwd hindex hindex_le, ?_⟩
    intro hfour
    have hindexNat : (ofFields y m wd index).wdi.index.toNat = index :=
      toNat_byte (by omega)
    exact exists_named hpos hle hwd hindex (by omega)

/-- The fifth Thursday of February 2024 is the leap day. -/
theorem yearMonthWeekday_round_trip_leap_day :
    RoundTrips ⟨Year.ofInt 2024, february, ⟨⟨4⟩, 5⟩⟩ :=
  ((yearMonthWeekday_round_trip 0 _).2 (by decide)).1.mpr
    ⟨⟨2024, 2, 29, by decide, by decide, by decide, by decide⟩, by decide,
      by decide, by decide, by decide⟩

/-- The fifth Sunday of February 2023 is accepted and is the first Sunday of
March. -/
theorem fifth_sunday_not_round_trip :
    ¬ ∀ date : YearMonthWeekday, date.ok = true → RoundTrips date := by
  intro h
  obtain ⟨d, hd, hback⟩ :=
    h ⟨Year.ofInt 2023, february, ⟨⟨0⟩, 5⟩⟩ (by decide)
  have hdays : YearMonthWeekday.toDays
      ⟨Year.ofInt 2023, february, ⟨⟨0⟩, 5⟩⟩ = some 19421 := by decide
  have hmarch : YearMonthWeekday.fromDays 19421 =
      some ⟨Year.ofInt 2023, Month.ofUnsigned 3, ⟨⟨0⟩, 1⟩⟩ := by decide
  obtain rfl := Option.some.inj (hd.symm.trans hdays)
  rw [hmarch] at hback
  revert hback
  decide

end Libhipcxx.Chrono
