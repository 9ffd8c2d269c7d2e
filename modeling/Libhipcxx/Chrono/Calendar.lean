import Libhipcxx.Support.MachineInt

/-!
# The calendar types of chrono

`year` keeps a `short`, `month` and `day` keep an `unsigned char`.  The
conversions between `sys_days` and `year_month_day` mix `int` and `unsigned`:
an `int` operation that overflows has no result here, an `unsigned` one wraps
around.
-/

namespace Libhipcxx.Chrono

open MachineInt

/-! ## year, month and day -/

structure Year where
  y : BitVec 16
deriving DecidableEq

def Year.ofInt (val : ℤ) : Year := ⟨BitVec.ofInt 16 val⟩

def Year.toInt (year : Year) : ℤ := year.y.toInt

def Year.isLeap (year : Year) : Bool :=
  year.toInt.tmod 4 == 0 && (year.toInt.tmod 100 != 0 || year.toInt.tmod 400 == 0)

def Year.min : Year := Year.ofInt (-32767)

def Year.max : Year := Year.ofInt 32767

def Year.ok (year : Year) : Bool :=
  Year.min.toInt ≤ year.toInt && year.toInt ≤ Year.max.toInt

structure Month where
  m : BitVec 8
deriving DecidableEq

def Month.ofUnsigned (val : BitVec 32) : Month := ⟨val.setWidth 8⟩

def Month.toUnsigned (month : Month) : BitVec 32 := month.m.setWidth 32

def Month.ok (month : Month) : Bool := 1 ≤ month.m && month.m ≤ 12

def february : Month := Month.ofUnsigned 2

structure Day where
  d : BitVec 8
deriving DecidableEq

def Day.ofUnsigned (val : BitVec 32) : Day := ⟨val.setWidth 8⟩

def Day.toUnsigned (day : Day) : BitVec 32 := day.d.setWidth 32

structure YearMonthDay where
  year : Year
  month : Month
  day : Day
deriving DecidableEq

/-! ## The last day of a month -/

/-- The table of `year_month_day_last::day`. -/
def lastDays : List Day :=
  [31, 28, 31, 30, 31, 30, 31, 31, 30, 31, 30, 31].map Day.ofUnsigned

/-- `year_month_day_last::day`; none if the table is read outside. -/
def lastDay (year : Year) (month : Month) : Option Day :=
  if month ≠ february ∨ year.isLeap = false then
    lastDays[(month.toUnsigned - 1).toNat]?
  else
    some (Day.ofUnsigned 29)

/-- `year_month_day::ok`. -/
def YearMonthDay.ok (date : YearMonthDay) : Option Bool :=
  if !date.year.ok || !date.month.ok then
    some false
  else do
    let last ← lastDay date.year date.month
    return (Day.ofUnsigned 1).toUnsigned ≤ date.day.toUnsigned &&
      date.day.toUnsigned ≤ last.toUnsigned

/-! ## From days -/

/-- Day of the era to year of the era. -/
def yoe (doe : BitVec 32) : BitVec 32 :=
  (doe - doe / 1460 + doe / 36524 - doe / 146096) / 365

/-- Day of the era to day of the year. -/
def doy (doe : BitVec 32) : BitVec 32 :=
  doe - (365 * yoe doe + yoe doe / 4 - yoe doe / 100)

/-- Day of the year to months since March. -/
def mp (doy : BitVec 32) : BitVec 32 := (5 * doy + 2) / 153

def dy (doy : BitVec 32) : BitVec 32 := doy - (153 * mp doy + 2) / 5 + 1

def mth (mp : BitVec 32) : BitVec 32 :=
  mp + BitVec.ofInt 32 (if mp < 10 then 3 else -9)

/-- `year_month_day::__from_days`; none if an `int` operation overflows. -/
def fromDays (d : ℤ) : Option YearMonthDay := do
  let z ← int32 (d + 719468)
  let dividend ← (if 0 ≤ z then some z else int32 (z - 146096))
  let era := dividend.tdiv 146097
  let eraDays ← int32 (era * 146097)
  let rest ← int32 (z - eraDays)
  let doe := BitVec.ofInt 32 rest
  let eraYears ← int32 (era * 400)
  let yr ← int32 ((yoe doe).toInt + eraYears)
  let month := mth (mp (doy doe))
  let year ← int32 (yr + if month ≤ 2 then 1 else 0)
  return {
    year := Year.ofInt year
    month := Month.ofUnsigned month
    day := Day.ofUnsigned (dy (doy doe)) }

/-! ## To days -/

/-- Month and day to the day of a year that begins in March. -/
def marchDay (mth dy : BitVec 32) : BitVec 32 :=
  (153 * (mth + BitVec.ofInt 32 (if mth > 2 then -3 else 9)) + 2) / 5 + dy - 1

/-- Year and day of the year to the day of the era. -/
def doe (yoe doy : BitVec 32) : BitVec 32 := yoe * 365 + yoe / 4 - yoe / 100 + doy

/-- `year_month_day::__to_days`; none if an `int` operation overflows. -/
def toDays (date : YearMonthDay) : Option ℤ := do
  let yr ← int32 (date.year.toInt -
    if date.month.toUnsigned ≤ february.toUnsigned then 1 else 0)
  let dividend ← (if 0 ≤ yr then some yr else int32 (yr - 399))
  let era := dividend.tdiv 400
  let eraYears ← int32 (era * 400)
  let rest ← int32 (yr - eraYears)
  let yoe := BitVec.ofInt 32 rest
  let doy := marchDay date.month.toUnsigned date.day.toUnsigned
  let eraDays ← int32 (era * 146097)
  let days ← int32 (eraDays + (doe yoe doy).toInt)
  int32 (days - 719468)

example : fromDays (-719469) =
    some ⟨Year.ofInt 0, Month.ofUnsigned 2, Day.ofUnsigned 29⟩ := by decide

end Libhipcxx.Chrono
