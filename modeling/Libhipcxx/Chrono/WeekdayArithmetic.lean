import Libhipcxx.Chrono.DayField
import Libhipcxx.Chrono.MonthArithmetic

/-!
# Days added to and subtracted from weekdays

A sum is found in `long long` by a division with a bias for negative numbers,
and a difference in `int` by another one.  Both agree with the remainder that
gives the weekday of a day count.

A `year_month_weekday_last` is found from the last day of its month by the
difference of the two weekdays.
-/

namespace Libhipcxx.Chrono

open MachineInt Gregorian

/-! ## days -/

def days : DurationType where
  rep := .int
  Num := 86400
  Den := 1
  period := ⟨86400, 1, Int.one_pos, Rational.max_pos, by decide, isCoprime_one_right⟩
  period_eq := by decide +kernel
  period_pos := by decide

namespace SysDays

/-- The count of a `sys_days` and a number of days. -/
def add (lhs : ℤ) (rhs : Duration days) : Option ℤ := int32 (lhs + rhs.count)

def sub (lhs : ℤ) (rhs : Duration days) : Option ℤ := int32 (lhs - rhs.count)

end SysDays

namespace Weekday

/-- The constructor from `sys_days`. -/
def ofSysDays (sysd : ℤ) : Option Weekday := (weekdayFromDays sysd).map Weekday.mk

def add (lhs : Weekday) (rhs : Duration days) : Option Weekday := do
  let mu ← Rep.longLong.type.arith (lhs.cEncoding.toNat + rhs.count)
  let dividend ← (if 0 ≤ mu then some mu else Rep.longLong.type.arith (mu - 6))
  let yr := dividend.tdiv 7
  let product ← Rep.longLong.type.arith (yr * 7)
  let rest ← Rep.longLong.type.arith (mu - product)
  return Weekday.ofUnsigned (BitVec.ofInt 32 rest)

def subDays (lhs : Weekday) (rhs : Duration days) : Option Weekday := do
  lhs.add (← rhs.neg)

/-- The difference of two weekdays. -/
def difference (lhs rhs : Weekday) : Duration days := Duration.ofNumber days (lhs.sub rhs)

end Weekday

/-! ## year_month_weekday_last -/

structure YearMonthWeekdayLast where
  year : Year
  month : Month
  weekday : Weekday
deriving DecidableEq

namespace YearMonthWeekdayLast

def ok (date : YearMonthWeekdayLast) : Bool :=
  date.year.ok && date.month.ok && date.weekday.ok

def toDays (date : YearMonthWeekdayLast) : Option ℤ := do
  let day ← lastDay date.year date.month
  let last ← Chrono.toDays ⟨date.year, date.month, day⟩
  let weekday ← Weekday.ofSysDays last
  SysDays.sub last (weekday.difference date.weekday)

end YearMonthWeekdayLast

/-! ## Weekdays as remainders -/

/-- The weekday with the given number. -/
def Weekday.ofRemainder (n : ℤ) : Weekday := ⟨BitVec.ofNat 8 (n % 7).toNat⟩

/-- The day counts that have a weekday. -/
def HasWeekday (d : ℤ) : Prop := -2 ^ 31 ≤ d ∧ d + 4 < 2 ^ 31

variable {n n' d : ℤ}

theorem days_count_bounds (n : Duration days) :
    -2147483648 ≤ n.count ∧ n.count ≤ 2147483647 :=
  int_fits_iff.mp n.fits

theorem Weekday.ofRemainder_congr (h : n % 7 = n' % 7) :
    Weekday.ofRemainder n = Weekday.ofRemainder n' := by
  rw [Weekday.ofRemainder, h, Weekday.ofRemainder]

theorem Weekday.remainder_le (n : ℤ) : (n % 7).toNat ≤ 6 := by
  omega

theorem Weekday.cEncoding_ofRemainder (n : ℤ) :
    ((Weekday.ofRemainder n).cEncoding.toNat : ℤ) = n % 7 := by
  have hle := Weekday.remainder_le n
  rw [Weekday.cEncoding, Weekday.ofRemainder, toNat_byte (by omega)]
  omega

theorem Weekday.ok_ofRemainder (n : ℤ) : (Weekday.ofRemainder n).ok = true := by
  have hle := Weekday.remainder_le n
  rw [Weekday.ok, decide_eq_true_iff, Weekday.ofRemainder, BitVec.le_def,
    toNat_ofNat_of_lt (by omega)]
  exact hle

theorem Weekday.exists_remainder {weekday : Weekday} (hok : weekday.ok = true) :
    weekday = Weekday.ofRemainder weekday.wd.toNat := by
  rw [Weekday.ok, decide_eq_true_iff, BitVec.le_def] at hok
  have hle : weekday.wd.toNat ≤ 6 := hok
  have hsame : ((weekday.wd.toNat : ℤ) % 7).toNat = weekday.wd.toNat := by omega
  rw [Weekday.ofRemainder, hsame, BitVec.ofNat_toNat, BitVec.setWidth_eq]

theorem Weekday.ofRemainder_inj (h : Weekday.ofRemainder n = Weekday.ofRemainder n') :
    n % 7 = n' % 7 := by
  rw [← Weekday.cEncoding_ofRemainder n, h, Weekday.cEncoding_ofRemainder]

theorem Weekday.ofSysDays_eq (h : HasWeekday d) :
    Weekday.ofSysDays d = some (Weekday.ofRemainder (d + 4)) := by
  rw [Weekday.ofSysDays, weekdayFromDays_eq h.1 (by have := h.2; omega)]
  rfl

/-- A rest of a division by seven is not seven, and fits a byte. -/
theorem Weekday.ofUnsigned_remainder (n : ℤ) :
    Weekday.ofUnsigned (BitVec.ofInt 32 (n % 7)) = Weekday.ofRemainder n := by
  have hlo := Int.emod_nonneg n (by decide : (7 : ℤ) ≠ 0)
  have hhi := Int.emod_lt_of_pos n (by decide : (0 : ℤ) < 7)
  have hne : BitVec.ofInt 32 (n % 7) ≠ 7 := by
    generalize n % 7 = r at hlo hhi
    interval_cases r <;> decide
  rw [Weekday.ofUnsigned, if_neg hne, byte_of_remainder, Weekday.ofRemainder]

/-! ## Sums and differences -/

theorem Weekday.add_eq (n : ℤ) (rhs : Duration days) :
    (Weekday.ofRemainder n).add rhs = some (Weekday.ofRemainder (n + rhs.count)) := by
  obtain ⟨hlo, hhi⟩ := days_count_bounds rhs
  have hrest := Int.emod_nonneg n (by decide : (7 : ℤ) ≠ 0)
  have hrest_lt := Int.emod_lt_of_pos n (by decide : (0 : ℤ) < 7)
  rw [Weekday.add, Weekday.cEncoding_ofRemainder, longLong_of_bounds (by omega) (by omega)]
  have hcongr : Weekday.ofRemainder (n + rhs.count) = Weekday.ofRemainder (n % 7 + rhs.count) :=
    Weekday.ofRemainder_congr (by omega)
  rw [hcongr]
  generalize hsum : n % 7 + rhs.count = mu
  have hdividend :
      (if 0 ≤ mu then some mu else Rep.longLong.type.arith (mu - 6)) =
        some (if 0 ≤ mu then mu else mu - 6) := by
    split
    · rfl
    · exact longLong_of_bounds (by omega) (by omega)
  have hyr : (if 0 ≤ mu then mu else mu - 6).tdiv 7 = mu / 7 :=
    @tdiv_shifted mu 7 (by decide)
  have hproduct := @longLong_of_bounds (mu / 7 * 7) (by omega) (by omega)
  have hrest := @longLong_of_bounds (mu - mu / 7 * 7) (by omega) (by omega)
  have hmod : mu - mu / 7 * 7 = mu % 7 := by omega
  simp only [Option.bind_eq_bind, Option.bind_some, hdividend, hyr, hproduct, hrest]
  rw [hmod, Weekday.ofUnsigned_remainder]
  rfl

theorem Weekday.subDays_eq (n : ℤ) {rhs : Duration days} (h : rhs.count ≠ -2 ^ 31) :
    (Weekday.ofRemainder n).subDays rhs = some (Weekday.ofRemainder (n - rhs.count)) := by
  obtain ⟨hlo, hhi⟩ := days_count_bounds rhs
  have hfits : days.rep.Fits (-rhs.count) := int_fits_iff.mpr (by omega)
  have hneg : rhs.neg = some ⟨-rhs.count, hfits⟩ := (neg_eq_some_iff rfl).mpr rfl
  rw [Weekday.subDays, hneg, Option.bind_eq_bind, Option.bind_some, Weekday.add_eq,
    Int.sub_eq_add_neg]

theorem Weekday.difference_count (n n' : ℤ) :
    ((Weekday.ofRemainder n).difference (Weekday.ofRemainder n')).count = (n - n') % 7 := by
  have hsub : (Weekday.ofRemainder n).sub (Weekday.ofRemainder n') = (n - n') % 7 := by
    rw [Weekday.ofRemainder, Weekday.ofRemainder,
      sub_eq (Weekday.remainder_le n) (Weekday.remainder_le n')]
    omega
  have hfits : days.rep.Fits ((n - n') % 7) := int_fits_iff.mpr (by omega)
  rw [Weekday.difference, hsub]
  exact IntegerType.convert_of_fits hfits

/-- The difference is the only value from zero to six that gives the first
weekday when it is added to the second one. -/
theorem Weekday.difference_spec {lhs rhs : Weekday} (hlhs : lhs.ok = true)
    (hrhs : rhs.ok = true) (n : Duration days) :
    (0 ≤ n.count ∧ n.count ≤ 6 ∧ rhs.add n = some lhs) ↔ n = lhs.difference rhs := by
  obtain ⟨x, rfl⟩ : ∃ x, lhs = Weekday.ofRemainder x := ⟨_, Weekday.exists_remainder hlhs⟩
  obtain ⟨y, rfl⟩ : ∃ y, rhs = Weekday.ofRemainder y := ⟨_, Weekday.exists_remainder hrhs⟩
  have hcount := Weekday.difference_count x y
  rw [Weekday.add_eq]
  constructor
  · rintro ⟨hlo, hhi, hadd⟩
    have hsame := Weekday.ofRemainder_inj (Option.some.inj hadd)
    exact Duration.ext (by omega)
  · rintro rfl
    refine ⟨by omega, by omega, ?_⟩
    exact congrArg some (Weekday.ofRemainder_congr (by omega))

/-! ## The last weekday of a month -/

/-- The last day of the month that falls on the weekday. -/
structure IsLastWeekday (date : YearMonthWeekdayLast) (day : Date) : Prop where
  year : day.year = date.year.toInt
  month : day.month = date.month.toUnsigned.toNat
  weekday : Weekday.ofSysDays day.number = some date.weekday
  last : ∀ later : Date, later.year = day.year → later.month = day.month →
    day.day < later.day → Weekday.ofSysDays later.number ≠ some date.weekday

theorem YearMonthWeekdayLast.toDays_spec {date : YearMonthWeekdayLast}
    (hok : date.ok = true) :
    ∃ day, date.toDays = some day.number ∧ IsLastWeekday date day := by
  obtain ⟨year, month, weekday⟩ := date
  rw [YearMonthWeekdayLast.ok, Bool.and_eq_true, Bool.and_eq_true] at hok
  obtain ⟨⟨hyear, hmonth⟩, hweekday⟩ := hok
  obtain ⟨y, m, d, rfl, rfl, -, hlo, hhi, hpos, hle, -⟩ :=
    exists_date_fields hyear hmonth ⟨0⟩
  obtain ⟨wd, rfl⟩ : ∃ wd, weekday = Weekday.ofRemainder wd :=
    ⟨_, Weekday.exists_remainder hweekday⟩
  have hlength := monthLength_pos y m
  have hlength_le := monthLength_le y m
  obtain ⟨hfirst, hfirst_lt⟩ := dayNumber_bounds hlo hhi hpos hle
  have hnumber (d : ℕ) := dayNumber_eq_first y m d
  have hhas {d : ℕ} (hd : d ≤ 31) : HasWeekday (dayNumber y m d) := by
    rw [HasWeekday, hnumber]
    omega
  have hlast := toDays_eq (show -32768 ≤ y by omega) (by omega) hpos hle
    (show monthLength y m < 256 by omega)
  have hdifference := Weekday.difference_count (dayNumber y m (monthLength y m) + 4) wd
  -- The days from the last weekday of the month to the last day.
  obtain ⟨c, hc⟩ : ∃ c : ℕ, (dayNumber y m (monthLength y m) + 4 - wd) % 7 = c :=
    ⟨_, (Int.toNat_of_nonneg (Int.emod_nonneg _ (by decide))).symm⟩
  rw [hc] at hdifference
  have hnumber_len := hnumber (monthLength y m)
  have hday_eq := hnumber (monthLength y m - c)
  refine ⟨⟨y, m, monthLength y m - c, hpos, hle, by omega, Nat.sub_le _ _⟩, ?_, ?_, ?_, ?_, ?_⟩
  · simp only [YearMonthWeekdayLast.toDays, lastDay_eq (show -32768 ≤ y by omega)
      (show y < 32768 by omega) hpos hle, hlast, Weekday.ofSysDays_eq (hhas hlength_le),
      Option.bind_eq_bind, Option.bind_some, SysDays.sub, hdifference]
    rw [int32_of_bounds (by omega) (by omega)]
    change some _ = some (dayNumber y m (monthLength y m - c))
    exact congrArg some (by omega)
  · exact (toInt_year (show -32768 ≤ y by omega) (by omega)).symm
  · rw [toUnsigned_month (by omega), toNat_ofNat_of_lt (by omega)]
  · change Weekday.ofSysDays (dayNumber y m (monthLength y m - c)) = _
    rw [Weekday.ofSysDays_eq (hhas (by omega))]
    exact congrArg some (Weekday.ofRemainder_congr (by omega))
  · intro later hyear' hmonth' hlater hsame
    have hlater_le := later.day_le
    rw [hyear', hmonth'] at hlater_le
    have hlater_number : later.number = dayNumber y m later.day := by
      rw [Date.number, hyear', hmonth']
    have hlater_eq := hnumber later.day
    dsimp only at hlater hlater_le
    rw [hlater_number, Weekday.ofSysDays_eq (hhas (by omega))] at hsame
    have hweekday := Weekday.ofRemainder_inj (Option.some.inj hsame)
    omega

/-! ## Weekday arithmetic -/

/-- The weekday of a day count is a remainder that is not negative, and the
weekday of a sum or a difference is the sum or the difference of the weekday.
The least `int` has no negation: no day count in range has both a sum and a
difference with it.  Differences of weekdays and the last weekday of a month
follow. -/
theorem weekday_arithmetic :
    (∀ d, HasWeekday d → ∃ weekday, Weekday.ofSysDays d = some weekday ∧
      weekday.ok = true ∧ (weekday.cEncoding.toNat : ℤ) = (d + 4) % 7 ∧
      ∀ n : Duration days,
        (HasWeekday (d + n.count) → ∃ sum, weekday.add n = some sum ∧
          (SysDays.add d n).bind Weekday.ofSysDays = some sum) ∧
        (HasWeekday (d - n.count) → HasWeekday (d + n.count) ∨ n.count ≠ -2 ^ 31 →
          ∃ difference, weekday.subDays n = some difference ∧
            (SysDays.sub d n).bind Weekday.ofSysDays = some difference)) ∧
    (∀ lhs rhs : Weekday, lhs.ok = true → rhs.ok = true → ∀ n : Duration days,
      (0 ≤ n.count ∧ n.count ≤ 6 ∧ rhs.add n = some lhs) ↔ n = lhs.difference rhs) ∧
    ∀ date : YearMonthWeekdayLast, date.ok = true →
      ∃ day, date.toDays = some day.number ∧ IsLastWeekday date day := by
  refine ⟨?_, fun _ _ => Weekday.difference_spec, fun _ => YearMonthWeekdayLast.toDays_spec⟩
  intro d hd
  refine ⟨Weekday.ofRemainder (d + 4), Weekday.ofSysDays_eq hd, Weekday.ok_ofRemainder _,
    Weekday.cEncoding_ofRemainder _, ?_⟩
  intro n
  obtain ⟨hlo, hhi⟩ := hd
  constructor
  · rintro ⟨hsum_lo, hsum_hi⟩
    refine ⟨_, Weekday.add_eq _ n, ?_⟩
    rw [SysDays.add, int32_of_bounds hsum_lo (by omega), Option.bind_some,
      Weekday.ofSysDays_eq ⟨hsum_lo, hsum_hi⟩]
    exact congrArg some (Weekday.ofRemainder_congr (by omega))
  · rintro ⟨hdiff_lo, hdiff_hi⟩ hn
    have hne : n.count ≠ -2 ^ 31 := by
      rcases hn with ⟨hsum_lo, -⟩ | hne
      · omega
      · exact hne
    refine ⟨_, Weekday.subDays_eq _ hne, ?_⟩
    rw [SysDays.sub, int32_of_bounds hdiff_lo (by omega), Option.bind_some,
      Weekday.ofSysDays_eq ⟨hdiff_lo, hdiff_hi⟩]
    exact congrArg some (Weekday.ofRemainder_congr (by omega))

/-- The last Thursday of February 2024 is the leap day. -/
theorem weekday_arithmetic_leap_day :
    ∃ day : Date, day.number = 19782 ∧
      IsLastWeekday ⟨Year.ofInt 2024, february, ⟨4⟩⟩ day := by
  have hdays : YearMonthWeekdayLast.toDays ⟨Year.ofInt 2024, february, ⟨4⟩⟩ = some 19782 := by
    decide
  obtain ⟨day, hday, hlast⟩ :=
    weekday_arithmetic.2.2 ⟨Year.ofInt 2024, february, ⟨4⟩⟩ (by decide)
  exact ⟨day, Option.some.inj (hday.symm.trans hdays), hlast⟩

end Libhipcxx.Chrono
